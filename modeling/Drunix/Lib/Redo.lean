import Mathlib

/-!
# Redo logs with revokes

A transaction of a redo log holds images to be put in place and keys it revokes: an
image of such a key, from this transaction or an earlier one, is not to be put in place
any more.

`recovered` says what a log means. `replayed` puts the transactions in place one after
the other and looks only at the revokes of the transaction at hand, which is what a
recovery does that reads its log once. `replayed_eq_recovered_iff` says where the two
agree: an image that is already in place must not be revoked later.
-/

namespace Drunix.Lib

/-- What one transaction of a redo log holds. -/
structure Redo (κ β : Type) where
  images : List (κ × β)
  revokes : List κ

section Redo

variable {κ β : Type} [DecidableEq κ]

/-- The last image of a key. -/
def lastImage : List (κ × β) → κ → Option β
  | [], _ => none
  | p :: ps, k => (lastImage ps k).or (if p.1 = k then some p.2 else none)

/-- The image a transaction holds of a key. -/
def Redo.image (t : Redo κ β) (k : κ) : Option β := lastImage t.images k

/-- The image a transaction puts in place by itself. -/
def Redo.put (t : Redo κ β) (k : κ) : Option β := if k ∈ t.revokes then none else t.image k

/-- What a log says about a key: the image of the last transaction that holds one, unless
this or a later transaction revokes the key. -/
def recovered : List (Redo κ β) → κ → Option β
  | [], _ => none
  | t :: ts, k =>
    if ∃ u ∈ ts, (u.image k).isSome then recovered ts k
    else if ∃ u ∈ t :: ts, k ∈ u.revokes then none
    else t.image k

/-- What is in place after every transaction has been put in place in order. -/
def replayed : List (Redo κ β) → κ → Option β
  | [], _ => none
  | t :: ts, k => (replayed ts k).or (t.put k)

/-- A key that a transaction revokes, after one that put an image in place and with none
behind it that holds another. -/
def LateRevoke (ts : List (Redo κ β)) (k : κ) : Prop :=
  ∃ before t behind, ts = before ++ t :: behind ∧ k ∈ t.revokes ∧
    (∃ u ∈ before, (u.put k).isSome) ∧ ∀ u ∈ behind, u.image k = none

variable {t : Redo κ β} {ts : List (Redo κ β)} {k : κ}

theorem Redo.put_cons (p : κ × β) (ps : List (κ × β)) (revokes : List κ) (k : κ) :
    Redo.put ⟨p :: ps, revokes⟩ k =
      (Redo.put ⟨ps, revokes⟩ k).or
        (if k ∈ revokes then none else if p.1 = k then some p.2 else none) := by
  unfold Redo.put
  split
  · rfl
  · rfl

theorem Redo.image_of_put (h : (t.put k).isSome) : k ∉ t.revokes ∧ t.image k = t.put k := by
  unfold Redo.put at h ⊢
  split at h
  · cases h
  next hk => exact ⟨hk, by rw [if_neg hk]⟩

theorem replayed_isSome_iff : (replayed ts k).isSome ↔ ∃ u ∈ ts, (u.put k).isSome := by
  induction ts with
  | nil => simp [replayed]
  | cons t ts ih =>
    rw [replayed, Option.isSome_or, Bool.or_eq_true, ih, List.exists_mem_cons_iff, or_comm]

/-- A log whose last transaction with an image revokes the key has nothing to say. -/
theorem recovered_of_no_put (h : ∀ u ∈ ts, (u.put k).isSome = false) : recovered ts k = none := by
  induction ts with
  | nil => rfl
  | cons t ts ih =>
    unfold recovered
    split
    · exact ih fun u hu => h u (List.mem_cons_of_mem _ hu)
    split
    · rfl
    next hrev =>
      have ht := h t List.mem_cons_self
      rw [Redo.put, if_neg fun hk => hrev ⟨t, List.mem_cons_self, hk⟩] at ht
      exact Option.not_isSome_iff_eq_none.mp (by simp [ht])

/-- Where no later transaction puts an image in place, the first one decides with all the
revokes behind it. -/
theorem recovered_cons (h : ∀ u ∈ ts, (u.put k).isSome = false) :
    recovered (t :: ts) k = if ∃ u ∈ ts, k ∈ u.revokes then none else t.put k := by
  unfold recovered
  split
  next himage =>
    obtain ⟨u, hu, huk⟩ := himage
    have hrev : k ∈ u.revokes := by
      by_contra hc
      have hput := h u hu
      rw [Redo.put, if_neg hc, huk] at hput
      cases hput
    rw [recovered_of_no_put h, if_pos ⟨u, hu, hrev⟩]
  simp only [List.exists_mem_cons_iff]
  by_cases hrev : ∃ u ∈ ts, k ∈ u.revokes
  · rw [if_pos (.inr hrev), if_pos hrev]
  · rw [if_neg hrev, Redo.put]
    by_cases ht : k ∈ t.revokes
    · rw [if_pos (.inl ht), if_pos ht]
    · rw [if_neg fun hc => hc.elim ht hrev, if_neg ht]

theorem LateRevoke.cons (h : LateRevoke ts k) : LateRevoke (t :: ts) k := by
  obtain ⟨before, u, behind, rfl, hu, ⟨w, hw, hput⟩, hbehind⟩ := h
  exact ⟨t :: before, u, behind, rfl, hu, ⟨w, List.mem_cons_of_mem _ hw, hput⟩, hbehind⟩

/-- Either the later transactions have a late revoke among them, or the first one has put
the image in place. -/
theorem lateRevoke_cons (h : LateRevoke (t :: ts) k) :
    LateRevoke ts k ∨ (∀ u ∈ ts, (u.put k).isSome = false) ∧ (t.put k).isSome ∧
      ∃ u ∈ ts, k ∈ u.revokes := by
  obtain ⟨before, u, behind, heq, hu, ⟨w, hw, hput⟩, hbehind⟩ := h
  cases before with
  | nil => cases hw
  | cons t' before =>
    obtain ⟨rfl, rfl⟩ := List.cons.inj heq
    by_cases hlater : ∃ w ∈ before, (w.put k).isSome
    · exact .inl ⟨before, u, behind, rfl, hu, hlater, hbehind⟩
    · refine .inr ⟨fun v hv => ?_, ?_, u, by simp, hu⟩
      · rw [Bool.eq_false_iff]
        intro hv'
        rcases List.mem_append.mp hv with hv | hv
        · exact hlater ⟨v, hv, hv'⟩
        · obtain ⟨hvk, himage⟩ := Redo.image_of_put hv'
          rcases List.mem_cons.mp hv with rfl | hv
          · exact hvk hu
          · rw [← himage, hbehind v hv] at hv'
            cases hv'
      · rcases List.mem_cons.mp hw with rfl | hw
        · exact hput
        · exact absurd ⟨w, hw, hput⟩ hlater

/-- What a transaction has put in place is revoked behind it, and no later one puts an image
of the key in place. -/
theorem LateRevoke.head (hput : (t.put k).isSome) (hlater : ∀ u ∈ ts, (u.put k).isSome = false)
    (hrev : ∃ u ∈ ts, k ∈ u.revokes) : LateRevoke (t :: ts) k := by
  induction ts generalizing t with
  | nil => simp at hrev
  | cons u ts ih =>
    have hts := fun w hw => hlater w (List.mem_cons_of_mem u hw)
    by_cases hrest : ∃ w ∈ ts, k ∈ w.revokes
    · obtain ⟨before, w, behind, heq, hw, -, hbehind⟩ := ih hput hts hrest
      cases before with
      | nil =>
        obtain ⟨rfl, -⟩ := List.cons.inj heq
        exact absurd hw (Redo.image_of_put hput).1
      | cons t' before =>
        obtain ⟨rfl, rfl⟩ := List.cons.inj heq
        exact ⟨t :: u :: before, w, behind, rfl, hw, ⟨t, List.mem_cons_self, hput⟩, hbehind⟩
    · obtain ⟨w, hw, hk⟩ := hrev
      have huk : k ∈ u.revokes := by
        rcases List.mem_cons.mp hw with rfl | hw
        · exact hk
        · exact absurd ⟨w, hw, hk⟩ hrest
      refine ⟨[t], u, ts, rfl, huk, ⟨t, List.mem_cons_self, hput⟩, fun w hw => ?_⟩
      have hwput := hts w hw
      rw [Redo.put, if_neg fun hc => hrest ⟨w, hw, hc⟩] at hwput
      exact Option.not_isSome_iff_eq_none.mp (by simp [hwput])

/-- One pass finds what the log means, unless an image in place is revoked later. -/
theorem replayed_eq_recovered_iff : replayed ts k = recovered ts k ↔ ¬ LateRevoke ts k := by
  induction ts with
  | nil =>
    refine iff_of_true rfl fun ⟨before, u, behind, heq, _⟩ => ?_
    simp at heq
  | cons t ts ih =>
    by_cases hput : ∃ u ∈ ts, (u.put k).isSome
    · -- the later transactions decide
      have himage : ∃ u ∈ ts, (u.image k).isSome := by
        obtain ⟨u, hu, huk⟩ := hput
        exact ⟨u, hu, by rw [(Redo.image_of_put huk).2]; exact huk⟩
      obtain ⟨v, hv⟩ := Option.isSome_iff_exists.mp (replayed_isSome_iff.mpr hput)
      have hlate : LateRevoke (t :: ts) k ↔ LateRevoke ts k := by
        refine ⟨fun h => (lateRevoke_cons h).elim id fun hc => ?_, LateRevoke.cons⟩
        obtain ⟨u, hu, huk⟩ := hput
        exact absurd huk (by simp [hc.1 u hu])
      rw [recovered, if_pos himage, replayed, hlate, ← ih, hv, Option.some_or]
    · have hnone : ∀ u ∈ ts, (u.put k).isSome = false := fun u hu =>
        Bool.eq_false_iff.mpr fun hc => hput ⟨u, hu, hc⟩
      have hrep : replayed ts k = none :=
        Option.not_isSome_iff_eq_none.mp fun hc => hput (replayed_isSome_iff.mp hc)
      have hno : ¬ LateRevoke ts k := fun ⟨before, u, behind, heq, _, ⟨w, hw, hwk⟩, _⟩ =>
        hput ⟨w, by rw [heq]; exact List.mem_append_left _ hw, hwk⟩
      have hlate : LateRevoke (t :: ts) k ↔ (t.put k).isSome ∧ ∃ u ∈ ts, k ∈ u.revokes :=
        ⟨fun h => ((lateRevoke_cons h).resolve_left hno).2, fun h => .head h.1 hnone h.2⟩
      rw [replayed, hrep, Option.none_or, hlate, recovered_cons hnone]
      split
      next hrev =>
        rw [and_iff_left hrev, Option.not_isSome_iff_eq_none]
      next hrev =>
        exact iff_of_true rfl fun hc => hrev hc.2

end Redo

end Drunix.Lib
