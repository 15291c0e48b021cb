import Mathlib

/-!
# Intrusive doubly linked lists

Nodes carry their own `prev` and `next` pointers; head and tail are kept beside
them. The operations read and write pointers in the order the usual C code does,
on any contents, well formed or not.

`DList.In` says that pointers do not lead out of a given set of nodes. It is all
that is needed to follow them safely. `DList.Spells` says which list they form.
-/

namespace Drunix.Lib

open Function

variable {α : Type}

/-- The pointers of a list over nodes `α`. -/
structure DList (α : Type) where
  head : Option α
  tail : Option α
  prev : α → Option α
  next : α → Option α

namespace DList

variable [DecidableEq α]

/-- Unlink a node. -/
def detach (d : DList α) (s : α) : DList α :=
  let d := match d.prev s with
    | some p => { d with next := update d.next p (d.next s) }
    | none => { d with head := d.next s }
  let d := match d.next s with
    | some n => { d with prev := update d.prev n (d.prev s) }
    | none => { d with tail := d.prev s }
  { d with prev := update d.prev s none, next := update d.next s none }

/-- Link an unlinked node in front. -/
def pushFront (d : DList α) (s : α) : DList α :=
  let d := { d with prev := update d.prev s none, next := update d.next s d.head }
  let d := match d.head with
    | some h => { d with prev := update d.prev h (some s) }
    | none => d
  { d with head := some s, tail := if d.tail.isNone then some s else d.tail }

/-- Link an unlinked node at the end. -/
def pushBack (d : DList α) (s : α) : DList α :=
  let d := { d with prev := update d.prev s d.tail, next := update d.next s none }
  let d := match d.tail with
    | some t => { d with next := update d.next t (some s) }
    | none => d
  { d with tail := some s, head := if d.head.isNone then some s else d.head }

/-- Every pointer of a node of `S`, and the list's own, leads into `S`. -/
structure In (S : α → Prop) (d : DList α) : Prop where
  head : ∀ a, d.head = some a → S a
  tail : ∀ a, d.tail = some a → S a
  prev : ∀ x, S x → ∀ a, d.prev x = some a → S a
  next : ∀ x, S x → ∀ a, d.next x = some a → S a

variable {S S' : α → Prop} {d : DList α} {s : α}

omit [DecidableEq α] in
/-- Setting one pointer, seen from a larger set of nodes. -/
theorem update_in [DecidableEq α] {S : α → Prop} {f : α → Option α} {y : α} {v : Option α}
    (h : ∀ x, S x → x ≠ y → ∀ a, f x = some a → S a) (hv : ∀ a, v = some a → S a) :
    ∀ x, S x → ∀ a, update f y v x = some a → S a := by
  intro x hS a hx
  by_cases hxy : x = y
  · subst hxy
    rw [update_self] at hx
    exact hv a hx
  · rw [update_of_ne hxy] at hx
    exact h x hS hxy a hx

theorem In.detach (h : In S d) (hs : S s) : In S (d.detach s) := by
  have hnone : ∀ a, (none : Option α) = some a → S a := nofun
  -- the node's neighbours are joined, one pointer at a time
  have h1 : In S (match d.prev s with
      | some p => { d with next := update d.next p (d.next s) }
      | none => { d with head := d.next s }) := by
    split
    · exact ⟨h.head, h.tail, h.prev, update_in (fun x hx _ => h.next x hx) (h.next s hs)⟩
    · exact ⟨h.next s hs, h.tail, h.prev, h.next⟩
  unfold DList.detach
  generalize (match d.prev s with
      | some p => { d with next := update d.next p (d.next s) }
      | none => { d with head := d.next s }) = e at h1 ⊢
  have h2 : In S (match e.next s with
      | some n => { e with prev := update e.prev n (e.prev s) }
      | none => { e with tail := e.prev s }) := by
    split
    · exact ⟨h1.head, h1.tail, update_in (fun x hx _ => h1.prev x hx) (h1.prev s hs), h1.next⟩
    · exact ⟨h1.head, h1.prev s hs, h1.prev, h1.next⟩
  exact ⟨h2.head, h2.tail, update_in (fun x hx _ => h2.prev x hx) hnone,
    update_in (fun x hx _ => h2.next x hx) hnone⟩

/-- A node joins in front, from inside or outside the set. -/
theorem In.pushFront (h : In S d) (hsub : ∀ x, S x → S' x) (hs : S' s)
    (hnew : ∀ x, S' x → x ≠ s → S x) : In S' (d.pushFront s) := by
  have hsome : ∀ a, some s = some a → S' a := fun a ha => Option.some.inj ha ▸ hs
  have hprev := update_in (v := none)
    (fun x hx hne a ha => hsub a (h.prev x (hnew x hx hne) a ha)) nofun
  have hnext := update_in
    (fun x hx hne a ha => hsub a (h.next x (hnew x hx hne) a ha)) fun a ha => hsub a (h.head a ha)
  have htail : ∀ a, (if d.tail.isNone then some s else d.tail) = some a → S' a := by
    intro a ha
    split at ha
    · exact hsome a ha
    · exact hsub a (h.tail a ha)
  unfold DList.pushFront
  cases hd : d.head with
  | some h =>
    rw [hd] at hnext
    exact ⟨hsome, htail, update_in (fun x hx _ => hprev x hx) hsome, hnext⟩
  | none =>
    rw [hd] at hnext
    exact ⟨hsome, htail, hprev, hnext⟩

theorem In.pushBack (h : In S d) (hs : S s) : In S (d.pushBack s) := by
  have hsome : ∀ a, some s = some a → S a := fun a ha => Option.some.inj ha ▸ hs
  have hprev := update_in (y := s) (fun x hx _ => h.prev x hx) h.tail
  have hnext := update_in (y := s) (v := none) (fun x hx _ => h.next x hx)
    nofun
  have hhead : ∀ a, (if d.head.isNone then some s else d.head) = some a → S a := by
    intro a ha
    split at ha
    · exact hsome a ha
    · exact h.head a ha
  unfold DList.pushBack
  cases hd : d.tail with
  | some t =>
    rw [hd] at hprev
    exact ⟨hhead, hsome, hprev, update_in (fun x hx _ => hnext x hx) hsome⟩
  | none =>
    rw [hd] at hprev
    exact ⟨hhead, hsome, hprev, hnext⟩

theorem pushFront_tail (d : DList α) (s : α) : ((d.pushFront s).tail).isSome = true := by
  unfold DList.pushFront
  cases d.head <;> cases h : d.tail <;> simp

/-! ## The list the pointers form -/

/-- From the head on, the nodes are those of `l`. -/
structure Spells (d : DList α) (l : List α) : Prop where
  head : d.head = l.head?
  tail : d.tail = l.getLast?
  nodup : l.Nodup
  node : ∀ pre x suf, l = pre ++ x :: suf → d.prev x = pre.getLast? ∧ d.next x = suf.head?

/-- The nodes met from `c` on toward the head, `n` at most. -/
def toHead (d : DList α) : Nat → Option α → List α
  | 0, _ => []
  | _, none => []
  | n + 1, some c => c :: d.toHead n (d.prev c)

variable {l pre suf : List α}

omit [DecidableEq α] in
theorem Spells.toHead_eq (h : d.Spells (pre ++ suf)) :
    d.toHead pre.length pre.getLast? = pre.reverse := by
  induction pre using List.reverseRecOn generalizing suf with
  | nil => rfl
  | append_singleton pre c ih =>
    rw [List.append_assoc] at h
    obtain ⟨hprev, -⟩ := h.node pre c suf rfl
    rw [List.length_append, List.getLast?_concat, List.reverse_concat, ← ih h, ← hprev]
    rfl

omit [DecidableEq α] in
/-- A node of `pre ++ suf` is in `pre` or in `suf`. -/
theorem split_cases {x : α} {pre' suf' : List α} (h : pre ++ suf = pre' ++ x :: suf') :
    (∃ mid, pre' = pre ++ mid ∧ suf = mid ++ x :: suf') ∨
      ∃ mid, pre = pre' ++ x :: mid ∧ suf' = mid ++ suf := by
  rcases List.append_eq_append_iff.mp h with ⟨mid, hpre, hsuf⟩ | ⟨mid, hpre, hsuf⟩
  · exact .inl ⟨mid, hpre, hsuf⟩
  · cases mid with
    | nil => exact .inl ⟨[], by simpa using hpre.symm, by simpa using hsuf.symm⟩
    | cons y mid =>
      obtain ⟨rfl, rfl⟩ := List.cons.inj hsuf
      exact .inr ⟨mid, hpre, rfl⟩

theorem detach_eq (hs : d.prev s ≠ some s) :
    (d.detach s).head = (if d.prev s = none then d.next s else d.head) ∧
    (d.detach s).tail = (if d.next s = none then d.prev s else d.tail) ∧
    (∀ x ≠ s, (d.detach s).prev x = if d.next s = some x then d.prev s else d.prev x) ∧
    ∀ x ≠ s, (d.detach s).next x = if d.prev s = some x then d.next s else d.next x := by
  unfold DList.detach
  dsimp only
  cases hp : d.prev s with
  | none =>
    cases hn : d.next s <;> dsimp only <;>
      refine ⟨by simp, by simp [hp], fun x hx => ?_, fun x hx => ?_⟩ <;>
      simp [update_apply, hx, hp, eq_comm]
  | some p =>
    have hps : s ≠ p := fun hc => hs (by rw [hp, hc])
    cases hn : d.next s <;> dsimp only <;> rw [update_of_ne hps, hn] <;>
      refine ⟨by simp, by simp [hp], fun x hx => ?_, fun x hx => ?_⟩ <;>
      simp [update_apply, hx, hp, eq_comm]

/-- A node leaves the list, its neighbours are joined. -/
theorem Spells.detach (h : d.Spells (pre ++ s :: suf)) : (d.detach s).Spells (pre ++ suf) := by
  obtain ⟨hprev, hnext⟩ := h.node pre s suf rfl
  obtain ⟨hnpre, hnsuf, hdis⟩ := List.nodup_append.mp h.nodup
  obtain ⟨hs, hnsuf⟩ := List.nodup_cons.mp hnsuf
  have hspre : s ∉ pre := fun hc => hdis s hc s List.mem_cons_self rfl
  have hdis' : ∀ x ∈ pre, x ∉ suf := fun x hx hc => hdis x hx x (List.mem_cons_of_mem s hc) rfl
  have hself : d.prev s ≠ some s := by
    rw [hprev]
    exact fun hc => hspre (List.mem_of_getLast? hc)
  obtain ⟨hhead, htail, hp, hn⟩ := detach_eq hself
  rw [hprev, hnext] at hhead htail
  refine ⟨?_, ?_, ?_, fun pre' x suf' hsplit => ?_⟩
  · rw [hhead, h.head]
    cases pre <;> simp
  · rw [htail, h.tail]
    cases suf with
    | nil => simp
    | cons y suf =>
      rw [if_neg (by simp)]
      simp [List.getLast?_cons]
  · refine List.nodup_append.mpr ⟨hnpre, hnsuf, fun x hx y hy hc => ?_⟩
    exact hdis' x hx (hc ▸ hy)
  · rcases split_cases hsplit with ⟨mid, rfl, rfl⟩ | ⟨mid, rfl, rfl⟩
    · -- a node behind: only the first one has a new neighbour
      obtain ⟨hxp, hxn⟩ := h.node (pre ++ s :: mid) x suf' (by simp)
      have hxs : x ≠ s := fun hc => hs (by simp [hc])
      have hxpre : pre.getLast? ≠ some x := fun hc =>
        hdis' x (List.mem_of_getLast? hc) (by simp)
      rw [hp x hxs, hn x hxs, hprev, hnext, hxp, hxn, if_neg hxpre]
      refine ⟨?_, rfl⟩
      cases mid with
      | nil => simp
      | cons y mid =>
        have hxy : y ≠ x := fun hc => by
          rw [hc] at hnsuf
          simp at hnsuf
        rw [List.cons_append, List.head?_cons, if_neg (by simpa using hxy)]
        simp [List.getLast?_cons]
    · -- a node in front: only the last one
      obtain ⟨hxp, hxn⟩ := h.node pre' x (mid ++ s :: suf) (by simp)
      have hxs : x ≠ s := fun hc => hspre (by simp [hc])
      have hxsuf : suf.head? ≠ some x := fun hc =>
        hdis' x (by simp) (List.mem_of_head? hc)
      rw [hp x hxs, hn x hxs, hprev, hnext, hxp, hxn, if_neg hxsuf]
      refine ⟨rfl, ?_⟩
      cases mid using List.reverseRecOn with
      | nil => simp
      | append_singleton mid y =>
        have hxy : y ≠ x := fun hc => by
          rw [hc] at hnpre
          simp [List.nodup_append] at hnpre
        rw [if_neg]
        · cases mid <;> simp
        · rw [← List.cons_append, ← List.append_assoc, List.getLast?_concat]
          simpa using hxy

theorem pushFront_eq (d : DList α) (s : α) : (d.pushFront s).head = some s ∧
    (d.pushFront s).tail = (if d.tail = none then some s else d.tail) ∧
    (∀ x, (d.pushFront s).prev x =
      if d.head = some x then some s else if x = s then none else d.prev x) ∧
    ∀ x, (d.pushFront s).next x = if x = s then d.head else d.next x := by
  unfold DList.pushFront
  cases hh : d.head <;>
    refine ⟨rfl, by cases d.tail <;> simp, fun x => ?_, fun x => ?_⟩ <;>
    simp [update_apply, eq_comm]

/-- A node joins in front. -/
theorem Spells.pushFront (h : d.Spells l) (hs : s ∉ l) : (d.pushFront s).Spells (s :: l) := by
  obtain ⟨hhead, htail, hp, hn⟩ := pushFront_eq d s
  refine ⟨hhead, ?_, List.nodup_cons.mpr ⟨hs, h.nodup⟩, fun pre x suf hsplit => ?_⟩
  · rw [htail, h.tail]
    cases l using List.reverseRecOn <;> simp [List.getLast?_cons]
  · rw [hp, hn, h.head]
    cases pre with
    | nil =>
      obtain ⟨rfl, rfl⟩ := List.cons.inj hsplit
      rw [if_neg fun hc => hs (List.mem_of_head? hc), if_pos rfl, if_pos rfl]
      exact ⟨rfl, rfl⟩
    | cons y pre =>
      obtain ⟨rfl, rfl⟩ := List.cons.inj hsplit
      have hxs : x ≠ s := fun hc => hs (by simp [hc])
      obtain ⟨hxp, hxn⟩ := h.node pre x suf rfl
      rw [if_neg hxs, if_neg hxs, hxp, hxn]
      refine ⟨?_, rfl⟩
      cases pre with
      | nil => simp
      | cons z pre =>
        have hxz : z ≠ x := fun hc => by
          have := h.nodup
          rw [hc] at this
          simp at this
        rw [if_neg (by simpa using hxz), List.getLast?_cons_cons]

theorem pushBack_eq (d : DList α) (s : α) : (d.pushBack s).tail = some s ∧
    (d.pushBack s).head = (if d.head = none then some s else d.head) ∧
    (∀ x, (d.pushBack s).next x =
      if d.tail = some x then some s else if x = s then none else d.next x) ∧
    ∀ x, (d.pushBack s).prev x = if x = s then d.tail else d.prev x := by
  unfold DList.pushBack
  cases hh : d.tail <;>
    refine ⟨rfl, by cases d.head <;> simp, fun x => ?_, fun x => ?_⟩ <;>
    simp [update_apply, eq_comm]

/-- A node joins at the end. -/
theorem Spells.pushBack (h : d.Spells l) (hs : s ∉ l) : (d.pushBack s).Spells (l ++ [s]) := by
  obtain ⟨htail, hhead, hn, hp⟩ := pushBack_eq d s
  have hnodup : (l ++ [s]).Nodup := by
    refine List.nodup_append.mpr ⟨h.nodup, by simp, fun x hx y hy hc => ?_⟩
    exact hs (List.mem_singleton.mp hy ▸ hc ▸ hx)
  refine ⟨?_, by rw [htail, List.getLast?_concat], hnodup, fun pre x suf hsplit => ?_⟩
  · rw [hhead, h.head]
    cases l <;> simp
  · rw [hp, hn, h.tail]
    rcases split_cases hsplit with ⟨mid, rfl, hmid⟩ | ⟨mid, rfl, rfl⟩
    · cases mid with
      | nil =>
        obtain ⟨rfl, rfl⟩ := List.cons.inj hmid
        rw [if_neg fun hc => hs (List.mem_of_getLast? hc), if_pos rfl, if_pos rfl, List.append_nil]
        exact ⟨rfl, rfl⟩
      | cons y mid => simp at hmid
    · have hxs : x ≠ s := fun hc => hs (by simp [hc])
      obtain ⟨hxp, hxn⟩ := h.node pre x mid rfl
      rw [if_neg hxs, if_neg hxs, hxp, hxn]
      refine ⟨rfl, ?_⟩
      cases mid using List.reverseRecOn with
      | nil => simp
      | append_singleton mid z =>
        have hxz : z ≠ x := fun hc => by
          have := h.nodup
          rw [hc] at this
          simp [List.nodup_append] at this
        rw [if_neg]
        · cases mid <;> simp
        · rw [← List.cons_append, ← List.append_assoc, List.getLast?_concat]
          simpa using hxz

end DList

end Drunix.Lib
