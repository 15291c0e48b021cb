import Drunix.Lib.Extents
import Drunix.Lib.Loop
import Drunix.Mm.Mem

/-!
# The VMA calls keep the table sorted

The table is a list of disjoint extents (`Lib.Extents`), and every function of
`vma.c` keeps it one: insertion checks for overlap, unmap and protect rebuild the
table piece by piece. brk alone writes the heap area's end in place. It keeps the
order exactly when the new break stays below the next area
(`syscallCaseBrk_sorted_iff`).

`VmaRun` has the runs.
-/

namespace Drunix.Mm

open Lib

/-- The table's invariant. -/
abbrev VmaSorted (l : List VmArea) : Prop := Extents VmArea.start VmArea.stop l

variable {k : Kmalloc} {newBrk : Nat} {area : VmArea} {t : VmTable}

variable {areas areas' : List VmArea} {brk hint needed : Nat} {p' : Proc} {ok : Prop}

/-! ## Appending -/

theorem vmaCanMerge_eq {l r : VmArea} (h : vmaCanMerge l r = true) :
    l.stop = r.start ∧ l.flags = r.flags ∧ l.kind = r.kind := by
  unfold vmaCanMerge at h
  split at h
  · cases h
  · simp only [decide_eq_true_eq] at h
    exact ⟨h.1, h.2.1, h.2.2.1⟩

/-- What holds of a table holds when an area is taken into the one before it. -/
def Merges (P : List VmArea → Prop) : Prop :=
  ∀ init last area r, vmaCanMerge last area = true → P (init ++ last :: area :: r) →
    P (init ++ { last with stop := area.stop } :: r)

section Merges

variable {P : List VmArea → Prop} (hP : Merges P) {l l' r vs : List VmArea}

include hP

theorem Merges.mergeLast (h : P (l ++ area :: r)) (hm : mergeLast l area = some l') :
    P (l' ++ r) := by
  unfold Mm.mergeLast at hm
  split at hm
  · cases hm
  next last hlast =>
  split at hm
  next hc =>
    cases hm
    obtain ⟨init, rfl⟩ := List.getLast?_eq_some_iff.mp hlast
    rw [List.dropLast_concat, List.append_assoc]
    exact hP init last area r hc (by simpa using h)
  · cases hm

/-- `vma_coalesce`. -/
theorem Merges.coalesce (h : P areas) : P (vmaCoalesce areas) := by
  suffices ∀ (areas out : List VmArea), P (out ++ areas) →
      P (areas.foldl (fun out v => (Mm.mergeLast out v).getD (out ++ [v])) out) from this areas [] h
  intro areas
  induction areas with
  | nil =>
    intro out h
    rwa [List.append_nil] at h
  | cons v vs ih =>
    intro out h
    rw [List.foldl_cons]
    cases hm : Mm.mergeLast out v with
    | some l => exact ih l (hP.mergeLast h hm)
    | none => exact ih (out ++ [v]) (by simpa using h)

/-- Appending areas to a table is as good as having them there. -/
theorem Merges.appendAll {cap : Nat} (h : P (l ++ vs))
    (hr : vs.foldlM (vmaAppendArea cap) l = some l') : P l' := by
  induction vs generalizing l with
  | nil =>
    cases hr
    rwa [List.append_nil] at h
  | cons v vs ih =>
    obtain ⟨l1, h1, h2⟩ := Option.bind_eq_some_iff.mp hr
    refine ih ?_ h2
    unfold vmaAppendArea at h1
    split at h1
    · cases h1
    split at h1
    next hm =>
      cases h1
      exact hP.mergeLast h hm
    split at h1
    · cases h1
    · cases h1
      simpa using h

end Merges

theorem vmaSorted_merges : Merges VmaSorted := by
  intro init last area r hc h
  have hstop := (vmaCanMerge_eq hc).1
  have hlast := h.wf last (by simp)
  have harea := h.wf area (by simp)
  have hsplit : VmaSorted ((init ++ [last]) ++ area :: r) := by simpa using h
  have hrest : VmaSorted (init ++ last :: r) := by simpa using hsplit.remove
  refine (hrest.setEnd_iff (y := { last with stop := area.stop }) rfl
    (by simp only; omega)).mpr ?_
  exact (List.pairwise_cons.mp (List.pairwise_append.mp hsplit.ordered).2.1).1

/-! ## Inserting -/

/-- An insertion that succeeds puts the area into a gap. -/
theorem insertSorted_split (hwf : ∀ v ∈ areas, v.start ≤ v.stop)
    (hmono : areas.Pairwise fun a b => a.start ≤ b.start)
    (hs : insertSorted area areas = some areas') :
    ∃ l r, areas = l ++ r ∧ areas' = l ++ area :: r ∧
      (∀ v ∈ l, v.start ≤ area.start ∧ vmaOverlaps v area.start area.stop = false) ∧
      ∀ v ∈ r, area.start ≤ v.start ∧ area.stop ≤ v.start := by
  induction areas generalizing areas' with
  | nil =>
    cases hs
    exact ⟨[], [], rfl, rfl, by simp, by simp⟩
  | cons v vs ih =>
    obtain ⟨hv, hvs⟩ := List.pairwise_cons.mp hmono
    obtain ⟨hle, hwf⟩ := List.forall_mem_cons.mp hwf
    unfold insertSorted at hs
    split at hs
    · next hstart =>
      split at hs
      · cases hs
      next hno =>
      obtain ⟨rest, hrest, rfl⟩ := Option.map_eq_some_iff.mp hs
      obtain ⟨l, r, rfl, rfl, hl, hr⟩ := ih hwf hvs hrest
      exact ⟨v :: l, r, rfl, rfl,
        List.forall_mem_cons.mpr ⟨⟨hstart, by simpa using hno⟩, hl⟩, hr⟩
    · next hstart =>
      split at hs
      · cases hs
      next hno =>
      cases hs
      -- `v` begins behind the start of the area, and so behind its end
      have hstop : area.stop ≤ v.start := by
        simp only [vmaOverlaps, decide_eq_true_eq, not_and, Nat.not_lt] at hno
        exact hno (by omega)
      refine ⟨[], v :: vs, rfl, rfl, by simp, List.forall_mem_cons.mpr ⟨⟨by omega, hstop⟩, ?_⟩⟩
      intro a ha
      have := hv a ha
      exact ⟨by omega, by omega⟩

/-- An area that does not begin inside an earlier one goes into a gap. -/
theorem insertSorted_sorted (h : VmaSorted areas) (hle : area.start ≤ area.stop)
    (hbefore : ∀ v ∈ areas, v.start ≤ area.start → vmaOverlaps v area.start area.stop = false →
      v.stop ≤ area.start) (hs : insertSorted area areas = some areas') : VmaSorted areas' := by
  obtain ⟨l, r, rfl, rfl, hl, hr⟩ := insertSorted_split h.wf
    (h.ordered.imp_of_mem fun ha _ hab => (h.wf _ ha).trans hab) hs
  exact h.insert hle (fun a ha => hbefore a (List.mem_append_left r ha) (hl a ha).1 (hl a ha).2)
    fun b hb => (hr b hb).2

variable {n length : Nat} {heap : VmArea}

theorem vmaEnsureCapacity_areas {t' : VmTable}
    (h : vmaEnsureCapacity k t n = some t') : t'.areas = t.areas := by
  unfold vmaEnsureCapacity at h
  split at h
  · split at h
    · exact (Option.some.inj h) ▸ rfl
    · cases h
  · split at h
    · exact (Option.some.inj h) ▸ rfl
    · split at h
      · cases h
      · split at h
        · exact (Option.some.inj h) ▸ rfl
        · cases h

/-- `vma_insert_area`, whatever it returns. -/
theorem vmaInsertArea_sorted (k : Kmalloc) (area : VmArea) (h : VmaSorted t.areas)
    (hbefore : area.start ≤ area.stop → ∀ v ∈ t.areas, v.start ≤ area.start → vmaOverlaps v area.start area.stop = false →
      v.stop ≤ area.start) : VmaSorted (vmaInsertArea k t area).2.areas := by
  unfold vmaInsertArea
  split
  · exact h
  next hle =>
  split
  · exact h
  next t' ht' =>
    have hareas := vmaEnsureCapacity_areas ht'
    split
    · rw [hareas]; exact h
    next areas hi =>
      rw [hareas] at hi
      have hle : area.start ≤ area.stop := by omega
      exact vmaSorted_merges.coalesce (insertSorted_sorted h hle (hbefore hle) hi)

/-- A nonempty area that overlaps nothing does not begin inside anything. -/
theorem stop_le_of_no_overlap {v : VmArea} (hne : area.start < area.stop)
    (hv : v.start ≤ area.start) (hno : vmaOverlaps v area.start area.stop = false) :
    v.stop ≤ area.start := by
  simp only [vmaOverlaps, decide_eq_false_iff_not, not_and, Nat.not_lt] at hno
  by_contra hc
  omega

/-- The areas mmap inserts have a page or more. -/
theorem mapped_nonempty {start : Nat} (hlen : vmPageAlignUp length ≠ 0)
    (hle : start ≤ u32 (start + vmPageAlignUp length)) :
    start < u32 (start + vmPageAlignUp length) := by
  have hlt : vmPageAlignUp length < 4294967296 := by
    unfold vmPageAlignUp
    split <;> omega
  unfold u32 at *
  omega

theorem vmaFindTopdownGap_length {start : Nat}
    (h : vmaFindTopdownGap t brk hint length = some start) : vmPageAlignUp length ≠ 0 := by
  unfold vmaFindTopdownGap at h
  split at h
  · cases h
  · dsimp only at h
    split at h
    · cases h
    next hne => exact hne

theorem vmaMapAnonymous_sorted (k : Kmalloc) (brk hint length : Nat)
    (flags : VmaFlags) (h : VmaSorted t.areas) : VmaSorted (vmaMapAnonymous k t brk hint length flags).2.areas := by
  unfold vmaMapAnonymous
  split
  · exact h
  next start hgap =>
    have hadd := vmaInsertArea_sorted k
      { start, stop := u32 (start + vmPageAlignUp length), flags, kind := .generic } h
      fun hle v _ hv hno => stop_le_of_no_overlap
        (mapped_nonempty (vmaFindTopdownGap_length hgap) hle) hv hno
    dsimp only
    split <;> exact hadd

theorem vmaMapFilePrivate_sorted
    {flags : VmaFlags} {mountId inodeNum fileOffset fileSize : Nat} (h : VmaSorted t.areas) :
    VmaSorted (vmaMapFilePrivate k t brk hint length flags mountId inodeNum fileOffset
      fileSize).2.areas := by
  unfold vmaMapFilePrivate
  split
  · exact h
  next start hgap =>
    have hadd := vmaInsertArea_sorted k
      { start, stop := u32 (start + vmPageAlignUp length), flags, kind := .generic,
        fileOffset, fileSize, mountId, inodeNum } h
      fun hle v _ hv hno => stop_le_of_no_overlap
        (mapped_nonempty (vmaFindTopdownGap_length hgap) hle) hv hno
    dsimp only
    split <;> exact hadd

/-! ## Unmapping and protecting -/

/-- What becomes of an area: the parts on either side of the range stay, the part inside is
gone or has the new protection. -/
def areaPieces (start stop : Nat) (new : Option VmaFlags) (v : VmArea) : List VmArea :=
  if vmaOverlaps v start stop then
    (if v.start < max start v.start then [vmaSlice v v.start (max start v.start)] else []) ++
      (new.toList.map (fun flags => { vmaSlice v (max start v.start) (min stop v.stop) with
        flags := vmaReplaceProtFlags v.flags flags }) ++
      if min stop v.stop < v.stop then [vmaSlice v (min stop v.stop) v.stop] else [])
  else [v]

section Pieces

variable {start stop cap : Nat} {new : Option VmaFlags} {vs l l' : List VmArea} {v p : VmArea}

/-- The second pass of `vma_unmap_range` appends the pieces. -/
theorem unmapRebuild_eq : unmapRebuild start stop cap vs l =
    (vs.flatMap (areaPieces start stop none)).foldlM (vmaAppendArea cap) l := by
  induction vs generalizing l with
  | nil => rfl
  | cons v vs ih =>
    rw [List.flatMap_cons, List.foldlM_append]
    generalize vs.flatMap (areaPieces start stop none) = rest at ih ⊢
    unfold unmapRebuild areaPieces
    cases vmaOverlaps v start stop with
    | false => simp [ih, Option.bind_eq_bind]
    | true =>
      by_cases hl : v.start < max start v.start <;> by_cases hr : min stop v.stop < v.stop <;>
        simp [ih, hl, hr, Option.bind_eq_bind]

/-- The first pass counts them, and refuses other kinds. -/
theorem unmapCount_eq_some : unmapCount start stop vs n = some needed ↔
    (∀ v ∈ vs, vmaOverlaps v start stop = true → v.kind = .generic) ∧
      needed = n + (vs.flatMap (areaPieces start stop none)).length := by
  induction vs generalizing n with
  | nil => exact ⟨fun h => ⟨by simp, (Option.some.inj h).symm⟩, fun h => congrArg some h.2.symm⟩
  | cons v vs ih =>
    rw [List.flatMap_cons, List.length_append, List.forall_mem_cons]
    generalize vs.flatMap (areaPieces start stop none) = rest at ih ⊢
    unfold unmapCount areaPieces
    cases vmaOverlaps v start stop with
    | false => simp [ih, Nat.add_assoc]
    | true =>
      by_cases hk : v.kind = .generic
      · by_cases hl : v.start < max start v.start <;> by_cases hr : min stop v.stop < v.stop <;>
          simp [ih, hk, hl, hr, Nat.add_assoc]
      · simp [hk]

/-- The two passes of `vma_protect_range`, where the first accepts. -/
theorem protectRebuild_eq {cursor : Nat} (cap : Nat) (l : List VmArea) (flags : VmaFlags)
    (h : protectCount start stop vs cursor n = some needed) :
    (∀ v ∈ vs, vmaOverlaps v start stop = true → v.kind = .generic) ∧
      needed = n + (vs.flatMap (areaPieces start stop (some flags))).length ∧
      protectRebuild start stop cap flags vs cursor l =
        (vs.flatMap (areaPieces start stop (some flags))).foldlM (vmaAppendArea cap) l := by
  induction vs generalizing n cursor l with
  | nil =>
    unfold protectCount at h
    split at h
    · cases h
    · exact ⟨by simp, (Option.some.inj h).symm, rfl⟩
  | cons v vs ih =>
    rw [List.flatMap_cons, List.length_append, List.foldlM_append, List.forall_mem_cons]
    generalize vs.flatMap (areaPieces start stop (some flags)) = rest at ih ⊢
    unfold protectCount at h
    unfold protectRebuild areaPieces
    cases hov : vmaOverlaps v start stop with
    | false =>
      rw [hov] at h
      obtain ⟨hgen, hlen, -⟩ := ih l h
      refine ⟨⟨by simp, hgen⟩, by simp [hlen, Nat.add_assoc], ?_⟩
      simp [Option.bind_eq_bind, fun l => (ih l h).2.2]
    | true =>
      rw [hov] at h
      simp only [Bool.not_true, Bool.false_eq_true, if_false] at h
      split at h
      · cases h
      next hk =>
      split at h
      · cases h
      next hc =>
      obtain ⟨hgen, hlen, -⟩ := ih l h
      refine ⟨⟨fun _ => not_not.mp hk, hgen⟩, ?_, ?_⟩
      · by_cases hl : v.start < max start v.start <;> by_cases hr : min stop v.stop < v.stop <;>
          simp [hlen, hl, hr, Nat.add_comm, Nat.add_left_comm]
      · have hrest := fun l => (ih l h).2.2
        simp only [Bool.not_true, Bool.false_eq_true, if_false, if_neg hc]
        by_cases hl : v.start < max start v.start <;> by_cases hr : min stop v.stop < v.stop <;>
          simp [hrest, hl, hr, Option.bind_eq_bind, Option.bind_assoc]

/-- The pieces of an area lie in it and are of its kind. -/
theorem areaPieces_mem (hlt : start < stop) (hv : v.start ≤ v.stop)
    (hp : p ∈ areaPieces start stop new v) :
    v.start ≤ p.start ∧ p.start ≤ p.stop ∧ p.stop ≤ v.stop ∧ p.kind = v.kind := by
  unfold areaPieces at hp
  split at hp
  next hov =>
    simp only [vmaOverlaps, decide_eq_true_eq] at hov
    simp only [List.mem_append, List.mem_map] at hp
    rcases hp with hp | ⟨flags, -, rfl⟩ | hp
    · split at hp
      · obtain rfl := List.mem_singleton.mp hp
        exact ⟨Nat.le_refl _, by simp only [vmaSlice]; omega, by simp only [vmaSlice]; omega, rfl⟩
      · cases hp
    · exact ⟨by simp only [vmaSlice]; omega, by simp only [vmaSlice]; omega,
        by simp only [vmaSlice]; omega, rfl⟩
    · split at hp
      · obtain rfl := List.mem_singleton.mp hp
        exact ⟨by simp only [vmaSlice]; omega, by simp only [vmaSlice]; omega, Nat.le_refl _, rfl⟩
      · cases hp
  · obtain rfl := List.mem_singleton.mp hp
    exact ⟨Nat.le_refl _, hv, Nat.le_refl _, rfl⟩

theorem areaPieces_pairwise (hlt : start < stop) (hv : v.start ≤ v.stop) :
    (areaPieces start stop new v).Pairwise fun a b => a.stop ≤ b.start := by
  unfold areaPieces
  split
  next hov =>
    simp only [vmaOverlaps, decide_eq_true_eq] at hov
    have hmid : max start v.start ≤ min stop v.stop :=
      max_le (le_min hlt.le hov.1.le) (le_min hov.2.le hv)
    cases new <;> by_cases hl : v.start < max start v.start <;>
      by_cases hr : min stop v.stop < v.stop <;> simp [hl, hr, vmaSlice] <;> omega
  · exact List.pairwise_singleton ..

theorem flatMap_pieces_sorted (hlt : start < stop) (h : VmaSorted vs) :
    VmaSorted (vs.flatMap (areaPieces start stop new)) where
  wf p hp := by
    obtain ⟨v, hv, hp⟩ := List.mem_flatMap.mp hp
    exact (areaPieces_mem hlt (h.wf v hv) hp).2.1
  ordered := by
    refine List.pairwise_flatMap.mpr ⟨fun v hv => areaPieces_pairwise hlt (h.wf v hv), ?_⟩
    refine h.ordered.imp_of_mem fun {v w} hv hw hvw p hp q hq => ?_
    have := areaPieces_mem hlt (h.wf v hv) hp
    have := areaPieces_mem hlt (h.wf w hw) hq
    omega

theorem rebuilt_sorted (hlt : start < stop) (h : VmaSorted vs)
    (hr : (vs.flatMap (areaPieces start stop new)).foldlM (vmaAppendArea cap) [] = some l') :
    VmaSorted l' :=
  vmaSorted_merges.appendAll (flatMap_pieces_sorted hlt h) hr

end Pieces

/-- An allocation for a table of `needed` entries fails. -/
def OutOfMemory (k : Kmalloc) (t : VmTable) (needed : Nat) : Prop :=
  vmaEnsureCapacity k t needed = none ∨ k.rebuild = false

/-- A call that rebuilds the table from its pieces where `ok`, and else leaves it. -/
def Rebuilds (k : Kmalloc) (t : VmTable) (ok : Prop) (pieces : List VmArea) (r : Int × VmTable) :
    Prop :=
  (r.1 = -1 ∧ r.2.areas = t.areas ∧ (ok → OutOfMemory k t pieces.length ∨
    ∃ t', vmaEnsureCapacity k t pieces.length = some t' ∧
      pieces.foldlM (vmaAppendArea t'.capacity) [] = none)) ∨
  (ok ∧ r.1 = 0 ∧ ¬ OutOfMemory k t pieces.length ∧
    ∃ t', vmaEnsureCapacity k t pieces.length = some t' ∧
      pieces.foldlM (vmaAppendArea t'.capacity) [] = some r.2.areas)

/-- Both calls count the entries, make room for them, and rebuild. -/
theorem Rebuilds.twoPass {pieces : List VmArea}
    {count : Option Nat} {rebuild : VmTable → Option (List VmArea)}
    (hcount : ∀ n, count = some n ↔ ok ∧ n = pieces.length)
    (hrebuild : ok → ∀ t', t'.areas = t.areas →
      rebuild t' = pieces.foldlM (vmaAppendArea t'.capacity) []) :
    Rebuilds k t ok pieces (match count with
      | none => (-1, t)
      | some needed =>
        match vmaEnsureCapacity k t needed with
        | none => (-1, t)
        | some t =>
          if !k.rebuild then (-1, t)
          else
            match rebuild t with
            | none => (-1, t)
            | some areas => (0, { t with areas })) := by
  cases hc : count with
  | none =>
    refine .inl ⟨rfl, rfl, fun hok => ?_⟩
    exact absurd (hc.symm.trans ((hcount _).mpr ⟨hok, rfl⟩)) (by simp)
  | some needed =>
  obtain ⟨hok, rfl⟩ := (hcount needed).mp hc
  dsimp only
  cases ht : vmaEnsureCapacity k t pieces.length with
  | none => exact .inl ⟨rfl, rfl, fun _ => .inl (.inl ht)⟩
  | some t' =>
  have hareas := vmaEnsureCapacity_areas ht
  dsimp only
  cases hk : k.rebuild with
  | false => exact .inl ⟨rfl, hareas, fun _ => .inl (.inr hk)⟩
  | true =>
  have heq := hrebuild hok t' hareas
  cases hl : rebuild t' with
  | none => exact .inl ⟨rfl, hareas, fun _ => .inr ⟨t', ht, heq.symm.trans hl⟩⟩
  | some l =>
    refine .inr ⟨hok, rfl, ?_, t', ht, heq.symm.trans hl⟩
    rintro (hno | hno)
    · exact absurd (ht.symm.trans hno) (by simp)
    · exact absurd (hk.symm.trans hno) (by simp)

theorem vmaUnmapRange_rebuilds (k : Kmalloc) (t : VmTable) (start stop : Nat) :
    Rebuilds k t (start < stop ∧ ∀ v ∈ t.areas, vmaOverlaps v start stop = true → v.kind = .generic)
      (t.areas.flatMap (areaPieces start stop none)) (vmaUnmapRange k t start stop) := by
  unfold vmaUnmapRange
  split
  next hge => exact .inl ⟨rfl, rfl, fun hok => absurd hok.1 (Nat.not_lt.mpr hge)⟩
  next hlt =>
    refine Rebuilds.twoPass (fun n => ?_) fun _ t' ht' => ht' ▸ unmapRebuild_eq
    rw [unmapCount_eq_some, Nat.zero_add, and_iff_right (Nat.not_le.mp hlt)]

theorem vmaProtectRange_rebuilds (k : Kmalloc) (t : VmTable) (start stop : Nat) (new : VmaFlags) :
    Rebuilds k t (start < stop ∧ ∃ needed, protectCount start stop t.areas start 0 = some needed)
      (t.areas.flatMap (areaPieces start stop (some new))) (vmaProtectRange k t start stop new) := by
  unfold vmaProtectRange
  split
  next hge => exact .inl ⟨rfl, rfl, fun hok => absurd hok.1 (Nat.not_lt.mpr hge)⟩
  next hlt =>
  have hlen : ∀ n, protectCount start stop t.areas start 0 = some n →
      n = (t.areas.flatMap (areaPieces start stop (some new))).length := fun n hn =>
    ((protectRebuild_eq 0 [] new hn).2.1).trans (Nat.zero_add _)
  refine Rebuilds.twoPass (fun n => ⟨fun hn => ?_, ?_⟩) fun ⟨_, n, hn⟩ t' ht' => ?_
  · exact ⟨⟨Nat.not_le.mp hlt, n, hn⟩, hlen n hn⟩
  · rintro ⟨⟨-, m, hm⟩, rfl⟩
    rwa [← hlen m hm]
  · rw [ht']
    exact (protectRebuild_eq _ _ new hn).2.2

theorem Rebuilds.sorted {start stop : Nat}
    {new : Option VmaFlags} {r : Int × VmTable} (h : VmaSorted t.areas)
    (hr : Rebuilds k t (start < stop ∧ ok) (t.areas.flatMap (areaPieces start stop new)) r) :
    VmaSorted r.2.areas := by
  rcases hr with ⟨-, hsame, -⟩ | ⟨hok, -, -, t', -, hl⟩
  · rwa [hsame]
  · exact rebuilt_sorted hok.1 h hl

theorem vmaUnmapRange_sorted (k : Kmalloc) (start stop : Nat)
    (h : VmaSorted t.areas) : VmaSorted (vmaUnmapRange k t start stop).2.areas :=
  (vmaUnmapRange_rebuilds k t start stop).sorted h

theorem vmaProtectRange_sorted (k : Kmalloc) (start stop : Nat) (new : VmaFlags)
    (h : VmaSorted t.areas) : VmaSorted (vmaProtectRange k t start stop new).2.areas :=
  (vmaProtectRange_rebuilds k t start stop new).sorted h

/-! ## The calls -/

theorem vmCommitReserve_vmas {s : Phys} {p : Proc} {bytes : Nat}
    (h : vmCommitReserve s p bytes = some p') : p'.vmas = p.vmas := by
  obtain ⟨_, rfl⟩ := vmCommitReserve_some h
  rfl

@[simp] theorem vmCommitRelease_vmas (p : Proc) (bytes : Nat) :
    (vmCommitRelease p bytes).vmas = p.vmas := by
  unfold vmCommitRelease
  split <;> rfl

/-- The areas behind the heap area. -/
def aboveHeap (l : List VmArea) : List VmArea := (l.dropWhile fun v => v.kind ≠ .heap).tail

/-- The heap area is the first of its kind. -/
theorem setHeapEnd_split (hk : heap.kind = .heap)
    {before after : List VmArea} (hb : ∀ a ∈ before, ¬ a.kind = .heap) :
    setHeapEnd newBrk (before ++ heap :: after) =
      before ++ { heap with stop := newBrk } :: after := by
  induction before with
  | nil => simp [setHeapEnd, hk]
  | cons a before ih =>
    simp only [List.cons_append, setHeapEnd]
    rw [if_neg (hb a (by simp)), ih fun c hc => hb c (by simp [hc])]

/-- Moving the heap's end keeps the table sorted exactly if it stays below the
areas behind the heap. -/
theorem setHeapEnd_sorted_iff {l : List VmArea} (h : VmaSorted l)
    (hf : l.find? (fun v => v.kind = .heap) = some heap) (hle : heap.start ≤ newBrk) :
    VmaSorted (setHeapEnd newBrk l) ↔ ∀ b ∈ aboveHeap l, newBrk ≤ b.start := by
  obtain ⟨hk, before, after, rfl, hb⟩ := List.find?_eq_some_iff_append.mp hf
  simp only [decide_eq_true_eq] at hk
  have habove : ∀ before : List VmArea, (∀ a ∈ before, ¬ a.kind = .heap) →
      aboveHeap (before ++ heap :: after) = after := by
    intro before hb
    unfold aboveHeap
    rw [List.dropWhile_append_of_pos (by simpa using hb)]
    simp [hk]
  have hb' : ∀ a ∈ before, ¬ a.kind = .heap := by simpa using hb
  rw [setHeapEnd_split hk hb', habove before hb']
  exact h.setEnd_iff rfl hle

theorem brkReserve_vmas {s : Phys} {p : Proc}
    (h : brkReserve s p heap newBrk = some p') : p'.vmas = p.vmas := by
  unfold brkReserve at h
  split at h
  · dsimp only at h
    split at h
    · cases h
    · split at h
      · cases h
      · split at h
        · exact vmCommitReserve_vmas h
        · exact (Option.some.inj h) ▸ rfl
  · exact (Option.some.inj h) ▸ rfl

/-- A break that brk accepts stays below the areas behind the heap. -/
def BrkOk (s : Phys) (p : Proc) (newBrk : Nat) : Prop :=
  ∀ heap p', vmaFindKind p.vmas .heap = some heap → newBrk ≠ 0 → heap.start ≤ newBrk →
    newBrk ≤ userStackBase → brkReserve s p heap newBrk = some p' →
    ∀ b ∈ aboveHeap p.vmas.areas, newBrk ≤ b.start

/-- brk keeps the table sorted exactly under that condition. -/
theorem syscallCaseBrk_sorted_iff {s : Phys} {p : Proc} (h : VmaSorted p.vmas.areas) :
    VmaSorted (syscallCaseBrk s p newBrk).2.2.vmas.areas ↔ BrkOk s p newBrk := by
  unfold syscallCaseBrk BrkOk
  cases hf : vmaFindKind p.vmas .heap with
  | none => simp [h]
  | some heap =>
    dsimp only
    by_cases h0 : newBrk = 0
    · simp [h0, h]
    · rw [if_neg h0]
      by_cases hrange : newBrk < heap.start ∨ newBrk > userStackBase
      · rw [if_pos hrange]
        refine iff_of_true h fun heap' p' hh _ hge hle => ?_
        cases hh
        omega
      · rw [if_neg hrange]
        have hge : heap.start ≤ newBrk := by omega
        cases hr : brkReserve s p heap newBrk with
        | none =>
          refine iff_of_true h fun heap' p' hh _ _ _ hr' => ?_
          cases hh
          rw [hr] at hr'
          cases hr'
        | some p' =>
          have hv := brkReserve_vmas hr
          have hareas : ∀ q : Proc, q.vmas = p.vmas →
              (VmaSorted (setHeapEnd newBrk q.vmas.areas) ↔
                ∀ b ∈ aboveHeap p.vmas.areas, newBrk ≤ b.start) := by
            intro q hq
            rw [hq]
            exact setHeapEnd_sorted_iff h hf hge
          have hall : (∀ b ∈ aboveHeap p.vmas.areas, newBrk ≤ b.start) ↔
              ∀ heap' p'', some heap = some heap' → newBrk ≠ 0 → heap'.start ≤ newBrk →
                newBrk ≤ userStackBase → brkReserve s p heap' newBrk = some p'' →
                ∀ b ∈ aboveHeap p.vmas.areas, newBrk ≤ b.start :=
            ⟨fun hb _ _ _ _ _ _ _ => hb, fun hb => hb heap p' rfl h0 hge (by omega) hr⟩
          rw [← hall]
          dsimp only
          split
          · exact hareas _ (by rw [vmCommitRelease_vmas, hv])
          · exact hareas _ hv

/-- What holds after each kind of mapping holds after mmap. -/
theorem mmapRequest_rule {P : Proc → Prop} {env : MmapEnv} {s : Phys} {p : Proc} (hp : P p)
    (hanon : ∀ hint length prot, P (syscallMmapAnonymousPrivate env s p hint length prot).2)
    (hdevice : ∀ hint length prot mapOne,
      P (mmapDevice env s p hint (mapLen length) prot mapOne).2.2)
    (hfile : ∀ hint length flags mountId inodeNum offset size, flags.anon = false →
      P { p with vmas := (vmaMapFilePrivate env.kmalloc p.vmas p.brk hint length flags mountId
        inodeNum offset size).2 })
    (addr length prot flags fd : Nat) (offset : Option Nat) :
    P (mmapRequest env s p addr length prot flags fd offset).2.2 := by
  unfold mmapRequest
  split
  · exact hp
  split
  · split
    · exact hp
    · exact hanon addr length prot
  split
  · exact hp
  split
  · exact hp
  split
  · split
    · exact hp
    show P (syscallMmapWmdev env s p _ _ _ _ _).2.2
    unfold syscallMmapWmdev
    split
    · exact hp
    split
    · exact hp
    dsimp only
    split
    · exact hp
    · exact hdevice ..
  · split
    · exact hp
    show P (syscallMmapChardev env s p _ _ _ _ _).2.2
    unfold syscallMmapChardev
    split
    · exact hp
    split
    · exact hp
    split
    · exact hp
    dsimp only
    split
    · exact hp
    split
    · exact hp
    split
    · exact hp
    · exact hdevice ..
  · split
    · exact hp
    show P (syscallMmapPrivateFile env p _ _ _ _ _).2
    unfold syscallMmapPrivateFile
    split
    · exact hp
    split
    · dsimp only
      split
      · exact hp
      split
      · exact hp
      · exact hfile _ _ _ _ _ _ _ rfl
    · exact hp

section Calls

variable {s : Phys} {p : Proc} (h : VmaSorted p.vmas.areas)

include h

theorem mmapAnonymous_sorted (env : MmapEnv) (hint length prot : Nat) :
    VmaSorted (syscallMmapAnonymousPrivate env s p hint length prot).2.vmas.areas := by
  unfold syscallMmapAnonymousPrivate
  dsimp only
  split
  · exact h
  next p' hp' =>
  have hv : p'.vmas = p.vmas := by
    split at hp'
    · exact vmCommitReserve_vmas hp'
    · exact (Option.some.inj hp') ▸ rfl
  have hm := vmaMapAnonymous_sorted env.kmalloc p'.brk hint length (protToVmaFlags prot)
    (hv ▸ h : VmaSorted p'.vmas.areas)
  split
  next addr vmas he => rw [he] at hm; exact hm
  next vmas he =>
    rw [he] at hm
    split
    · rw [vmCommitRelease_vmas]; exact hm
    · exact hm

theorem mmapDevice_sorted (env : MmapEnv) (hint len prot : Nat)
    (mapOne : Nat → Nat → Phys → Bool × Phys) :
    VmaSorted (mmapDevice env s p hint len prot mapOne).2.2.vmas.areas := by
  unfold mmapDevice
  dsimp only
  have hm := vmaMapAnonymous_sorted env.kmalloc p.brk hint len
    { protToVmaFlags prot with anon := false } h
  split
  next vmas he => rw [he] at hm; exact hm
  next addr vmas he =>
    rw [he] at hm
    split
    · exact hm
    · exact vmaUnmapRange_sorted _ _ _ hm

theorem mmapRequest_sorted (env : MmapEnv) (addr length prot flags fd : Nat) (offset : Option Nat) :
    VmaSorted (mmapRequest env s p addr length prot flags fd offset).2.2.vmas.areas :=
  mmapRequest_rule (P := fun q => VmaSorted q.vmas.areas) h (mmapAnonymous_sorted h env)
    (fun _ _ => mmapDevice_sorted h env _ _) (fun _ _ _ _ _ _ _ _ => vmaMapFilePrivate_sorted h) ..

theorem syscallCaseMunmap_sorted (k : Kmalloc) (addr len : Nat) :
    VmaSorted (syscallCaseMunmap k s p addr len).2.2.vmas.areas := by
  unfold syscallCaseMunmap
  split
  · exact h
  dsimp only
  split
  · exact h
  have hu := vmaUnmapRange_sorted k addr (u32 (addr + mapLen len)) h
  split
  · exact hu
  · rw [vmCommitRelease_vmas]; exact hu

theorem syscallCaseMprotect_sorted (k : Kmalloc) (addr len prot : Nat) :
    VmaSorted (syscallCaseMprotect k s p addr len prot).2.2.vmas.areas := by
  unfold syscallCaseMprotect
  split
  · exact h
  dsimp only
  split
  · exact h
  split
  · exact h
  split
  · exact h
  next p' hp' =>
  have hv : p'.vmas = p.vmas := by
    split at hp'
    · exact vmCommitReserve_vmas hp'
    · exact (Option.some.inj hp') ▸ rfl
  have hp := vmaProtectRange_sorted k addr (u32 (addr + mapLen len)) (protToVmaFlags prot)
    (hv ▸ h : VmaSorted p'.vmas.areas)
  split
  · split
    · rw [vmCommitRelease_vmas]; exact hp
    · exact hp
  · split
    · rw [vmCommitRelease_vmas]; exact hp
    · exact hp

end Calls

end Drunix.Mm
