import Drunix.Mm.VmaRun

/-!
# How many bytes the areas of a kind have

What the VMA functions do to the size of the areas with given flags and kind
(`bytesOf`): insertion adds the new area, coalescing changes nothing, unmapping takes
away the overlap with the range (`overlapOf`), protecting moves it to other flags. brk
may push the heap over a mapping (`brk_overlaps_mapping`), so the table is only `Tidy`
here: sorted by start, and every area but the heap ends before the next begins.
-/

namespace Drunix.Mm

open Lib

/-- Which areas count, by their flags and kind. -/
abbrev AreaTest := VmaFlags → VmaKind → Bool

variable {f : AreaTest}

/-- The size of an area, if it counts. -/
def countedSize (f : AreaTest) (v : VmArea) : Nat := if f v.flags v.kind then v.stop - v.start else 0

/-- The bytes of a table that count. -/
def bytesOf (f : AreaTest) (l : List VmArea) : Nat := (l.map (countedSize f)).sum

/-- The part of an area inside a range, if it counts. -/
def overlap (f : AreaTest) (start stop : Nat) (v : VmArea) : Nat :=
  if f v.flags v.kind then min stop v.stop - max start v.start else 0

/-- The bytes inside a range that count. -/
def overlapOf (f : AreaTest) (start stop : Nat) (l : List VmArea) : Nat :=
  (l.map (overlap f start stop)).sum

@[simp] theorem bytesOf_nil : bytesOf f [] = 0 := rfl

@[simp] theorem bytesOf_cons (v : VmArea) (l : List VmArea) :
    bytesOf f (v :: l) = countedSize f v + bytesOf f l := by
  simp [bytesOf]

@[simp] theorem bytesOf_append (l r : List VmArea) :
    bytesOf f (l ++ r) = bytesOf f l + bytesOf f r := by
  simp [bytesOf]

@[simp] theorem overlapOf_append (start stop : Nat) (l r : List VmArea) :
    overlapOf f start stop (l ++ r) = overlapOf f start stop l + overlapOf f start stop r := by
  simp [overlapOf]

@[simp] theorem overlapOf_nil (start stop : Nat) : overlapOf f start stop [] = 0 := rfl

@[simp] theorem overlapOf_cons (start stop : Nat) (v : VmArea) (l : List VmArea) :
    overlapOf f start stop (v :: l) = overlap f start stop v + overlapOf f start stop l := by
  simp [overlapOf]

/-- An area outside the range has nothing in it. -/
theorem overlap_eq_zero {start stop : Nat} {v : VmArea} (h : vmaOverlaps v start stop = false) :
    overlap f start stop v = 0 := by
  simp only [vmaOverlaps, decide_eq_false_iff_not] at h
  unfold overlap
  split
  · omega
  · rfl

/-! ## Tidy tables -/

/-- An area by itself: mappings have whole pages, and the stack begins at one. -/
structure Good (v : VmArea) : Prop where
  le : v.start ≤ v.stop
  start : v.kind = .generic ∨ v.kind = .stack → 4096 ∣ v.start
  stop : v.kind = .generic → 4096 ∣ v.stop

/-- An area before another one in the table. -/
def Before (a b : VmArea) : Prop := a.start ≤ b.start ∧ (a.kind = .heap ∨ a.stop ≤ b.start)

structure Tidy (l : List VmArea) : Prop where
  good : ∀ v ∈ l, Good v
  ordered : l.Pairwise Before

theorem Tidy.nil : Tidy [] := ⟨by simp, List.Pairwise.nil⟩

variable {r : List VmArea} {x area : VmArea}

/-- Taking out what is between two parts of the table. -/
theorem Tidy.around {l m : List VmArea} (h : Tidy (l ++ (m ++ r))) : Tidy (l ++ r) := by
  have hs : (l ++ r).Sublist (l ++ (m ++ r)) :=
    (List.Sublist.refl l).append (List.sublist_append_right m r)
  exact ⟨fun v hv => h.good v (hs.subset hv), h.ordered.sublist hs⟩

/-- Putting an area between two parts of the table. -/
theorem Tidy.insert {l : List VmArea} (h : Tidy (l ++ r)) (hx : Good x)
    (hl : ∀ a ∈ l, Before a x) (hr : ∀ b ∈ r, Before x b) : Tidy (l ++ x :: r) where
  good := by
    obtain ⟨h1, h2⟩ := List.forall_mem_append.mp h.good
    exact List.forall_mem_append.mpr ⟨h1, List.forall_mem_cons.mpr ⟨hx, h2⟩⟩
  ordered := pairwise_insert h.ordered hl hr

theorem Tidy.left {l : List VmArea} (h : Tidy (l ++ x :: r)) : ∀ a ∈ l, Before a x := fun a ha =>
  (List.pairwise_append.mp h.ordered).2.2 a ha x List.mem_cons_self

theorem Tidy.right {l : List VmArea} (h : Tidy (l ++ x :: r)) : ∀ b ∈ r, Before x b :=
  (List.pairwise_cons.mp (List.pairwise_append.mp h.ordered).2.1).1

theorem Tidy.mid {l : List VmArea} (h : Tidy (l ++ x :: r)) : Good x :=
  h.good x (by simp)

/-- The start of the heap. -/
def heapStart (l : List VmArea) : Option Nat :=
  l.findSome? fun v => if v.kind = .heap then some v.start else none

theorem heapStart_eq (t : VmTable) : heapStart t.areas = (vmaFindKind t .heap).map (·.start) := by
  unfold heapStart vmaFindKind
  induction t.areas with
  | nil => rfl
  | cons v l ih =>
    rw [List.findSome?_cons, List.find?_cons]
    by_cases hk : v.kind = .heap
    · simp [hk]
    · simpa [hk] using ih

/-! ## Appending -/

/-- What a table is good for, of the parts built and to come: `l' ++ r'` for `l ++ r`. -/
structure Same (before after : List VmArea) : Prop where
  tidy : Tidy after
  bytes : ∀ f : AreaTest, bytesOf f after = bytesOf f before
  overlaps : ∀ (f : AreaTest) (start stop : Nat),
    overlapOf f start stop after = overlapOf f start stop before
  heap : heapStart after = heapStart before

theorem Same.refl {l : List VmArea} (h : Tidy l) : Same l l := ⟨h, fun _ => rfl, fun _ _ _ => rfl, rfl⟩

theorem Same.merges (before : List VmArea) : Merges (Same before) := by
  intro init last area r hc hs
  obtain ⟨hstop, hflags, hkind⟩ := vmaCanMerge_eq hc
  have h := hs.tidy
  have hle := h.mid.le
  have harea := Tidy.mid (l := init ++ [last]) (by simpa using h)
  have hnext := Tidy.right (l := init ++ [last]) (by simpa using h)
  have hle' := harea.le
  refine ⟨?_, fun f => ?_, fun f start stop => ?_, ?_⟩
  · refine (h.around (m := [last, area])).insert ⟨by simp only; omega, h.mid.start, fun hg => ?_⟩
      (fun a ha => h.left a ha) fun b hb => ?_
    · exact harea.stop (hkind ▸ hg)
    · obtain ⟨h1, h2⟩ := hnext b hb
      refine ⟨by simp only; omega, ?_⟩
      rw [← hkind] at h2
      exact h2
  · rw [← hs.bytes]
    simp only [bytesOf_append, bytesOf_cons, countedSize, ← hflags, ← hkind]
    split <;> omega
  · rw [← hs.overlaps]
    simp only [overlapOf_append, overlapOf_cons, overlap, ← hflags, ← hkind]
    split <;> omega
  · rw [← hs.heap]
    simp only [heapStart, List.findSome?_append, List.findSome?_cons, ← hkind]
    by_cases hk : last.kind = .heap <;> simp [hk]

/-! ## Inserting -/

/-- What an insertion has done to a tidy table: nothing, or the area is in it. -/
structure Inserted (area : VmArea) (before after : List VmArea) : Prop where
  tidy : Tidy after
  bytes : ∀ f : AreaTest, bytesOf f after = bytesOf f before + countedSize f area
  overlaps : ∀ (f : AreaTest) (start stop : Nat),
    overlapOf f start stop after = overlapOf f start stop before + overlap f start stop area
  apart : ∀ v ∈ before, vmaOverlaps v area.start area.stop = false
  heap : heapStart after =
    (heapStart before).or (if area.kind = .heap then some area.start else none)

theorem insertSorted_inserted {areas areas' : List VmArea} (h : Tidy areas)
    (hgood : Good area) (hone : area.kind = .heap → heapStart areas = none)
    (hbefore : ∀ v ∈ areas, v.start ≤ area.start → vmaOverlaps v area.start area.stop = false →
      v.stop ≤ area.start)
    (hs : insertSorted area areas = some areas') : Inserted area areas areas' := by
  obtain ⟨l, r, rfl, rfl, hl, hr⟩ := insertSorted_split (fun v hv => (h.good v hv).le)
    (h.ordered.imp And.left) hs
  refine ⟨h.insert hgood (fun a ha => ?_) fun b hb => ⟨(hr b hb).1, .inr (hr b hb).2⟩,
    fun f => ?_, fun f start stop => ?_, fun v hv => ?_, ?_⟩
  · obtain ⟨hstart, hno⟩ := hl a ha
    exact ⟨hstart, .inr (hbefore a (List.mem_append_left r ha) hstart hno)⟩
  · simp only [bytesOf_append, bytesOf_cons]
    omega
  · simp only [overlapOf_append, overlapOf_cons]
    omega
  · rcases List.mem_append.mp hv with hv | hv
    · exact (hl v hv).2
    · have := (hr v hv).2
      simp only [vmaOverlaps, decide_eq_false_iff_not]
      omega
  · by_cases hk : area.kind = .heap
    · have hnone := hone hk
      simp only [heapStart, List.findSome?_append, Option.or_eq_none_iff] at hnone ⊢
      simp [hnone, hk]
    · simp [heapStart, List.findSome?_append, hk]

/-- `vma_insert_area`. -/
theorem vmaInsertArea_inserted (k : Kmalloc) {t : VmTable} {area : VmArea} (h : Tidy t.areas)
    (hgood : area.start ≤ area.stop → Good area)
    (hone : area.kind = .heap → heapStart t.areas = none)
    (hbefore : area.start ≤ area.stop → ∀ v ∈ t.areas, v.start ≤ area.start →
      vmaOverlaps v area.start area.stop = false → v.stop ≤ area.start) :
    ((vmaInsertArea k t area).1 = 0 ∧ area.start ≤ area.stop ∧
      Inserted area t.areas (vmaInsertArea k t area).2.areas) ∨
    ((vmaInsertArea k t area).1 ≠ 0 ∧ (vmaInsertArea k t area).2.areas = t.areas) := by
  unfold vmaInsertArea
  split
  · exact .inr ⟨by simp, rfl⟩
  next hle =>
  have hle : area.start ≤ area.stop := by omega
  split
  · exact .inr ⟨by simp, rfl⟩
  next t' ht' =>
  have hareas := vmaEnsureCapacity_areas ht'
  split
  · exact .inr ⟨by simp, hareas⟩
  next areas hi =>
  rw [hareas] at hi
  have hins := insertSorted_inserted h (hgood hle) hone (hbefore hle) hi
  have hsame := (Same.merges _).coalesce (Same.refl hins.tidy)
  exact .inl ⟨rfl, hle, hsame.tidy, fun f => (hsame.bytes f).trans (hins.bytes f),
    fun f start stop => (hsame.overlaps f start stop).trans (hins.overlaps f start stop),
    hins.apart, hsame.heap.trans hins.heap⟩

/-! ## Unmapping and protecting -/

theorem overlapOf_eq_zero {start stop : Nat} {l : List VmArea}
    (h : ∀ v ∈ l, vmaOverlaps v start stop = false) : overlapOf f start stop l = 0 := by
  induction l with
  | nil => rfl
  | cons v l ih =>
    rw [overlapOf_cons, overlap_eq_zero (h v List.mem_cons_self),
      ih fun w hw => h w (List.mem_cons_of_mem v hw)]

section Pieces

variable {start stop cap : Nat} {new : Option VmaFlags} {vs l l' : List VmArea} {v p : VmArea}

/-- A piece of a mapping has whole pages, as the range has. -/
theorem areaPieces_good (hlt : start < stop) (ha : 4096 ∣ start) (hb : 4096 ∣ stop) (hv : Good v)
    (hgen : vmaOverlaps v start stop = true → v.kind = .generic)
    (hp : p ∈ areaPieces start stop new v) : Good p := by
  obtain ⟨-, hle, -, hkind⟩ := areaPieces_mem hlt hv.le hp
  unfold areaPieces at hp
  split at hp
  next hov =>
    have hs := hv.start (.inl (hgen hov))
    have he := hv.stop (hgen hov)
    have hmax : 4096 ∣ max start v.start := by
      rw [Nat.max_def]
      split <;> assumption
    have hmin : 4096 ∣ min stop v.stop := by
      rw [Nat.min_def]
      split <;> assumption
    simp only [List.mem_append, List.mem_map] at hp
    rcases hp with hp | ⟨flags, -, rfl⟩ | hp
    · obtain rfl := List.mem_singleton.mp (List.mem_ite_nil_right.mp hp).2
      exact ⟨hle, fun _ => hs, fun _ => hmax⟩
    · exact ⟨hle, fun _ => hmax, fun _ => hmin⟩
    · obtain rfl := List.mem_singleton.mp (List.mem_ite_nil_right.mp hp).2
      exact ⟨hle, fun _ => hmin, fun _ => he⟩
  · exact List.mem_singleton.mp hp ▸ hv

theorem Tidy.pieces (hlt : start < stop) (ha : 4096 ∣ start) (hb : 4096 ∣ stop) (h : Tidy vs)
    (hgen : ∀ v ∈ vs, vmaOverlaps v start stop = true → v.kind = .generic) :
    Tidy (vs.flatMap (areaPieces start stop new)) where
  good p hp := by
    obtain ⟨v, hv, hp⟩ := List.mem_flatMap.mp hp
    exact areaPieces_good hlt ha hb (h.good v hv) (hgen v hv) hp
  ordered := by
    refine List.pairwise_flatMap.mpr ⟨fun v hv => ?_, h.ordered.imp_of_mem ?_⟩
    · refine (areaPieces_pairwise hlt (h.good v hv).le).imp_of_mem fun {p q} hp _ hpq => ?_
      have := areaPieces_mem hlt (h.good v hv).le hp
      exact ⟨by omega, .inr hpq⟩
    · intro v w hv hw hvw p hp q hq
      have hpm := areaPieces_mem hlt (h.good v hv).le hp
      have hqm := areaPieces_mem hlt (h.good w hw).le hq
      obtain ⟨hstart, hor⟩ := hvw
      rcases hor with hheap | hle
      · -- the heap is not touched
        unfold areaPieces at hp
        rw [if_neg fun hov => by simp [hgen v hv hov] at hheap] at hp
        obtain rfl := List.mem_singleton.mp hp
        exact ⟨by omega, .inl hheap⟩
      · exact ⟨by omega, .inr (by omega)⟩

theorem heapStart_pieces (hgen : ∀ v ∈ vs, vmaOverlaps v start stop = true → v.kind = .generic) :
    heapStart (vs.flatMap (areaPieces start stop new)) = heapStart vs := by
  unfold heapStart
  induction vs with
  | nil => rfl
  | cons v vs ih =>
    rw [List.flatMap_cons, List.findSome?_append, List.findSome?_cons,
      ih fun w hw => hgen w (List.mem_cons_of_mem v hw)]
    by_cases hov : vmaOverlaps v start stop = true
    · have hkind := hgen v List.mem_cons_self hov
      have hnone : (areaPieces start stop new v).findSome?
          (fun v => if v.kind = .heap then some v.start else none) = none := by
        unfold areaPieces
        rw [if_pos hov]
        simp [vmaSlice, hkind]
      rw [hnone, if_neg (by simp [hkind])]
      rfl
    · unfold areaPieces
      rw [if_neg hov]
      by_cases hk : v.kind = .heap <;> simp [hk]

/-- What is inside the range counts by its new flags, or not at all. -/
def newOverlap (f : AreaTest) (start stop : Nat) (new : Option VmaFlags) (l : List VmArea) : Nat :=
  match new with
  | none => 0
  | some new => overlapOf (fun flags kind => f (vmaReplaceProtFlags flags new) kind) start stop l

/-- What is left of an area has its size without the overlap. -/
theorem countedSize_pieces (f : AreaTest) (hlt : start < stop) (hv : v.start ≤ v.stop)
    (hov : vmaOverlaps v start stop = true) :
    countedSize f (vmaSlice v v.start (max start v.start)) +
        countedSize f (vmaSlice v (min stop v.stop) v.stop) + overlap f start stop v =
      countedSize f v := by
  simp only [vmaOverlaps, decide_eq_true_eq] at hov
  simp only [countedSize, overlap, vmaSlice]
  by_cases hf : f v.flags v.kind = true
  · simp only [hf, if_true]
    omega
  · simp only [hf]
    rfl

theorem bytesOf_ite {f : AreaTest} {c : Prop} [Decidable c] (h : ¬ c → p.stop ≤ p.start) :
    bytesOf f (if c then [p] else []) = countedSize f p := by
  split
  · simp
  next hc => simp [countedSize, Nat.sub_eq_zero_of_le (h hc)]

theorem bytesOf_pieces (f : AreaTest) (hlt : start < stop) (hwf : ∀ v ∈ vs, v.start ≤ v.stop) :
    bytesOf f (vs.flatMap (areaPieces start stop new)) + overlapOf f start stop vs =
      bytesOf f vs + newOverlap f start stop new vs := by
  induction vs with
  | nil => cases new <;> rfl
  | cons v vs ih =>
    have hrest := ih fun w hw => hwf w (List.mem_cons_of_mem v hw)
    have hv := hwf v List.mem_cons_self
    rw [List.flatMap_cons, bytesOf_append, bytesOf_cons, overlapOf_cons]
    have hone : bytesOf f (areaPieces start stop new v) + overlap f start stop v =
        countedSize f v + newOverlap f start stop new [v] := by
      unfold areaPieces
      split
      next hov =>
        have hpieces := countedSize_pieces f hlt hv hov
        rw [bytesOf_append, bytesOf_append, bytesOf_ite (by simp only [vmaSlice]; omega),
          bytesOf_ite (by simp only [vmaSlice]; omega)]
        have hmid : bytesOf f (new.toList.map fun flags =>
            { vmaSlice v (max start v.start) (min stop v.stop) with
              flags := vmaReplaceProtFlags v.flags flags }) = newOverlap f start stop new [v] := by
          cases new <;> rfl
        omega
      next hov =>
        have hov : vmaOverlaps v start stop = false := by simpa using hov
        cases new <;> simp [newOverlap, overlap_eq_zero hov, bytesOf_cons]
    have hsum : newOverlap f start stop new (v :: vs) =
        newOverlap f start stop new [v] + newOverlap f start stop new vs := by
      cases new <;> simp [newOverlap]
    omega

/-- A call that rebuilds the table: what is inside the range is gone or has the new flags, or
nothing has changed. -/
theorem Rebuilds.spec {k : Kmalloc} {t : VmTable} {ok : Prop} {r : Int × VmTable}
    (hr : Rebuilds k t (start < stop ∧ ok) (t.areas.flatMap (areaPieces start stop new)) r)
    (hgen : ok → ∀ v ∈ t.areas, vmaOverlaps v start stop = true → v.kind = .generic)
    (h : Tidy t.areas) (ha : 4096 ∣ start) (hb : 4096 ∣ stop) :
    (r.1 = 0 ∧ Tidy r.2.areas ∧ (∀ f, bytesOf f r.2.areas + overlapOf f start stop t.areas =
        bytesOf f t.areas + newOverlap f start stop new t.areas) ∧
      heapStart r.2.areas = heapStart t.areas) ∨ (r.1 ≠ 0 ∧ r.2.areas = t.areas) := by
  rcases hr with ⟨hrc, hsame, -⟩ | ⟨⟨hlt, hok⟩, hrc, -, _, -, hr⟩
  · exact .inr ⟨by rw [hrc]; decide, hsame⟩
  · have hsame := (Same.merges _).appendAll (Same.refl (h.pieces hlt ha hb (hgen hok))) hr
    refine .inl ⟨hrc, hsame.tidy, fun f => ?_, hsame.heap.trans (heapStart_pieces (hgen hok))⟩
    rw [hsame.bytes]
    exact bytesOf_pieces f hlt fun v hv => (h.good v hv).le

end Pieces

/-! ## The sums of `mem.c` -/

/-- Mappings are disjoint, so they have no more bytes in a range than the range. -/
theorem overlapOf_le_range (hf : ∀ flags kind, f flags kind = true → kind = .generic)
    {start stop : Nat} {l : List VmArea} (h : Tidy l) {lo : Nat}
    (hlo : ∀ v ∈ l, f v.flags v.kind = true → lo ≤ v.start) :
    overlapOf f start stop l ≤ stop - max start lo := by
  induction l generalizing lo with
  | nil => exact Nat.zero_le _
  | cons v l ih =>
    have htail : Tidy l := Tidy.around (l := []) (m := [v]) h
    rw [overlapOf_cons]
    by_cases hv : f v.flags v.kind = true
    · have hnext : ∀ w ∈ l, f w.flags w.kind = true → v.stop ≤ w.start := fun w hw _ =>
        ((List.pairwise_cons.mp h.ordered).1 w hw).2.resolve_left
          (by rw [hf _ _ hv]; decide)
      have hrest := ih htail hnext
      have hstart := hlo v List.mem_cons_self hv
      have hle := (h.good v List.mem_cons_self).le
      unfold overlap
      rw [if_pos hv]
      omega
    · have hrest := ih htail fun w hw => hlo w (List.mem_cons_of_mem v hw)
      unfold overlap
      rw [if_neg hv]
      omega

/-- The sums of `mem.c` do not saturate on ranges below 4 GiB. -/
theorem overlapBytes_eq {counts : VmArea → Bool} (hc : ∀ v, counts v = f v.flags v.kind)
    {start stop acc : Nat} {l : List VmArea}
    (h : acc + overlapOf f start stop l ≤ 0xFFFFFFFF) :
    overlapBytes counts start stop l acc = acc + overlapOf f start stop l := by
  induction l generalizing acc with
  | nil => rfl
  | cons v l ih =>
    unfold overlapBytes
    rw [overlapOf_cons] at h ⊢
    split
    · next hskip =>
      have hzero : overlap f start stop v = 0 := by
        simp only [hc, Bool.or_eq_true, Bool.not_eq_true', decide_eq_true_eq] at hskip
        unfold overlap
        split
        · next hf =>
          rw [hf] at hskip
          rcases hskip with (hskip | hskip) | hskip
          · cases hskip
          · omega
          · omega
        · rfl
      rw [hzero, Nat.zero_add] at h ⊢
      exact ih h
    · next hcount =>
      have hov : overlap f start stop v = min stop v.stop - max start v.start := by
        simp only [hc, Bool.or_eq_true, Bool.not_eq_true', not_or] at hcount
        unfold overlap
        rw [if_pos (by simpa using hcount.1.1)]
      rw [hov] at h ⊢
      rw [if_neg (by omega), ih (by omega)]
      omega

end Drunix.Mm
