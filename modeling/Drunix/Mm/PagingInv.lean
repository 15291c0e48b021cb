import Drunix.Lib.Count
import Drunix.Mm.Paging

/-!
# Who owns which page table

The accounting behind the paging code. A set `live` of user page directories is
in use, over a fixed set `K` of kernel tables (the kernel page directory and the
page tables it points to). Every use of a frame is a place in memory:

- a user PTE that maps it without `PG_IO` (`mapsAt`, through `userPte`),
- a PDE with `PG_USER` that points to it as a page table (`tableAt`),
- membership in `live` or `K`.

`PagingInv` says the frame allocator's count covers them: `uses f + X f ≤ rc f`
unless the count is stuck at `0xFF`, where `X` are references held by code in
flight. Page tables and directories are counted exactly once, and that is where
the isolation comes from: a table with count one has one owner
(`PagingInv.table_sole`), and a frame fresh from the allocator has none
(`PagingInv.alloc`).

The lemmas at the end are about the counts: what taking a frame, a reference
on it, and giving one back does to the invariant. `PagingEdit` has those about
stores into the tables.
-/

namespace Drunix.Mm

open Lib Function

/-! ## Reading through a store -/

@[simp] theorem Phys.setEntry_pmm (s : Phys) (p i : Nat) (e : Entry) : (s.setEntry p i e).pmm = s.pmm :=
  rfl

theorem Phys.setEntry_mem (s : Phys) (p i q j : Nat) (e : Entry) :
    (s.setEntry p i e).mem q j = if q = p ∧ j = i then e else s.mem q j := by
  unfold Phys.setEntry
  by_cases hq : q = p
  · subst hq
    by_cases hj : j = i
    · subst hj; simp
    · simp [hj]
  · simp [hq]

theorem Phys.setEntry_self (s : Phys) (p i : Nat) : s.setEntry p i (s.mem p i) = s := by
  unfold Phys.setEntry
  rw [update_eq_self, update_eq_self]

variable {p g f : Nat} {X' : Nat → Nat} {s' : Phys}

theorem Phys.setEntry_mem_page {s : Phys} {i q : Nat} (e : Entry) (h : q ≠ p) :
    (s.setEntry p i e).mem q = s.mem q := by
  exact update_of_ne h _ _

theorem Phys.setTable_mem (s : Phys) (p q : Nat) (f : Nat → Entry) :
    (s.setTable p f).mem q = if q = p then f else s.mem q := by
  unfold Phys.setTable
  by_cases hq : q = p
  · subst hq; simp
  · simp [hq]

@[simp] theorem pmmFreePage_mem (s : Phys) (f : Nat) : (pmmFreePage s f).mem = s.mem := rfl

/-! ## Uses of a frame -/

/-- The entry indices of a table. -/
@[irreducible] def idx : Finset Nat := Finset.range 1024

/-- A user PTE that holds a reference on frame `f`. -/
def Entry.holds (e : Entry) (f : Nat) : Bool := e.userPresent && (!e.io && decide (e.addr = f))

/-- What a PTE shows to the user. -/
def Entry.view (e : Entry) : Option Entry := if e.userPresent then some e else none

/-- What the user sees at the PTE slot `(pd, pdi, pti)`: its entry, if that and
the PDE before it are present with `PG_USER`. -/
def userPte (s : Phys) (x : Nat × Nat × Nat) : Option Entry :=
  if (s.mem x.1 x.2.1).userPresent then (s.mem (s.mem x.1 x.2.1).addr x.2.2).view else none

/-- The PTE slot `(pd, pdi, pti)` is reached through a user PDE and holds `f`. -/
def mapsAt (s : Phys) (f : Nat) (x : Nat × Nat × Nat) : Bool :=
  (s.mem x.1 x.2.1).userPresent && (s.mem (s.mem x.1 x.2.1).addr x.2.2).holds f

theorem mapsAt_eq_any (s : Phys) (f : Nat) (x : Nat × Nat × Nat) :
    mapsAt s f x = (userPte s x).any fun e => e.holds f := by
  unfold mapsAt userPte Entry.view
  cases (s.mem x.1 x.2.1).userPresent with
  | false => rfl
  | true =>
    cases hu : (s.mem (s.mem x.1 x.2.1).addr x.2.2).userPresent with
    | false => simp [hu, Entry.holds]
    | true => simp

theorem mapsAt_eq {s : Phys} {x : Nat × Nat × Nat} (h : userPte s' x = userPte s x) (f : Nat) :
    mapsAt s' f x = mapsAt s f x := by
  rw [mapsAt_eq_any, h, mapsAt_eq_any]

/-- A slot shows the same if its PDE and the page table behind it are the same. -/
theorem userPte_eq {s : Phys} {q k l : Nat} (hpd : s'.mem q k = s.mem q k)
    (hpt : (s.mem q k).userPresent = true → s'.mem (s.mem q k).addr = s.mem (s.mem q k).addr) :
    userPte s' (q, k, l) = userPte s (q, k, l) := by
  unfold userPte
  simp only [hpd]
  cases hu : (s.mem q k).userPresent with
  | false => rfl
  | true => rw [hpt hu]

/-- The PDE slot `(pd, pdi)` points to the user page table `t`. -/
def tableAt (s : Phys) (t : Nat) (x : Nat × Nat) : Bool :=
  (s.mem x.1 x.2).userPresent && decide ((s.mem x.1 x.2).addr = t)

/-- All PTE slots of the page directories in `live`. -/
def slots (live : Finset Nat) : Finset (Nat × Nat × Nat) := live ×ˢ (idx ×ˢ idx)

theorem mem_slots {live : Finset Nat} {x : Nat × Nat × Nat} :
    x ∈ slots live ↔ x.1 ∈ live ∧ x.2.1 < 1024 ∧ x.2.2 < 1024 := by
  simp [slots, idx]

/-- How often frame `f` is used. -/
def uses (K live : Finset Nat) (s : Phys) (f : Nat) : Nat :=
  count (slots live) (mapsAt s f) + count (live ×ˢ idx) (tableAt s f)
    + (if f ∈ live then 1 else 0) + (if f ∈ K then 1 else 0)

/-- The reference count of the frame at address `f`. -/
def rcOf (s : Phys) (f : Nat) : Nat := s.pmm.refcounts (f / pageSize)

/-- `f` is the address of a frame the allocator manages. -/
def IsPage (s : Phys) (f : Nat) : Prop := f % pageSize = 0 ∧ f / pageSize < s.pmm.maxPages

/-- The ownership invariant of the paging structures. -/
structure PagingInv (K live : Finset Nat) (X : Nat → Nat) (s : Phys) : Prop where
  pmm : PmmInv s.pmm
  max : s.pmm.maxPages ≤ 0x40000
  zero : s.pmm.refcounts 0 = 255
  kdir : pageDirAddr ∈ K
  kpde : ∀ i < 1024, (s.mem pageDirAddr i).present = true → (s.mem pageDirAddr i).addr ∈ K
  kern : ∀ k ∈ K, ∀ j < 1024, (s.mem k j).userPresent = false
  pd : ∀ p ∈ live, IsPage s p ∧ rcOf s p = 1
  userPde : ∀ p ∈ live, ∀ i < 1024, (s.mem p i).userPresent = true →
    IsPage s (s.mem p i).addr ∧ rcOf s (s.mem p i).addr = 1
  kernPde : ∀ p ∈ live, ∀ i < 1024, (s.mem p i).present = true → (s.mem p i).user = false →
    (s.mem p i).addr ∈ K
  frame : ∀ f x, x ∈ slots live → mapsAt s f x = true → IsPage s f
  acct : ∀ f, f % pageSize = 0 → uses K live s f + X f ≤ rcOf s f ∨ rcOf s f = 255

section Ownership

variable {K live : Finset Nat} {X : Nat → Nat} {s : Phys}

section

variable (h : PagingInv K live X s)

include h

theorem PagingInv.live_physPtr (hp : IsPage s p) : physPtr p = true := by
  have hm := h.max
  obtain ⟨-, hlt⟩ := hp
  have : p < 0x40000000 := by unfold pageSize at hlt; omega
  simp [physPtr, this]

theorem PagingInv.ne_zero (hp : rcOf s p = 1) : p ≠ 0 := by
  rintro rfl
  have hz := h.zero
  unfold rcOf at hp
  rw [Nat.zero_div, hz] at hp
  cases hp

/-- A page directory in use is nothing else. -/
theorem PagingInv.live_sole (hp : p ∈ live) :
    p ∉ K ∧ X p = 0 ∧ (∀ x ∈ slots live, mapsAt s p x = false) ∧
      ∀ q ∈ live, ∀ i < 1024, (s.mem q i).userPresent = true → (s.mem q i).addr ≠ p := by
  obtain ⟨hpage, hrc⟩ := h.pd p hp
  have hacct : uses K live s p + X p ≤ 1 := by
    rcases h.acct p hpage.1 with ha | ha <;> omega
  unfold uses at hacct
  rw [if_pos hp] at hacct
  refine ⟨?_, by omega, ?_, ?_⟩
  · intro hk
    rw [if_pos hk] at hacct
    omega
  · exact count_eq_zero.mp (by omega)
  · intro q hq i hi hu he
    have hpos : 0 < count (live ×ˢ idx) (tableAt s p) :=
      count_pos (x := (q, i)) (by simp [hq, idx, hi]) (by simp [tableAt, hu, he])
    omega

/-- A user page table has one owner and is nothing else. -/
theorem PagingInv.table_sole {i : Nat} (hp : p ∈ live) (hi : i < 1024)
    (hu : (s.mem p i).userPresent = true) :
    (s.mem p i).addr ∉ live ∧ (s.mem p i).addr ∉ K ∧ X (s.mem p i).addr = 0 ∧
      (∀ x ∈ slots live, mapsAt s (s.mem p i).addr x = false) ∧
      ∀ q ∈ live, ∀ j < 1024, (s.mem q j).userPresent = true →
        (s.mem q j).addr = (s.mem p i).addr → q = p ∧ j = i := by
  obtain ⟨hpage, hrc⟩ := h.userPde p hp i hi hu
  have hacct : uses K live s (s.mem p i).addr + X (s.mem p i).addr ≤ 1 := by
    rcases h.acct _ hpage.1 with ha | ha <;> omega
  unfold uses at hacct
  have hpos : 0 < count (live ×ˢ idx) (tableAt s (s.mem p i).addr) :=
    count_pos (x := (p, i)) (by simp [hp, idx, hi]) (by simp [tableAt, hu])
  refine ⟨?_, ?_, by omega, ?_, ?_⟩
  · intro hl
    rw [if_pos hl] at hacct
    omega
  · intro hk
    rw [if_pos hk] at hacct
    omega
  · exact count_eq_zero.mp (by omega)
  · intro q hq j hj hqu he
    have hle : count (live ×ˢ idx) (tableAt s (s.mem p i).addr) ≤ 1 := by omega
    have hxy := count_le_one hle (x := (q, j)) (y := (p, i)) (by simp [hq, idx, hj])
      (by simp [hp, idx, hi]) (by simp [tableAt, hqu, he]) (by simp [tableAt, hu])
    exact ⟨congrArg Prod.fst hxy, congrArg Prod.snd hxy⟩

omit h

/-- A frame nobody uses: not a directory, not a table, not mapped. -/
theorem uses_zero (h : uses K live s f = 0) :
    f ∉ live ∧ f ∉ K ∧ (∀ x ∈ slots live, mapsAt s f x = false) ∧
      ∀ q ∈ live, ∀ i < 1024, (s.mem q i).userPresent = true → (s.mem q i).addr ≠ f := by
  unfold uses at h
  refine ⟨?_, ?_, count_eq_zero.mp (by omega), ?_⟩
  · intro hl; rw [if_pos hl] at h; omega
  · intro hk; rw [if_pos hk] at h; omega
  · intro q hq i hi hu he
    have := count_eq_zero.mp (show count (live ×ˢ idx) (tableAt s f) = 0 by omega) (q, i)
      (by simp [hq, idx, hi])
    simp [tableAt, hu, he] at this

include h

/-- A frame with a reference in flight is no directory and no table. -/
theorem PagingInv.held_free (hX : X f ≠ 0) :
    f ∉ live ∧ ∀ p ∈ live, ∀ i < 1024, (s.mem p i).userPresent = true → (s.mem p i).addr ≠ f :=
  ⟨fun hl => hX (h.live_sole hl).2.1,
    fun _ hp _ hi hu he => hX (he ▸ (h.table_sole hp hi hu).2.2.1)⟩

omit h

/-- `uses` depends on the directories and on the page tables they reach. -/
theorem uses_congr (hpd : ∀ p ∈ live, ∀ i < 1024, s'.mem p i = s.mem p i)
    (hpt : ∀ p ∈ live, ∀ i < 1024, (s.mem p i).userPresent = true →
      ∀ j < 1024, ∀ f, (s'.mem (s.mem p i).addr j).holds f = (s.mem (s.mem p i).addr j).holds f)
    (f : Nat) : uses K live s' f = uses K live s f := by
  unfold uses
  congr 3
  · apply count_congr
    rintro ⟨p, i, j⟩ hx
    obtain ⟨hp, hi, hj⟩ := mem_slots.mp hx
    simp only at hp hi hj
    unfold mapsAt
    simp only [hpd p hp i hi]
    cases hu : (s.mem p i).userPresent with
    | false => rfl
    | true => rw [hpt p hp i hi hu j hj f]
  · apply count_congr
    rintro ⟨p, i⟩ hx
    simp only [Finset.mem_product, idx, Finset.mem_range] at hx
    unfold tableAt
    simp only [hpd p hx.1 i hx.2]

theorem uses_of_mem_eq (h : s'.mem = s.mem) (f : Nat) : uses K live s' f = uses K live s f := by
  unfold uses mapsAt tableAt
  rw [h]

theorem userPte_of_mem_eq (h : s'.mem = s.mem) (y : Nat × Nat × Nat) :
    userPte s' y = userPte s y := by
  unfold userPte
  rw [h]

/-! ## Edits of the counts -/

/-- One more reference on `a` in flight. -/
def bump (X : Nat → Nat) (a : Nat) : Nat → Nat := fun f => X f + if f = a then 1 else 0

theorem div_pageSize_inj (hf : f % pageSize = 0) (hg : g % pageSize = 0)
    (h : f / pageSize = g / pageSize) : f = g := by
  unfold pageSize at *
  omega

include h

/-- A change of the count of a frame that is no table and no directory. -/
theorem PagingInv.setPmm {pmm' : PmmCore}
    (hnl : f ∉ live) (hnt : ∀ p ∈ live, ∀ i < 1024, (s.mem p i).userPresent = true →
      (s.mem p i).addr ≠ f) (hinv : PmmInv pmm') (hmax : pmm'.maxPages = s.pmm.maxPages)
    (hzero : pmm'.refcounts 0 = 255)
    (hrc : ∀ g, g % pageSize = 0 → g ≠ f → pmm'.refcounts (g / pageSize) = rcOf s g)
    (hX : ∀ g, g ≠ f → X' g ≤ X g) (hacct : uses K live s f + X' f ≤ pmm'.refcounts (f / pageSize) ∨
      pmm'.refcounts (f / pageSize) = 255) : PagingInv K live X' { s with pmm := pmm' } where
  pmm := hinv
  max := by rw [hmax]; exact h.max
  zero := hzero
  kdir := h.kdir
  kpde := h.kpde
  kern := h.kern
  pd p hp := by
    obtain ⟨hpage, hone⟩ := h.pd p hp
    exact ⟨⟨hpage.1, by rw [hmax]; exact hpage.2⟩, (hrc p hpage.1 fun e => hnl (e ▸ hp)).trans hone⟩
  userPde p hp i hi hu := by
    obtain ⟨hpage, hone⟩ := h.userPde p hp i hi hu
    exact ⟨⟨hpage.1, by rw [hmax]; exact hpage.2⟩, (hrc _ hpage.1 (hnt p hp i hi hu)).trans hone⟩
  kernPde := h.kernPde
  frame g x hx hm := ⟨(h.frame g x hx hm).1, by rw [hmax]; exact (h.frame g x hx hm).2⟩
  acct g hg := by
    by_cases hgf : g = f
    · exact hgf ▸ hacct
    · have hXg := hX g hgf
      show uses K live s g + X' g ≤ pmm'.refcounts (g / pageSize) ∨ pmm'.refcounts (g / pageSize) = 255
      rw [hrc g hg hgf]
      exact (h.acct g hg).imp_left fun ha => by omega

/-- Weakening the references in flight. -/
theorem PagingInv.mono (hX : ∀ f, X' f ≤ X f) : PagingInv K live X' s := by
  refine { h with acct := ?_ }
  intro f hf
  have hXf := hX f
  exact (h.acct f hf).imp_left fun ha => by omega

/-- What `pmm_alloc_page` hands out: nothing, or a frame with no use at all, held
by the caller. -/
theorem PagingInv.alloc : pmmAllocPage s = (0, s) ∨
    ∃ a s', pmmAllocPage s = (a, s') ∧ a ≠ 0 ∧ IsPage s' a ∧ uses K live s a = 0 ∧ X a = 0 ∧
      rcOf s' a = 1 ∧ s'.mem = s.mem ∧ s'.kernelEnd = s.kernelEnd ∧
      PagingInv K live (bump X a) s' ∧ (∀ f, f % pageSize = 0 → f ≠ a → rcOf s' f = rcOf s f) ∧
      s'.pmm.maxPages = s.pmm.maxPages := by
  rcases pmmCoreAllocPage_spec s.pmm with ha | ⟨page, hlt, hclear, ha⟩
  · left
    unfold pmmAllocPage
    rw [ha]
  · right
    have hmax := h.max
    have hrc0 : s.pmm.refcounts page = 0 := by
      by_contra hne
      rw [(h.pmm page hlt).mpr hne] at hclear
      cases hclear
    have haddr : u32 (page * pageSize) = page * pageSize := by
      apply u32_of_lt; unfold pageSize; omega
    have hdiv : page * pageSize / pageSize = page := by unfold pageSize; omega
    have hmod : page * pageSize % pageSize = 0 := by unfold pageSize; omega
    have huses : uses K live s (page * pageSize) + X (page * pageSize) = 0 := by
      rcases h.acct _ hmod with hu | hu
      · unfold rcOf at hu; rw [hdiv, hrc0] at hu; omega
      · unfold rcOf at hu; rw [hdiv, hrc0] at hu; cases hu
    have hpage0 : page ≠ 0 := by
      rintro rfl; rw [h.zero] at hrc0; cases hrc0
    have hne : ∀ f, f % pageSize = 0 → f ≠ page * pageSize → f / pageSize ≠ page := by
      intro f hf hfa he
      exact hfa (div_pageSize_inj hf hmod (by rw [he, hdiv]))
    have hinv : PmmInv (pmmCoreAllocPage s.pmm).2 := pmmCoreAllocPage_inv h.pmm
    rw [ha] at hinv
    have huses : uses K live s (page * pageSize) = 0 := by omega
    obtain ⟨hnl, hnk, hnm, hnt⟩ := uses_zero huses
    refine ⟨page * pageSize, { s with pmm := (pmmCoreAllocPage s.pmm).2 }, ?_, ?_, ?_, by omega,
      by omega, ?_, rfl, rfl, ?_, ?_, ?_⟩
    · unfold pmmAllocPage; rw [ha, haddr]
    · unfold pageSize; omega
    · rw [ha]; exact ⟨hmod, by rw [hdiv]; exact hlt⟩
    · rw [ha]; unfold rcOf; simp only; rw [hdiv, update_self]
    · rw [ha]
      refine h.setPmm hnl hnt hinv rfl ?_
        (fun g hg hga => update_of_ne (hne g hg hga) _ _) (fun g hga => ?_) (.inl ?_)
      · simp only; rw [update_of_ne (Ne.symm hpage0)]; exact h.zero
      · simp [bump, hga]
      · simp only [bump, if_true, hdiv, update_self]
        omega
    · intro f hf hfa
      rw [ha]; unfold rcOf; simp only; rw [update_of_ne (hne f hf hfa)]
    · rw [ha]; rfl

omit h

theorem rcOf_decref (hf : f % pageSize = 0) (hg : g % pageSize = 0) (hne : g ≠ f) :
    rcOf (pmmDecref s f) g = rcOf s g := by
  unfold rcOf pmmDecref
  rw [pmmCoreDecref_refcounts, if_neg]
  rintro ⟨he, -, -⟩
  exact hne (div_pageSize_inj hg hf he)

theorem rcOf_incref (hf : f % pageSize = 0) (hg : g % pageSize = 0) (hne : g ≠ f) :
    rcOf (pmmIncref s f) g = rcOf s g := by
  unfold rcOf pmmIncref
  rw [pmmCoreIncref_refcounts, if_neg]
  rintro ⟨he, -, -⟩
  exact hne (div_pageSize_inj hg hf he)

include h

/-- Giving a reference back: `pmm_decref` or `pmm_free_page` by its holder. -/
theorem PagingInv.decref (hf : f % pageSize = 0) (hX : ∀ g, bump X' f g ≤ X g) : PagingInv K live X' (pmmDecref s f) := by
  have hfX : X' f + 1 ≤ X f := by simpa [bump] using hX f
  obtain ⟨hnl, hnt⟩ := h.held_free (f := f) (by omega)
  refine h.setPmm hnl hnt (pmmCoreDecref_inv h.pmm f) (pmmCoreDecref_maxPages _ _) ?_
    (fun g hg hgf => rcOf_decref hf hg hgf) (fun g hgf => by simpa [bump, hgf] using hX g) ?_
  · rw [pmmCoreDecref_refcounts, if_neg (fun hc => hc.2.2 h.zero)]
    exact h.zero
  · have hacct := h.acct f hf
    unfold rcOf at hacct
    rw [pmmCoreDecref_refcounts]
    split
    next hc => exact .inl (by have := hc.2.2; omega)
    · exact hacct.imp_left fun ha => by omega

/-- Taking one more reference on a frame that is not a paging structure. -/
theorem PagingInv.incref (hf : IsPage s f)
    (hnl : f ∉ live) (hnt : ∀ p ∈ live, ∀ i < 1024, (s.mem p i).userPresent = true →
      (s.mem p i).addr ≠ f) : PagingInv K live (bump X f) (pmmIncref s f) := by
  refine h.setPmm hnl hnt (pmmCoreIncref_inv h.pmm f) (pmmCoreIncref_maxPages _ _) ?_
    (fun g hg hgf => rcOf_incref hf.1 hg hgf) (fun g hgf => by simp [bump, hgf]) ?_
  · rw [pmmCoreIncref_refcounts, if_neg (fun hc => hc.2.2 h.zero)]
    exact h.zero
  · have hacct := h.acct f hf.1
    unfold rcOf at hacct
    have hb : bump X f f = X f + 1 := by simp [bump]
    rw [pmmCoreIncref_refcounts, hb]
    split
    next hc =>
      rcases hacct with ha | ha
      · exact .inl (by omega)
      · exact absurd ha hc.2.2
    next hc =>
      right
      by_contra hne
      exact hc ⟨rfl, hf.2, hne⟩

/-- One more reference on a frame that a user PTE maps. -/
theorem PagingInv.incref_mapped {x : Nat × Nat × Nat} (hx : x ∈ slots live)
    (hm : mapsAt s f x = true) : PagingInv K live (bump X f) (pmmIncref s f) :=
  h.incref (h.frame f x hx hm) (fun hl => by simp [(h.live_sole hl).2.2.1 x hx] at hm)
    fun p hp i hi hu he => by simp [he ▸ (h.table_sole hp hi hu).2.2.2.1 x hx] at hm

end

end Ownership

end Drunix.Mm
