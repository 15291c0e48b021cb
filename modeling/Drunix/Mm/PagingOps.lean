import Drunix.Lib.Loop
import Drunix.Mm.PagingEdit

/-!
# The paging functions keep the ownership invariant

One spec lemma for each function of `paging.c` that changes user page tables:
from `PagingInv` to `PagingInv`, and which pages it may have written
(`OnlyTouches`). A page written belongs to the address space named in the call,
or was unused; so no other address space can see the difference
(`query_of_onlyTouches`).
-/

namespace Drunix.Mm

open Lib

variable {i p q : Nat} {s' : Phys}

variable {e : Entry} {t f j virt : Nat} {X' : Nat → Nat}

section Ops

variable {K live : Finset Nat} {X : Nat → Nat} {s : Phys}

/-! ## What another address space can see -/

/-- `a` is the page directory `p` or one of its user page tables. -/
def OwnPage (s : Phys) (p a : Nat) : Prop :=
  a = p ∨ ∃ i < 1024, (s.mem p i).userPresent = true ∧ (s.mem p i).addr = a

/-- Every page written belongs to `p` or was unused. -/
def OnlyTouches (K live : Finset Nat) (s s' : Phys) (p : Nat) : Prop :=
  ∀ a, ¬ OwnPage s p a → uses K live s a ≠ 0 → s'.mem a = s.mem a

theorem uses_pos_of_live (hp : p ∈ live) : uses K live s p ≠ 0 :=
  fun h => (uses_zero h).1 hp

theorem uses_pos_of_kern {k : Nat} (hk : k ∈ K) : uses K live s k ≠ 0 :=
  fun h => (uses_zero h).2.1 hk

theorem uses_pos_of_table (hp : p ∈ live) (hi : i < 1024)
    (hu : (s.mem p i).userPresent = true) : uses K live s (s.mem p i).addr ≠ 0 :=
  fun h => (uses_zero h).2.2.2 p hp i hi hu rfl

theorem pdIndex_lt (v : Nat) : pdIndex v < 1024 := Nat.mod_lt _ (by decide)

theorem ptIndex_lt (v : Nat) : ptIndex v < 1024 := Nat.mod_lt _ (by decide)

section

variable (h : PagingInv K live X s)

include h

/-- A directory in use other than `p`, and every table it points to, survive a
call that touches only `p`. -/
theorem PagingInv.other_untouched
    (ht : OnlyTouches K live s s' p) (hp : p ∈ live) (hq : q ∈ live) (hne : q ≠ p) :
    s'.mem q = s.mem q ∧
      ∀ i < 1024, (s.mem q i).present = true → s'.mem (s.mem q i).addr = s.mem (s.mem q i).addr := by
  obtain ⟨hpk, -, -, hpt⟩ := h.live_sole hp
  obtain ⟨-, -, -, hqt⟩ := h.live_sole hq
  refine ⟨ht q ?_ (uses_pos_of_live hq), ?_⟩
  · rintro (he | ⟨i, hi, hu, he⟩)
    · exact hne he
    · exact hqt p hp i hi hu he
  · intro i hi hpres
    cases huser : (s.mem q i).user with
    | true =>
      have hu : (s.mem q i).userPresent = true := by simp [Entry.userPresent, hpres, huser]
      refine ht _ ?_ (uses_pos_of_table hq hi hu)
      rintro (he | ⟨k, hk, hku, he⟩)
      · exact hpt q hq i hi hu he
      · obtain ⟨-, -, -, -, huniq⟩ := h.table_sole hq hi hu
        exact hne (huniq p hp k hk hku he).1.symm
    | false =>
      have hk := h.kernPde q hq i hi hpres huser
      refine ht _ ?_ (uses_pos_of_kern hk)
      rintro (he | ⟨k, hk', hku, he⟩)
      · exact hpk (he ▸ hk)
      · exact (h.table_sole hp hk' hku).2.1 (he ▸ hk)

theorem PagingInv.userPte_of_onlyTouches
    (ht : OnlyTouches K live s s' p) (hp : p ∈ live) {y : Nat × Nat × Nat} (hy : y ∈ slots live)
    (hne : y.1 ≠ p) : userPte s' y = userPte s y := by
  obtain ⟨hq, hi, -⟩ := mem_slots.mp hy
  obtain ⟨hdir, htab⟩ := h.other_untouched ht hp hq hne
  unfold userPte
  rw [hdir]
  cases hu : (s.mem y.1 y.2.1).userPresent with
  | false => rfl
  | true =>
    simp only [Entry.userPresent, Bool.and_eq_true] at hu
    rw [htab _ hi hu.1]

omit h

/-- `paging_query_page` depends on the directory and the tables it points to. -/
theorem pagingQueryPage_congr (hdir : s'.mem q = s.mem q)
    (htab : ∀ i < 1024, (s.mem q i).present = true →
      s'.mem (s.mem q i).addr = s.mem (s.mem q i).addr) (v : Nat) :
    pagingQueryPage s' q v = pagingQueryPage s q v := by
  have hslot : pagingLookupSlot s' q v = pagingLookupSlot s q v := by
    unfold pagingLookupSlot
    rw [hdir]
  unfold pagingQueryPage pagingWalk
  rw [hslot]
  cases hl : pagingLookupSlot s q v with
  | none => rfl
  | some x =>
    obtain ⟨pt, i⟩ := x
    have hpt : s'.mem pt = s.mem pt := by
      unfold pagingLookupSlot at hl
      split at hl
      · cases hl
      · dsimp only at hl
        split at hl
        · cases hl
        next hpres =>
          split at hl
          · cases hl
          · cases hl
            exact htab _ (pdIndex_lt v) (by simpa using hpres)
    simp only [hpt]
    cases (s.mem pt i).present with
    | false => rfl
    | true => simp only [if_true, hpt]

include h

/-- `paging_query_page` on another address space does not see the call. -/
theorem PagingInv.query_of_onlyTouches
    (ht : OnlyTouches K live s s' p) (hp : p ∈ live) (hq : q ∈ live) (hne : q ≠ p) (v : Nat) :
    pagingQueryPage s' q v = pagingQueryPage s q v := by
  obtain ⟨hdir, htab⟩ := h.other_untouched ht hp hq hne
  exact pagingQueryPage_congr hdir htab v

/-- Nor does any address space see writes to unused pages. -/
theorem PagingInv.query_of_touchesUnused
    (ht : ∀ a, uses K live s a ≠ 0 → s'.mem a = s.mem a) (hq : q ∈ live) (v : Nat) :
    pagingQueryPage s' q v = pagingQueryPage s q v := by
  refine pagingQueryPage_congr (ht q (uses_pos_of_live hq)) (fun i hi hpres => ht _ ?_) v
  cases huser : (s.mem q i).user with
  | true => exact uses_pos_of_table hq hi (by simp [Entry.userPresent, hpres, huser])
  | false => exact uses_pos_of_kern (h.kernPde q hq i hi hpres huser)

/-! ## Clearing PTEs: `paging_unmap_page` and `paging_destroy_user_space` -/

/-- A PTE that held `f` is overwritten and that reference dropped. What the new PTE
holds comes out of the references in flight. -/
theorem PagingInv.replacePte (hp : p ∈ live)
    (hi : i < 1024) (hj : j < 1024) (hu : (s.mem p i).userPresent = true)
    (hold : (s.mem (s.mem p i).addr j).holds f = true) (e : Entry)
    (he : ∀ g, e.holds g = true → IsPage s g)
    (hX : ∀ g, X' g + (if e.holds g then 1 else 0) ≤ X g) :
    PagingInv K live X' (pmmDecref (s.setEntry (s.mem p i).addr j e) f) := by
  have hpage := h.frame f (p, i, j) (mem_slots.mpr ⟨hp, hi, hj⟩) (by simp [mapsAt, hu, hold])
  have hstore : PagingInv K live (bump X' f) (s.setEntry (s.mem p i).addr j e) := by
    refine h.storePte hp hi hj hu e he fun g hg => ?_
    have hXg := hX g
    rcases h.acct g hg with ha | ha
    · right
      unfold bump
      by_cases hgf : g = f
      · subst hgf
        rw [hold, if_pos rfl, if_pos rfl]
        omega
      · rw [if_neg hgf]
        omega
    · exact .inl ha
  exact PagingInv.decref hstore hpage.1 fun _ => Nat.le_refl _

/-- Clearing a PTE and dropping the reference it held. -/
theorem PagingInv.clearPte (hp : p ∈ live) (hi : i < 1024)
    (hj : j < 1024) (hu : (s.mem p i).userPresent = true) :
    PagingInv K live X
      ((if (s.mem (s.mem p i).addr j).userPresent && !(s.mem (s.mem p i).addr j).io
        then pmmDecref s (s.mem (s.mem p i).addr j).addr else s).setEntry (s.mem p i).addr j {}) := by
  have hempty : ∀ f, ({} : Entry).holds f = false := fun f => rfl
  split
  next hc =>
    simp only [Bool.and_eq_true, Bool.not_eq_true'] at hc
    exact h.replacePte hp hi hj hu (by simp [Entry.holds, hc.1, hc.2]) {}
      (fun f hf => absurd hf (by simp [hempty])) (fun f => by simp [hempty])
  exact h.storeHeld hp hi hj hu (fun f hf => absurd hf (by simp [hempty]))
    (fun f => by simp [hempty])

/-- The inner loop of `paging_destroy_user_space` empties the table. -/
theorem PagingInv.destroyPtes (hp : p ∈ live) (hi : i < 1024)
    (hu : (s.mem p i).userPresent = true) :
    PagingInv K live X ((List.range 1024).foldl (destroyPte (s.mem p i).addr) s) ∧
      (∀ q, q ≠ (s.mem p i).addr →
        ((List.range 1024).foldl (destroyPte (s.mem p i).addr) s).mem q = s.mem q) ∧
      ∀ j < 1024, (((List.range 1024).foldl (destroyPte (s.mem p i).addr) s).mem
        (s.mem p i).addr j).userPresent = false := by
  have hpt : p ≠ (s.mem p i).addr := fun he => (h.table_sole hp hi hu).1 (he ▸ hp)
  refine foldl_range_inv
    (fun k s' => PagingInv K live X s' ∧ (∀ q, q ≠ (s.mem p i).addr → s'.mem q = s.mem q) ∧
      ∀ j < k, (s'.mem (s.mem p i).addr j).userPresent = false)
    ⟨h, fun _ _ => rfl, fun j hj => absurd hj (Nat.not_lt_zero j)⟩ ?_
  rintro k hk s' ⟨hinv, hmem, hdone⟩
  have hpde : s'.mem p i = s.mem p i := by rw [hmem p hpt]
  have hclear := hinv.clearPte hp hi hk (by rw [hpde]; exact hu)
  rw [hpde] at hclear
  unfold destroyPte
  dsimp only
  split
  next hnu =>
    refine ⟨hinv, hmem, fun j hj => ?_⟩
    rcases Nat.lt_succ_iff_lt_or_eq.mp hj with hj | rfl
    · exact hdone j hj
    · simpa using hnu
  next hnu =>
  have hup : (s'.mem (s.mem p i).addr k).userPresent = true := by simpa using hnu
  rw [hup, Bool.true_and] at hclear
  refine ⟨hclear, fun q hq => ?_, fun j hj => ?_⟩
  · rw [Phys.setEntry_mem_page {} hq, ← hmem q hq]
    split <;> rfl
  · rw [Phys.setEntry_mem]
    by_cases hjk : j = k
    · rw [if_pos ⟨rfl, hjk⟩]; rfl
    · rw [if_neg (fun hc => hjk hc.2)]
      have := hdone j (by omega)
      split <;> exact this

/-- One round of the outer loop: the table is emptied, freed and unlinked. -/
theorem PagingInv.destroyPde_spec (hp : p ∈ live) (hi : i < 1024) :
    PagingInv K live X (destroyPde p s i) ∧ (∀ a, ¬ OwnPage s p a → (destroyPde p s i).mem a = s.mem a) ∧
      ((destroyPde p s i).mem p i).userPresent = false ∧
      ∀ k, k ≠ i → (destroyPde p s i).mem p k = s.mem p k := by
  unfold destroyPde
  dsimp only
  split
  next hnu => exact ⟨h, fun _ _ => rfl, by simpa using hnu, fun _ _ => rfl⟩
  next hnu =>
  have hu : (s.mem p i).userPresent = true := by simpa using hnu
  have hpage := (h.userPde p hp i hi hu).1
  rw [if_neg (by simp [h.live_physPtr hpage])]
  obtain ⟨hinv, hmem, hgone⟩ := h.destroyPtes hp hi hu
  obtain ⟨s1, hs1⟩ : ∃ s1, (List.range 1024).foldl (destroyPte (s.mem p i).addr) s = s1 := ⟨_, rfl⟩
  rw [hs1] at hinv hmem hgone ⊢
  have hdir : s1.mem p = s.mem p := hmem p fun he => (h.table_sole hp hi hu).1 (he ▸ hp)
  have hpde := congrFun hdir i
  have hrem := hinv.removeTable hp hi (by rw [hpde]; exact hu) (by rw [hpde]; exact hgone)
  rw [hpde] at hrem
  refine ⟨PagingInv.decref hrem hpage.1 fun _ => Nat.le_refl _, ?_, ?_, ?_⟩
  · intro a ha
    have hap : a ≠ p := fun he => ha (.inl he)
    have hat : a ≠ (s.mem p i).addr := fun he => ha (.inr ⟨i, hi, hu, he.symm⟩)
    rw [Phys.setEntry_mem_page {} hap]
    exact hmem a hat
  · rw [Phys.setEntry_mem, if_pos ⟨rfl, rfl⟩]; rfl
  · intro k hk
    rw [Phys.setEntry_mem, if_neg (fun hc => hk hc.2)]
    exact congrFun hdir k

omit h

/-- A directory without user PDEs uses only its own page. -/
theorem pdUses_of_no_user (h : ∀ i < 1024, (s.mem p i).userPresent = false) (f : Nat) :
    pdUses s p f = if f = p then 1 else 0 := by
  have hm : count (idx ×ˢ idx) (fun x => mapsAt s f (p, x)) = 0 := by
    refine count_eq_zero.mpr ?_
    rintro ⟨i, j⟩ hx
    simp only [Finset.mem_product, idx, Finset.mem_range] at hx
    simp [mapsAt, h i hx.1]
  have ht : count idx (fun i => tableAt s f (p, i)) = 0 := by
    refine count_eq_zero.mpr fun i hi => ?_
    simp [tableAt, h i (by simpa [idx] using hi)]
  unfold pdUses
  omega

include h

/-- `paging_destroy_user_space` takes the address space out of use and touches
nobody else's pages. -/
theorem PagingInv.destroy (hp : p ∈ live) :
    PagingInv K (live.erase p) X (pagingDestroyUserSpace s p) ∧
      OnlyTouches K live s (pagingDestroyUserSpace s p) p := by
  obtain ⟨hpage, hrc⟩ := h.pd p hp
  have hp0 : p ≠ 0 := h.ne_zero hrc
  have hpk : p ≠ pageDirAddr := fun he => (h.live_sole hp).1 (he ▸ h.kdir)
  have hloop := foldl_range_inv
    (fun k s' => PagingInv K live X s' ∧ (∀ a, ¬ OwnPage s p a → s'.mem a = s.mem a) ∧
      (∀ i < k, (s'.mem p i).userPresent = false) ∧ ∀ i, k ≤ i → s'.mem p i = s.mem p i)
    ⟨h, fun _ _ => rfl, fun i hi => absurd hi (Nat.not_lt_zero i), fun _ _ => rfl⟩ (by
      rintro k hk s' ⟨hinv, hmem, hdone, hrest⟩
      obtain ⟨hinv', hmem', hk', hother⟩ := hinv.destroyPde_spec hp hk
      -- what is left of `p` in `s'` was `p`'s in `s`
      have hown : ∀ a, OwnPage s' p a → OwnPage s p a := by
        rintro a (ha | ⟨i, hi, hu, ha⟩)
        · exact .inl ha
        · rcases Nat.lt_or_ge i k with hik | hik
          · rw [hdone i hik] at hu; cases hu
          · rw [hrest i hik] at hu ha; exact .inr ⟨i, hi, hu, ha⟩
      refine ⟨hinv', fun a ha => ?_, fun i hi => ?_, fun i hi => ?_⟩
      · rw [hmem' a (fun hc => ha (hown a hc)), hmem a ha]
      · rcases Nat.lt_succ_iff_lt_or_eq.mp hi with hi | rfl
        · rw [hother i (by omega)]; exact hdone i hi
        · exact hk'
      · rw [hother i (by omega)]; exact hrest i (by omega))
  unfold pagingDestroyUserSpace
  rw [if_neg (by simp [hp0, hpk]), if_neg (by simp [h.live_physPtr hpage])]
  obtain ⟨s1, hs1⟩ : ∃ s1, (List.range 1024).foldl (destroyPde p) s = s1 := ⟨_, rfl⟩
  rw [hs1] at hloop ⊢
  obtain ⟨hinv, hmem, hdone, -⟩ := hloop
  refine ⟨?_, fun a ha _ => hmem a ha⟩
  refine PagingInv.decref (hinv.removePd hp) hpage.1 fun g => ?_
  rw [pdUses_of_no_user hdone]
  exact Nat.le_refl _

omit h

/-! ## `paging_create_user_space` -/

/-- A created directory points at the kernel's own tables only. -/
theorem createPde_eq (s : Phys) (i : Nat) : createPde s i = {} ∨
    createPde s i = s.mem pageDirAddr i ∧ (s.mem pageDirAddr i).user = false := by
  unfold createPde
  dsimp only
  cases hc : (inheritedPde s.kernelEnd i &&
      ((s.mem pageDirAddr i).present && !(s.mem pageDirAddr i).user)) with
  | false => exact .inl rfl
  | true =>
    simp only [Bool.and_eq_true, Bool.not_eq_true'] at hc
    exact .inr ⟨rfl, hc.2.2⟩

include h

/-- Either nothing happens, or a new directory with kernel PDEs only goes into use. -/
theorem PagingInv.create : pagingCreateUserSpace s = (0, s) ∨
    ∃ n s', pagingCreateUserSpace s = (n, s') ∧ n ≠ 0 ∧ n ∉ live ∧ uses K live s n = 0 ∧
      PagingInv K (insert n live) X s' ∧ (∀ i < 1024, (s'.mem n i).userPresent = false) ∧
      ∀ a, a ≠ n → s'.mem a = s.mem a := by
  rcases h.alloc with ha | ⟨n, s1, ha, hn0, hpage, huses, hXn, hrc, hmem, hke, hinv, -⟩
  · left
    unfold pagingCreateUserSpace
    rw [ha]
    simp
  · right
    obtain ⟨hnl, hnk, -, -⟩ := uses_zero huses
    unfold pagingCreateUserSpace
    rw [ha]
    dsimp only
    rw [if_neg hn0, if_neg (by simp [hinv.live_physPtr hpage])]
    have huses1 : uses K live s1 n = 0 := by rw [uses_of_mem_eq hmem, huses]
    have hdir : ∀ i, (s1.setTable n (createPde s1)).mem n i = createPde s1 i := by
      intro i; rw [Phys.setTable_mem, if_pos rfl]
    have hnouser : ∀ i < 1024, ((s1.setTable n (createPde s1)).mem n i).userPresent = false := by
      intro i _
      rw [hdir i]
      rcases createPde_eq s1 i with he | ⟨he, hnu⟩
      · rw [he]; rfl
      · rw [he]; simp [Entry.userPresent, hnu]
    refine ⟨n, _, rfl, hn0, hnl, huses, ?_, hnouser, ?_⟩
    · obtain ⟨hset, -⟩ := hinv.setUnused huses1 (createPde s1)
      refine hset.addPd hnl hpage hrc ?_ ?_ ?_ ?_
      · intro i hi hu
        rw [hnouser i hi] at hu
        cases hu
      · intro i hi hpres _
        rw [hdir i] at hpres ⊢
        rcases createPde_eq s1 i with he | ⟨he, -⟩
        · rw [he] at hpres; cases hpres
        · rw [he] at hpres ⊢; exact hinv.kpde i hi hpres
      · intro f i hi j hj hm
        simp [mapsAt, hnouser i hi] at hm
      · intro f _
        rw [pdUses_of_no_user hnouser]
        exact Nat.le_refl _
    · intro a ha'
      rw [Phys.setTable_mem, if_neg ha', hmem]

/-! ## `paging_map_page`, `paging_unmap_page`, `paging_update_page` -/

/-- A frame whose count exceeds its uses has a reference to give away. -/
theorem PagingInv.spare (hf : f % pageSize = 0)
    (hs : uses K live s f + X f < rcOf s f ∨ rcOf s f = 255) : PagingInv K live (bump X f) s := by
  refine { h with acct := fun g hg => ?_ }
  by_cases hgf : g = f
  · subst hgf
    have hb : bump X g g = X g + 1 := by simp [bump]
    rw [hb]
    exact hs.imp (fun hlt => by omega) id
  · have hb : bump X f g = X g := by simp [bump, hgf]
    rw [hb]
    exact h.acct g hg

omit h

theorem pageDown_of_aligned {a : Nat} (h : a % pageSize = 0) : pageDown a = a := by
  unfold pageDown pageSize at *
  omega

/-- The PTE `paging_walk` looks at for `virt`; `{}` where there is no page table. -/
def pteAt (s : Phys) (pd virt : Nat) : Entry :=
  if (s.mem pd (pdIndex virt)).present && physPtr (s.mem pd (pdIndex virt)).addr then
    s.mem (s.mem pd (pdIndex virt)).addr (ptIndex virt)
  else {}

/-- A new page table `t` with the PTEs `g` behind the PDE of `virt`, and the PTE `e` in it. -/
def Phys.newTable (s : Phys) (p virt t : Nat) (g : Nat → Entry) (e : Entry) : Phys :=
  ((s.setTable t g).setEntry p (pdIndex virt)
    (pagingEntryBuild t { present := true, writable := true, user := true })).setEntry t (ptIndex virt) e

/-- `t` is a fresh frame, taken for a page table behind a PDE that had none of the user's. The PTEs
`g` show what was there before. -/
structure NewTable (K live : Finset Nat) (X : Nat → Nat) (s s₁ : Phys) (p virt t : Nat)
    (g : Nat → Entry) : Prop where
  mem : s₁.mem = s.mem
  inv : PagingInv K live (bump X t) s₁
  page : IsPage s₁ t
  unused : uses K live s t = 0
  rc : rcOf s₁ t = 1
  max : s₁.pmm.maxPages = s.pmm.maxPages
  pde : (s.mem p (pdIndex virt)).userPresent = false
  kern : ∀ j < 1024, (g j).userPresent = false
  same : ∀ w, pdIndex w = pdIndex virt → g (ptIndex w) = pteAt s p w

theorem NewTable.map {s1 : Phys} {g : Nat → Entry}
    (h : NewTable K live X s s1 p virt t g) (hp : p ∈ live)
    (he : ∀ f, e.holds f = true → IsPage s f)
    (hX : ∀ f, X' f + (if e.holds f then 1 else 0) ≤ X f) :
    PagingInv K live X' (s1.newTable p virt t g e) ∧ OnlyTouches K live s (s1.newTable p virt t g e) p ∧
      ∀ y ∈ slots live, userPte (s1.newTable p virt t g e) y
        = if y = (p, pdIndex virt, ptIndex virt) then e.view else userPte s y := by
  have hpdi := pdIndex_lt virt
  have hsame : ∀ y, userPte s1 y = userPte s y := userPte_of_mem_eq h.mem
  have huses1 : uses K live s1 t = 0 := by rw [uses_of_mem_eq h.mem, h.unused]
  obtain ⟨pde, hpde⟩ : ∃ pde, pde = pagingEntryBuild t { present := true, writable := true, user := true } :=
    ⟨_, rfl⟩
  have hpu : pde.userPresent = true := by rw [hpde]; rfl
  have hpa : pde.addr = t := by rw [hpde]; exact pageDown_of_aligned h.page.1
  unfold Phys.newTable
  rw [← hpde]
  obtain ⟨hinst, hview⟩ := h.inv.installTable hp hpdi (by rw [h.mem]; exact h.pde) h.page h.rc huses1
    h.kern hpu hpa rfl
  have hpde : ((s1.setTable t g).setEntry p (pdIndex virt) pde).mem p (pdIndex virt) = pde := by
    rw [Phys.setEntry_mem, if_pos ⟨rfl, rfl⟩]
  have hstore := hinst.storeHeld hp hpdi (ptIndex_lt virt) (by rw [hpde]; exact hpu)
    (fun f hf => ⟨(he f hf).1, h.max.symm ▸ (he f hf).2⟩) hX
  have hsee := fun y hy => hinst.userPte_store (j := ptIndex virt) (y := y) hp hpdi
    (by rw [hpde]; exact hpu) e hy
  rw [hpde, hpa] at hstore hsee
  refine ⟨hstore, ?_, ?_⟩
  · intro a ha hau
    have hat : a ≠ t := fun hc => hau (hc ▸ h.unused)
    have hap : a ≠ p := fun hc => ha (.inl hc)
    rw [Phys.setEntry_mem_page e hat, Phys.setEntry_mem_page pde hap, Phys.setTable_mem,
      if_neg hat, h.mem]
  · intro y hy
    rw [hsee y hy]
    split
    · rfl
    · rw [hview y hy, hsame]

/-- Freeing a frame that is held. -/
theorem PagingInv.release (h : PagingInv K live (bump X t) s) (ht : t % pageSize = 0) :
    PagingInv K live X (pmmFreePage s t) :=
  h.decref ht fun _ => Nat.le_refl _

theorem Entry.with_user (h : e.user = true) : ({ e with user := true } : Entry) = e := by
  obtain ⟨⟨present, writable, user, pwt, pcd, pat4k, cow, io, shared⟩, addr⟩ := e
  obtain rfl : user = true := h
  rfl

include h

/-- Storing over a PTE of the address space's own table. -/
theorem PagingInv.mapPage_over (hp : p ∈ live) {phys : Nat} {flags : PgFlags}
    (hu : (s.mem p (pdIndex virt)).userPresent = true) :
    pagingMapPage s p virt phys flags =
      if flags.user && (!pagingUserPageAllowed virt ||
        (s.mem (s.mem p (pdIndex virt)).addr (ptIndex virt)).present &&
          !(s.mem (s.mem p (pdIndex virt)).addr (ptIndex virt)).user) then (-1, s)
      else (0, s.setEntry (s.mem p (pdIndex virt)).addr (ptIndex virt)
        (pagingEntryBuild phys flags)) := by
  obtain ⟨hpres, huser⟩ := Bool.and_eq_true_iff.mp hu
  have hpd := h.live_physPtr (h.pd p hp).1
  have hpt := h.live_physPtr (h.userPde p hp _ (pdIndex_lt virt) hu).1
  unfold pagingMapPage
  dsimp only
  rw [Entry.with_user huser, Phys.setEntry_self, ite_self]
  cases flags.user <;> cases pagingUserPageAllowed virt <;> simp [hpd, hpt, hpres, huser]

/-- What `paging_map_page` does: it fails without a trace, puts the PTE into a new table, or
into the one that is there. It does not take over a PTE of the kernel's. -/
theorem PagingInv.mapPage_cases (virt phys : Nat) (flags : PgFlags) (hp : p ∈ live)
    (htable : flags.user = true ∨ (s.mem p (pdIndex virt)).present = false ∨
      (s.mem p (pdIndex virt)).user = true) {r : Int × Phys}
    (hr : pagingMapPage s p virt phys flags = r) :
    (r.1 = -1 ∧ PagingInv K live X r.2 ∧ r.2.mem = s.mem) ∨
    ((flags.user = true → (s.mem p (pdIndex virt)).present = true →
      (s.mem (s.mem p (pdIndex virt)).addr (ptIndex virt)).present = true →
      (s.mem (s.mem p (pdIndex virt)).addr (ptIndex virt)).user = true) ∧
      ((∃ t s1 g, NewTable K live X s s1 p virt t g ∧
          r = (0, s1.newTable p virt t g (pagingEntryBuild phys flags))) ∨
        (s.mem p (pdIndex virt)).userPresent = true ∧
          r = (0, s.setEntry (s.mem p (pdIndex virt)).addr (ptIndex virt)
            (pagingEntryBuild phys flags)))) := by
  cases hu : (s.mem p (pdIndex virt)).userPresent with
  | true =>
    rw [h.mapPage_over hp hu] at hr
    split at hr
    · exact hr ▸ .inl ⟨rfl, h, rfl⟩
    next hok =>
      refine .inr ⟨fun hf _ hpte => ?_, .inr ⟨rfl, hr.symm⟩⟩
      simp only [hf, hpte, Bool.true_and, Bool.or_eq_true, Bool.not_eq_true', not_or,
        Bool.not_eq_false] at hok
      exact hok.2
  | false =>
    unfold pagingMapPage at hr
    rw [if_neg (by simp [h.live_physPtr (h.pd p hp).1])] at hr
    split at hr
    · exact hr ▸ .inl ⟨rfl, h, rfl⟩
    cases hpres : (s.mem p (pdIndex virt)).present with
    | false =>
      rw [if_pos (by simp [hpres])] at hr
      rcases h.alloc with ha | ⟨t, s1, ha, ht0, htp, huses, -, hrc, hmem, -, hinv, -, hmax⟩
      · rw [ha] at hr
        exact hr ▸ .inl ⟨rfl, h, rfl⟩
      rw [ha] at hr
      dsimp only at hr
      rw [if_neg ht0, if_neg (by simp [hinv.live_physPtr htp])] at hr
      refine .inr ⟨nofun, .inl ⟨t, s1, fun _ => {},
        ⟨hmem, hinv, htp, huses, hrc, hmax, hu, fun _ _ => rfl, fun w hw => ?_⟩, hr.symm⟩⟩
      rw [pteAt, hw, if_neg (by simp [hpres])]
    | true =>
      -- a kernel table: its private copy has no user PTEs either
      have hk : (s.mem p (pdIndex virt)).user = false := by simpa [Entry.userPresent, hpres] using hu
      have hf : flags.user = true := by simpa [hpres, hk] using htable
      rw [if_neg (by simp [hpres]), if_pos (by simp [hf, hk])] at hr
      rcases h.alloc with ha | ⟨t, s1, ha, ht0, htp, huses, -, hrc, hmem, -, hinv, -, hmax⟩
      · rw [ha] at hr
        exact hr ▸ .inl ⟨rfl, h, rfl⟩
      rw [ha] at hr
      dsimp only at hr
      rw [if_neg ht0] at hr
      split at hr
      · exact hr ▸ .inl ⟨rfl, hinv.release htp.1, hmem⟩
      next hptr =>
      split at hr
      · exact hr ▸ .inl ⟨rfl, hinv.release htp.1, hmem⟩
      next hpte =>
      simp only [hmem, Bool.or_eq_true, Bool.and_eq_true, Bool.not_eq_true', not_or, not_and,
        Bool.not_eq_false] at hptr hpte
      refine .inr ⟨fun _ _ => hpte, .inl ⟨t, s1, _, ⟨hmem, hinv, htp, huses, hrc, hmax, hu,
        hinv.kern _ (h.kernPde p hp _ (pdIndex_lt virt) hpres hk), fun w hw => ?_⟩, hr.symm⟩⟩
      rw [pteAt, hw, if_pos (by simp [hpres, hptr.1]), hmem]

/-- `paging_map_page`, given the reference the new PTE takes over. It fails without
a trace, or changes the slot of `virt` and no other. -/
theorem PagingInv.map (virt phys : Nat) (flags : PgFlags) (X' : Nat → Nat) (hp : p ∈ live)
    (htable : flags.user = true ∨ (s.mem p (pdIndex virt)).present = false ∨
      (s.mem p (pdIndex virt)).user = true)
    (hframe : ∀ f, (pagingEntryBuild phys flags).holds f = true → IsPage s f)
    (hX : ∀ f, X' f + (if (pagingEntryBuild phys flags).holds f then 1 else 0) ≤ X f) :
    OnlyTouches K live s (pagingMapPage s p virt phys flags).2 p ∧
    (((pagingMapPage s p virt phys flags).1 = 0 ∧
      PagingInv K live X' (pagingMapPage s p virt phys flags).2 ∧
      ∀ y ∈ slots live, userPte (pagingMapPage s p virt phys flags).2 y
        = if y = (p, pdIndex virt, ptIndex virt) then (pagingEntryBuild phys flags).view
          else userPte s y) ∨
     ((pagingMapPage s p virt phys flags).1 = -1 ∧
      PagingInv K live X (pagingMapPage s p virt phys flags).2 ∧
      (pagingMapPage s p virt phys flags).2.mem = s.mem)) := by
  have hpdi := pdIndex_lt virt
  rcases h.mapPage_cases virt phys flags hp htable rfl with hbad | ⟨-, ⟨t, s1, g, hnew, hr⟩ | ⟨hu, hr⟩⟩
  · exact ⟨fun a _ _ => by rw [hbad.2.2], .inr hbad⟩
  · rw [hr]
    obtain ⟨h1, h2, h3⟩ := hnew.map hp hframe hX
    exact ⟨h2, .inl ⟨rfl, h1, h3⟩⟩
  · rw [hr]
    refine ⟨?_, .inl ⟨rfl, h.storeHeld hp hpdi (ptIndex_lt virt) hu hframe hX, ?_⟩⟩
    · intro a ha _
      exact Phys.setEntry_mem_page _ (fun hc => ha (.inr ⟨_, hpdi, hu, hc.symm⟩))
    · intro y hy
      exact h.userPte_store hp hpdi hu _ hy

/-- What `paging_walk` finds. -/
theorem PagingInv.walk_cases (hp : p ∈ live) (virt : Nat) :
    (pagingWalk s p virt = none ∧ userPte s (p, pdIndex virt, ptIndex virt) = none) ∨
    (pagingWalk s p virt = some ((s.mem p (pdIndex virt)).addr, ptIndex virt) ∧
      (s.mem p (pdIndex virt)).present = true ∧
      (s.mem (s.mem p (pdIndex virt)).addr (ptIndex virt)).present = true) := by
  unfold pagingWalk pagingLookupSlot
  rw [if_neg (by simp [h.live_physPtr (h.pd p hp).1])]
  by_cases hpres : (s.mem p (pdIndex virt)).present = true
  · rw [if_neg (by simp [hpres])]
    by_cases hptr : physPtr (s.mem p (pdIndex virt)).addr = true
    · rw [if_neg (by simp [hptr])]
      dsimp only
      by_cases hpte : (s.mem (s.mem p (pdIndex virt)).addr (ptIndex virt)).present = true
      · rw [if_pos hpte]
        exact .inr ⟨rfl, hpres, hpte⟩
      · rw [if_neg hpte]
        refine .inl ⟨rfl, ?_⟩
        simp [userPte, Entry.view, Entry.userPresent, hpte]
    · rw [if_pos (by simp [hptr])]
      refine .inl ⟨rfl, ?_⟩
      have hnu : ¬ (s.mem p (pdIndex virt)).userPresent = true := fun hu =>
        hptr (h.live_physPtr (h.userPde p hp _ (pdIndex_lt virt) hu).1)
      simp [userPte, hnu]
  · rw [if_pos (by simp [hpres])]
    exact .inl ⟨rfl, by simp [userPte, Entry.userPresent, hpres]⟩

/-- `paging_unmap_page` on a user table: the slot of `virt` goes away. -/
theorem PagingInv.unmap (virt : Nat) (hp : p ∈ live)
    (htable : (s.mem p (pdIndex virt)).present = true → (s.mem p (pdIndex virt)).user = true) :
    PagingInv K live X (pagingUnmapPage s p virt).2 ∧
      OnlyTouches K live s (pagingUnmapPage s p virt).2 p ∧
      ∀ y ∈ slots live, userPte (pagingUnmapPage s p virt).2 y
        = if y = (p, pdIndex virt, ptIndex virt) then none else userPte s y := by
  have hpdi := pdIndex_lt virt
  have hpti := ptIndex_lt virt
  unfold pagingUnmapPage
  rw [if_neg (by simp [h.live_physPtr (h.pd p hp).1])]
  rcases h.walk_cases hp virt with ⟨hw, hnone⟩ | ⟨hw, hpres, hpte⟩
  · rw [hw]
    refine ⟨h, fun _ _ _ => rfl, fun y _ => ?_⟩
    dsimp only
    split
    next he => rw [he]; exact hnone
    · rfl
  · rw [hw]
    dsimp only
    have hu : (s.mem p (pdIndex virt)).userPresent = true := by
      simp [Entry.userPresent, hpres, htable hpres]
    have hclear := h.clearPte hp hpdi hpti hu
    have hcond : ((s.mem p (pdIndex virt)).user &&
        (s.mem (s.mem p (pdIndex virt)).addr (ptIndex virt)).user &&
        !(s.mem (s.mem p (pdIndex virt)).addr (ptIndex virt)).io)
        = ((s.mem (s.mem p (pdIndex virt)).addr (ptIndex virt)).userPresent &&
          !(s.mem (s.mem p (pdIndex virt)).addr (ptIndex virt)).io) := by
      simp [Entry.userPresent, hpte, htable hpres]
    rw [hcond]
    refine ⟨hclear, fun a ha _ => ?_, fun y hy => ?_⟩
    · rw [Phys.setEntry_mem_page {} (fun hc => ha (.inr ⟨_, hpdi, hu, hc.symm⟩))]
      split <;> rfl
    · have hsee := h.userPte_store (j := ptIndex virt) hp hpdi hu {} hy
      rw [show ({} : Entry).view = none from rfl] at hsee
      rw [← hsee]
      split <;> rfl

omit h

theorem updatedEntry_view (e : Entry) (clear set : MapFlags) :
    (updatedEntry e clear set).view = e.view.map fun e => updatedEntry e clear set := by
  have hup : (updatedEntry e clear set).userPresent = e.userPresent := by
    unfold updatedEntry Entry.userPresent
    cases clear.write <;> cases clear.cow <;> cases set.cow <;> cases set.write <;> rfl
  unfold Entry.view
  rw [hup]
  cases e.userPresent <;> rfl

theorem updatedEntry_holds (e : Entry) (clear set : MapFlags) (f : Nat) :
    (updatedEntry e clear set).holds f = e.holds f := by
  unfold updatedEntry Entry.holds Entry.userPresent
  cases clear.write <;> cases clear.cow <;> cases set.cow <;> cases set.write <;> rfl

include h

/-- `paging_update_page` on a user table: the flags at the slot of `virt` change. -/
theorem PagingInv.update (virt : Nat) (clear set : MapFlags) (hp : p ∈ live)
    (htable : (s.mem p (pdIndex virt)).present = true → (s.mem p (pdIndex virt)).user = true) :
    PagingInv K live X (pagingUpdatePage s p virt clear set).2 ∧
      OnlyTouches K live s (pagingUpdatePage s p virt clear set).2 p ∧
      ∀ y ∈ slots live, userPte (pagingUpdatePage s p virt clear set).2 y
        = if (pagingUpdatePage s p virt clear set).1 = 0 ∧ y = (p, pdIndex virt, ptIndex virt)
          then (userPte s y).map fun e => updatedEntry e clear set else userPte s y := by
  have hpdi := pdIndex_lt virt
  have hpti := ptIndex_lt virt
  unfold pagingUpdatePage
  rcases h.walk_cases hp virt with ⟨hw, -⟩ | ⟨hw, hpres, -⟩
  · rw [hw]
    exact ⟨h, fun _ _ _ => rfl, fun y _ => by simp⟩
  · rw [hw]
    dsimp only
    split
    · exact ⟨h, fun _ _ _ => rfl, fun y _ => by simp⟩
    have hu : (s.mem p (pdIndex virt)).userPresent = true := by
      simp [Entry.userPresent, hpres, htable hpres]
    refine ⟨?_, fun a ha _ => ?_, fun y hy => ?_⟩
    · exact h.storeSame hp hpdi hpti hu fun f => updatedEntry_holds _ _ _ f
    · exact Phys.setEntry_mem_page _ (fun hc => ha (.inr ⟨_, hpdi, hu, hc.symm⟩))
    · rw [h.userPte_store hp hpdi hu _ hy, updatedEntry_view]
      by_cases hy' : y = (p, pdIndex virt, ptIndex virt)
      · rw [if_pos hy', if_pos ⟨rfl, hy'⟩, hy']
        simp [userPte, hu]
      · rw [if_neg hy', if_neg (fun hc => hy' hc.2)]

end

end Ops

end Drunix.Mm
