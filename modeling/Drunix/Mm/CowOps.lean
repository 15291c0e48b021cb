import Drunix.Mm.PagingOps
import Drunix.Mm.Fault

/-!
# What faults, mprotect and munmap do to the user's view

One spec lemma per page-level operation of `mem.c`, `fault.c` and `uaccess.c`: it
keeps the ownership invariant, and the user's view of all address spaces
(`userPte`) changes at one slot at most. A page comes from the frame allocator
(`mapFresh_cases`), a copy-on-write page is copied or taken over (`breakCow_spec`),
a page loses a right or gains write access (`applyMprotectPage_spec`), or it goes
(`unmapUserPage_spec`).
-/

namespace Drunix.Mm

open Lib

variable {e : Entry} {p page : Nat}

variable {flags : MapFlags} {i t a w virt pd j : Nat} {v v' : Option Entry} {s' s1 : Phys}
  {g : Prop}

section Ops

variable {K live : Finset Nat} {X : Nat → Nat} {s : Phys}

/-- The PTE slot of `virt` in the address space `pd`. -/
def slotOf (pd virt : Nat) : Nat × Nat × Nat := (pd, pdIndex virt, ptIndex virt)

theorem slotOf_mem (hp : pd ∈ live) (virt : Nat) : slotOf pd virt ∈ slots live :=
  mem_slots.mpr ⟨hp, pdIndex_lt virt, ptIndex_lt virt⟩

/-- What `paging_query_page` reports of a PTE. -/
def Entry.mapping (e : Entry) : Mapping where
  physAddr := e.addr
  flags := { present := true, read := true, write := e.writable, user := e.user, cow := e.cow,
             io := e.io, shared := e.shared }

section

variable (h : PagingInv K live X s) (hp : p ∈ live)

include h hp

/-- `paging_query_page` and the user's view: a page with the user bit is one the
user sees. -/
theorem PagingInv.query_cases (virt : Nat) :
    (pagingQueryPage s p virt = none ∧ userPte s (slotOf p virt) = none) ∨
    ∃ e, s.mem (s.mem p (pdIndex virt)).addr (ptIndex virt) = e ∧
      pagingQueryPage s p virt = some e.mapping ∧ (s.mem p (pdIndex virt)).present = true ∧
      e.present = true ∧ (e.user = true → (s.mem p (pdIndex virt)).user = true) ∧
      userPte s (slotOf p virt) = if e.user then some e else none := by
  unfold pagingQueryPage
  rcases h.walk_cases hp virt with ⟨hw, hnone⟩ | ⟨hw, hpres, hpte⟩
  · exact .inl ⟨by rw [hw], hnone⟩
  · refine .inr ⟨_, rfl, by rw [hw]; rfl, hpres, hpte, ?_, ?_⟩
    · intro huser
      by_contra hnu
      have hk := h.kernPde p hp _ (pdIndex_lt virt) hpres (by simpa using hnu)
      have := h.kern _ hk _ (ptIndex_lt virt)
      rw [Entry.userPresent, hpte, huser] at this
      cases this
    · unfold userPte slotOf Entry.view
      cases hpu : (s.mem p (pdIndex virt)).user with
      | true => simp [Entry.userPresent, hpres, hpu, hpte]
      | false =>
        have hk := h.kernPde p hp _ (pdIndex_lt virt) hpres hpu
        have hnu := h.kern _ hk _ (ptIndex_lt virt)
        rw [Entry.userPresent, hpte, Bool.true_and] at hnu
        simp [Entry.userPresent, hpu, hnu]

omit h hp

/-! ## The PTE of a page, the kernel's included -/

theorem pteAt_of_mem_eq (h : s'.mem = s.mem) (pd virt : Nat) :
    pteAt s' pd virt = pteAt s pd virt := by
  unfold pteAt
  rw [h]

theorem pagingQueryPage_eq (hpd : physPtr pd = true) (virt : Nat) : pagingQueryPage s pd virt
      = if (pteAt s pd virt).present then some (pteAt s pd virt).mapping else none := by
  unfold pagingQueryPage pagingWalk pagingLookupSlot pteAt
  dsimp only
  rw [if_neg (by simp [hpd])]
  cases hpres : (s.mem pd (pdIndex virt)).present with
  | false => rfl
  | true =>
    cases hptr : physPtr (s.mem pd (pdIndex virt)).addr with
    | false => rfl
    | true =>
      cases hpte : (s.mem (s.mem pd (pdIndex virt)).addr (ptIndex virt)).present with
      | false => simp [hpte]
      | true => simp [hpte, Entry.mapping]

include h hp

theorem PagingInv.query_eq (virt : Nat) : pagingQueryPage s p virt
      = if (pteAt s p virt).present then some (pteAt s p virt).mapping else none :=
  pagingQueryPage_eq (h.live_physPtr (h.pd p hp).1) virt

/-- What the user sees of a page is its PTE, if that has the user bit. -/
theorem PagingInv.userPte_slotOf (virt : Nat) :
    userPte s (slotOf p virt) = (pteAt s p virt).view := by
  unfold userPte slotOf pteAt
  cases hpres : (s.mem p (pdIndex virt)).present with
  | false => simp [Entry.userPresent, hpres, Entry.view]
  | true =>
    cases huser : (s.mem p (pdIndex virt)).user with
    | true =>
      have hu : (s.mem p (pdIndex virt)).userPresent = true := by
        simp [Entry.userPresent, hpres, huser]
      rw [if_pos hu, h.live_physPtr (h.userPde p hp _ (pdIndex_lt virt) hu).1]
      rfl
    | false =>
      have hk := h.kernPde p hp _ (pdIndex_lt virt) hpres huser
      rw [if_neg (by simp [Entry.userPresent, huser])]
      split
      · rw [Entry.view, h.kern _ hk _ (ptIndex_lt virt)]
        rfl
      · rfl

/-- The page tables of a directory are neither the directory nor an unused page. -/
theorem PagingInv.table_ne (hi : i < 1024)
    (hpres : (s.mem p i).present = true) (ht : t = p ∨ uses K live s t = 0) :
    (s.mem p i).addr ≠ t := by
  cases huser : (s.mem p i).user with
  | true =>
    have hu : (s.mem p i).userPresent = true := by simp [Entry.userPresent, hpres, huser]
    rcases ht with rfl | ht
    · exact (h.live_sole hp).2.2.2 t hp i hi hu
    · exact (uses_zero ht).2.2.2 p hp i hi hu
  | false =>
    have hk := h.kernPde p hp i hi hpres huser
    rcases ht with rfl | ht
    · exact fun he => (h.live_sole hp).1 (he ▸ hk)
    · exact fun he => (uses_zero ht).2.1 (he ▸ hk)

/-- A new page table shows what was there before, but for one PTE in it. -/
theorem PagingInv.pteAt_newTable {g : Nat → Entry}
    (hnew : NewTable K live X s s1 p virt t g) (e : Entry)
    (hw : ¬ (pdIndex w = pdIndex virt ∧ ptIndex w = ptIndex virt)) :
    pteAt (s1.newTable p virt t g e) p w = pteAt s p w := by
  have hpt : p ≠ t := fun hc => (uses_zero hnew.unused).1 (hc ▸ hp)
  have hdir : ∀ k, (s1.newTable p virt t g e).mem p k = if k = pdIndex virt
      then pagingEntryBuild t { present := true, writable := true, user := true } else s.mem p k := by
    intro k
    rw [Phys.newTable, Phys.setEntry_mem_page e hpt, Phys.setEntry_mem, Phys.setTable_mem, if_neg hpt,
      hnew.mem]
    simp
  by_cases hi : pdIndex w = pdIndex virt
  · have hj : ptIndex w ≠ ptIndex virt := fun hc => hw ⟨hi, hc⟩
    have haddr : (pagingEntryBuild t { present := true, writable := true, user := true }).addr = t :=
      pageDown_of_aligned hnew.page.1
    rw [← hnew.same w hi, pteAt, hdir, if_pos hi, haddr, hnew.inv.live_physPtr hnew.page]
    rw [Bool.and_true, if_pos (show (pagingEntryBuild t _).present = true from rfl), Phys.newTable,
      Phys.setEntry_mem, if_neg fun hc => hj hc.2, Phys.setEntry_mem_page _ hpt.symm,
      Phys.setTable_mem, if_pos rfl]
  · unfold pteAt
    rw [hdir, if_neg hi]
    split
    next hc =>
      simp only [Bool.and_eq_true] at hc
      have hne := h.table_ne hp (pdIndex_lt w) hc.1 (.inr hnew.unused)
      rw [Phys.newTable, Phys.setEntry_mem_page e hne,
        Phys.setEntry_mem_page _ (h.table_ne hp (pdIndex_lt w) hc.1 (.inl rfl)),
        Phys.setTable_mem, if_neg hne, hnew.mem]
    · rfl

/-- A store to one PTE of the address space's own table. -/
theorem PagingInv.pteAt_store (hi : i < 1024) (hu : (s.mem p i).userPresent = true) (e : Entry)
    (hw : ¬ (pdIndex w = i ∧ ptIndex w = j)) :
    pteAt (s.setEntry (s.mem p i).addr j e) p w = pteAt s p w := by
  obtain ⟨hnl, hnk, -, -, hone⟩ := h.table_sole hp hi hu
  have hdir : (s.setEntry (s.mem p i).addr j e).mem p = s.mem p :=
    Phys.setEntry_mem_page e fun hc => hnl (hc ▸ hp)
  unfold pteAt
  rw [hdir]
  split
  next hc =>
    simp only [Bool.and_eq_true] at hc
    rw [Phys.setEntry_mem]
    refine if_neg fun hsame => hw ⟨?_, hsame.2⟩
    -- the same table: then it is the user's, and behind one PDE only
    cases huser : (s.mem p (pdIndex w)).user with
    | true =>
      exact (hone p hp _ (pdIndex_lt w) (by simp [Entry.userPresent, hc.1, huser]) hsame.1).2
    | false => exact absurd (hsame.1 ▸ h.kernPde p hp _ (pdIndex_lt w) hc.1 huser) hnk
  · rfl

omit h hp

/-- Mapping a user page leaves the PTE of every other page of that address space, the
kernel's pages included. -/
theorem PagingInv.map_pteAt (h : PagingInv K live X s) (phys : Nat) {flags : PgFlags}
    (hp : p ∈ live) (huser : flags.user = true) (hw : slotOf p w ≠ slotOf p virt) :
    pteAt (pagingMapPage s p virt phys flags).2 p w = pteAt s p w := by
  have hw' : ¬ (pdIndex w = pdIndex virt ∧ ptIndex w = ptIndex virt) := fun hc =>
    hw (by unfold slotOf; rw [hc.1, hc.2])
  rcases h.mapPage_cases virt phys flags hp (.inl huser) rfl with
    hbad | ⟨-, ⟨t, s1, g, hnew, hr⟩ | ⟨hu, hr⟩⟩
  · exact pteAt_of_mem_eq hbad.2.2 p w
  · rw [hr]
    exact h.pteAt_newTable hp hnew _ hw'
  · rw [hr]
    exact h.pteAt_store hp (pdIndex_lt virt) hu _ hw'

/-- Changing the flags of a PTE in a table shared with the kernel: no user sees it. -/
theorem PagingInv.setKern (h : PagingInv K live X s) {k : Nat} (hk : k ∈ K)
    (hnu : e.userPresent = false) (haddr : e.addr = (s.mem k j).addr)
    (hpres : (s.mem k j).present = true) :
    PagingInv K live X (s.setEntry k j e) ∧
      ∀ y ∈ slots live, userPte (s.setEntry k j e) y = userPte s y := by
  have hlive : ∀ q ∈ live, (s.setEntry k j e).mem q = s.mem q :=
    fun q hq => Phys.setEntry_mem_page e (fun he => (h.live_sole hq).1 (he ▸ hk))
  have htab : ∀ q ∈ live, ∀ i < 1024, (s.mem q i).userPresent = true →
      (s.setEntry k j e).mem (s.mem q i).addr = s.mem (s.mem q i).addr :=
    fun q hq i hi hu => Phys.setEntry_mem_page e (fun he => (h.table_sole hq hi hu).2.1 (he ▸ hk))
  have hview : ∀ y ∈ slots live, userPte (s.setEntry k j e) y = userPte s y := by
    rintro ⟨q, i, l⟩ hy
    obtain ⟨hq, hi, -⟩ := mem_slots.mp hy
    exact userPte_eq (congrFun (hlive q hq) i) (htab q hq i hi)
  refine ⟨?_, hview⟩
  refine
    { pmm := h.pmm, max := h.max, zero := h.zero, kdir := h.kdir, kpde := ?_, kern := ?_,
      pd := h.pd, userPde := ?_, kernPde := ?_, frame := ?_, acct := ?_ }
  · intro i hi hp
    rw [Phys.setEntry_mem] at hp ⊢
    split
    next hc =>
      obtain ⟨rfl, rfl⟩ := hc
      rw [haddr]
      exact h.kpde i hi hpres
    next hc =>
      rw [if_neg hc] at hp
      exact h.kpde i hi hp
  · intro k' hk' i hi
    rw [Phys.setEntry_mem]
    split
    · exact hnu
    · exact h.kern k' hk' i hi
  · intro q hq; rw [hlive q hq]; exact h.userPde q hq
  · intro q hq; rw [hlive q hq]; exact h.kernPde q hq
  · intro f y hy hm
    exact h.frame f y hy ((mapsAt_eq (hview y hy) f).symm.trans hm)
  · intro f hf
    have huses : uses K live (s.setEntry k j e) f = uses K live s f :=
      uses_congr (fun q hq i _ => by rw [hlive q hq])
        (fun q hq i hi hu l _ g => by rw [htab q hq i hi hu]) f
    rw [huses]
    exact h.acct f hf

/-- `arch_mm_map` fails before it starts, or is `paging_map_page`. -/
theorem archMmMap_cases (s : Phys) (pd virt phys : Nat) (flags : MapFlags) :
    archMmMap s pd virt phys flags = (-1, s) ∨
    archMmMap s pd virt phys flags = pagingMapPage s pd virt phys (archMmToPagingFlags flags) := by
  unfold archMmMap
  split
  · exact .inl rfl
  · split
    · exact .inl rfl
    · exact .inr rfl

/-! ## One page -/

/-- What `munmap` and `mprotect` do to a slot: the page goes, or its write access
changes. It is given only where `g` holds, and never to a copy-on-write page. -/
def Adjusted (g : Prop) (v v' : Option Entry) : Prop :=
  ∀ e', v' = some e' → ∃ e w, v = some e ∧ e' = { e with writable := w } ∧
    (w = true → e.writable = true ∨ g ∧ e.cow = false)

theorem Adjusted.refl (g : Prop) (v : Option Entry) : Adjusted g v v :=
  fun e he => ⟨e, e.writable, he, rfl, .inl⟩

theorem Adjusted.none (g : Prop) (v : Option Entry) : Adjusted g v none :=
  nofun

theorem Adjusted.trans {v'' : Option Entry} (h : Adjusted g v v')
    (h' : Adjusted g v' v'') : Adjusted g v v'' := by
  intro e'' he''
  obtain ⟨e', w', he', rfl, hw'⟩ := h' e'' he''
  obtain ⟨e, w, he, rfl, hw⟩ := h e' he'
  refine ⟨e, w', he, rfl, fun hw1 => ?_⟩
  rcases hw' hw1 with hw2 | hw2
  · exact hw hw2
  · exact .inr hw2

theorem Adjusted.mono {g' : Prop} (h : Adjusted g v v') (hg : g → g') : Adjusted g' v v' := by
  intro e' he'
  obtain ⟨e, w, he, rfl, hw⟩ := h e' he'
  exact ⟨e, w, he, rfl, fun hw1 => (hw hw1).imp_right fun hc => ⟨hg hc.1, hc.2⟩⟩

include h hp

/-- A user page goes, or nothing happens. -/
theorem PagingInv.unmapUserPage_spec (page : Nat) : PagingInv K live X (unmapUserPage p s page) ∧
      ∀ y ∈ slots live, Adjusted False (userPte s y) (userPte (unmapUserPage p s page) y) := by
  unfold unmapUserPage
  rcases h.query_cases hp page with ⟨hq, -⟩ | ⟨e, -, hq, -, -, huser, -⟩
  · rw [hq]
    exact ⟨h, fun _ _ => Adjusted.refl _ _⟩
  · rw [hq]
    dsimp only
    split
    · exact ⟨h, fun _ _ => Adjusted.refl _ _⟩
    next hu =>
      have hpu := huser (by simpa [Entry.mapping] using hu)
      obtain ⟨hinv, -, hview⟩ := h.unmap page hp fun _ => hpu
      refine ⟨hinv, fun y hy => ?_⟩
      rw [hview y hy]
      split
      · exact Adjusted.none _ _
      · exact Adjusted.refl _ _

omit h hp

/-- The slot `x` now shows `e`, and nothing else changed. -/
def SetsSlot (live : Finset Nat) (s s' : Phys) (x : Nat × Nat × Nat) (e : Entry) : Prop :=
  ∀ y ∈ slots live, userPte s' y = if y = x then some e else userPte s y

/-- What a user's own page is mapped with. -/
structure MapFlags.Own (flags : MapFlags) : Prop where
  present : flags.present = true
  user : flags.user = true
  io : flags.io = false
  nc : flags.nc = false

/-- The slot of a page in terms of PTEs. -/
theorem PagingInv.pteAt_of_sets (h : PagingInv K live X s') (hp : p ∈ live) (hset : SetsSlot live s s' (slotOf p page) e) : pteAt s' p page = e := by
  have hsee := hset _ (slotOf_mem hp page)
  rw [if_pos rfl, h.userPte_slotOf hp page] at hsee
  unfold Entry.view at hsee
  split at hsee
  · exact Option.some.inj hsee
  · cases hsee

include h hp

/-- A user page comes from the frame allocator: either `arch_mm_map` puts a frame
nobody used at its slot, or it fails and the frame can go back. -/
theorem PagingInv.allocMap (page : Nat) (hown : flags.Own) (ha : pmmAllocPage s = (a, s1)) (ha0 : a ≠ 0) :
    physPtr a = true ∧ uses K live s a = 0 ∧
    (((archMmMap s1 p page a flags).1 = 0 ∧ PagingInv K live X (archMmMap s1 p page a flags).2 ∧
      SetsSlot live s (archMmMap s1 p page a flags).2 (slotOf p page)
        { archMmToPagingFlags flags with addr := a } ∧
      ∀ w, slotOf p w ≠ slotOf p page → pteAt (archMmMap s1 p page a flags).2 p w = pteAt s p w) ∨
     ((archMmMap s1 p page a flags).1 = -1 ∧
      PagingInv K live X (pmmFreePage (archMmMap s1 p page a flags).2 a) ∧
      (pmmFreePage (archMmMap s1 p page a flags).2 a).mem = s.mem)) := by
  rcases h.alloc with ha' | ⟨b, s2, ha', -, hap, huses, -, -, hmem, -, hinv, -⟩
  · rw [ha] at ha'
    exact absurd (Prod.mk.inj ha').1 ha0
  rw [ha] at ha'
  cases ha'
  have hfree : ∀ s2 : Phys, s2.mem = s.mem → PagingInv K live (bump X a) s2 →
      PagingInv K live X (pmmFreePage s2 a) ∧ (pmmFreePage s2 a).mem = s.mem := fun s2 hm h2 =>
    ⟨h2.release hap.1, hm⟩
  refine ⟨hinv.live_physPtr hap, huses, ?_⟩
  rcases archMmMap_cases s1 p page a flags with he | he
  · rw [he]
    exact .inr ⟨rfl, hfree s1 hmem hinv⟩
  · rw [he]
    have hfl : (pagingEntryBuild a (archMmToPagingFlags flags)) =
        { archMmToPagingFlags flags with addr := a } := by
      unfold pagingEntryBuild
      rw [pageDown_of_aligned hap.1]
    have hholds : ∀ f, ({ archMmToPagingFlags flags with addr := a } : Entry).holds f
        = decide (f = a) := by
      intro f
      simp [Entry.holds, Entry.userPresent, archMmToPagingFlags, hown.present, hown.user, hown.io,
        hown.nc, eq_comm]
    obtain ⟨-, ⟨hrc, hmap, hview⟩ | ⟨hrc, hmap, hm⟩⟩ := hinv.map page a
      (archMmToPagingFlags flags) X hp (.inl hown.user)
      (by
        intro f hf
        rw [hfl, hholds] at hf
        rw [of_decide_eq_true hf]
        exact hap)
      (by
        intro f
        rw [hfl, hholds]
        simp [bump])
    · refine .inl ⟨hrc, hmap, fun y hy => ?_, fun w hw => ?_⟩
      · rw [hview y hy, hfl]
        have hsome : ({ archMmToPagingFlags flags with addr := a } : Entry).view
            = some { archMmToPagingFlags flags with addr := a } := by
          simp [Entry.view, Entry.userPresent, archMmToPagingFlags, hown.present, hown.user]
        rw [hsome, userPte_of_mem_eq hmem]
        rfl
      · rw [hinv.map_pteAt a hp hown.user hw, pteAt_of_mem_eq hmem]
    · exact .inr ⟨hrc, hfree _ (by rw [hm, hmem]) hmap⟩

/-- A page on demand: nothing, or a frame nobody uses appears at its slot. -/
theorem PagingInv.mapFresh_cases (page : Nat) (hown : flags.Own) :
    PagingInv K live X (mapFresh s p page flags).2 ∧
    ((mapFresh s p page flags).1 = -1 ∧ (mapFresh s p page flags).2.mem = s.mem ∨
     (mapFresh s p page flags).1 = 0 ∧ ∃ a s1, pmmAllocPage s = (a, s1) ∧ a ≠ 0 ∧ physPtr a = true ∧
      uses K live s a = 0 ∧
      SetsSlot live s (mapFresh s p page flags).2 (slotOf p page)
        { archMmToPagingFlags flags with addr := a } ∧
      ∀ w, slotOf p w ≠ slotOf p page → pteAt (mapFresh s p page flags).2 p w = pteAt s p w) := by
  unfold mapFresh
  rcases h.alloc with ha | ⟨a, s1, ha, ha0, -⟩
  · rw [ha]
    exact ⟨h, .inl ⟨rfl, rfl⟩⟩
  obtain ⟨hptr, huses, ⟨hrc, hmap, hset⟩ | ⟨hrc, hmap, hm⟩⟩ :=
    h.allocMap hp page hown ha ha0
  · rw [ha]
    dsimp only
    rw [if_neg ha0, if_neg (by simp [hptr]), if_neg (by rw [hrc]; decide)]
    exact ⟨hmap, .inr ⟨rfl, a, s1, rfl, ha0, hptr, huses, hset⟩⟩
  · rw [ha]
    dsimp only
    rw [if_neg ha0, if_neg (by simp [hptr]), if_pos (by rw [hrc]; decide)]
    exact ⟨hmap, .inl ⟨rfl, hm⟩⟩

omit h hp

/-- What a copy-on-write break can do to the slot it is asked about. -/
inductive CowBroken (K live : Finset Nat) (s s' : Phys) (x : Nat × Nat × Nat) : Prop where
  | same (h : ∀ y ∈ slots live, userPte s' y = userPte s y)
  | copied (e : Entry) (hfresh : uses K live s e.addr = 0) (hcow : e.cow = false)
      (h : SetsSlot live s s' x e)
  | taken (e : Entry) (hold : userPte s x = some e) (hio : e.io = false)
      (hsole : uses K live s e.addr ≤ 1)
      (h : SetsSlot live s s' x { e with cow := false, writable := true })

/-- The PTE `break_cow` maps the copy of `e`'s page with. -/
def Entry.copyAt (e : Entry) (a : Nat) : Entry :=
  pagingEntryBuild a (archMmToPagingFlags { e.mapping.flags with write := true, cow := false })

theorem Entry.copyAt_addr (e : Entry) (ha : a % pageSize = 0) :
    (e.copyAt a).addr = a := pageDown_of_aligned ha

theorem Entry.copyAt_userPresent (e : Entry) (a : Nat) : (e.copyAt a).userPresent = e.user := by
  simp [Entry.copyAt, Entry.userPresent, pagingEntryBuild, archMmToPagingFlags, Entry.mapping]

theorem Entry.copyAt_holds (ha : a % pageSize = 0) (hu : e.user = true)
    (hio : e.io = false) (g : Nat) : (e.copyAt a).holds g = decide (a = g) := by
  have hi : (e.copyAt a).io = false := by
    simp [Entry.copyAt, pagingEntryBuild, archMmToPagingFlags, Entry.mapping, hio]
  simp [Entry.holds, Entry.copyAt_userPresent, hu, hi, Entry.copyAt_addr e ha]

include h hp

/-- Breaking copy-on-write: the only user of the frame takes it over, any other
gets a copy in a frame nobody uses. -/
theorem PagingInv.breakCow_spec (page : Nat)
    (hcu : ∀ m, pagingQueryPage s p page = some m → m.flags.cow = true → m.flags.user = true)
    (hci : ∀ e, userPte s (slotOf p page) = some e → e.cow = true → e.io = false) :
    PagingInv K live X (breakCow s p page).2 ∧
      CowBroken K live s (breakCow s p page).2 (slotOf p page) := by
  have hsame : PagingInv K live X s ∧ CowBroken K live s s (slotOf p page) :=
    ⟨h, .same fun _ _ => rfl⟩
  unfold breakCow
  rcases h.query_cases hp page with ⟨hq, -⟩ | ⟨e, he, hq, hpres, hpte, huser, hview⟩
  · rw [hq]; exact hsame
  rw [hq]
  dsimp only
  split
  · exact hsame
  next hcow =>
  have hc : e.cow = true := by simpa [Entry.mapping] using hcow
  have hu : e.user = true := hcu _ hq hc
  rw [if_pos hu] at hview
  have hio := hci e hview hc
  have hpu : (s.mem p (pdIndex page)).userPresent = true := by
    simp [Entry.userPresent, hpres, huser hu]
  have hold : e.holds e.addr = true := by simp [Entry.holds, Entry.userPresent, hpte, hu, hio]
  have hpage : IsPage s e.addr := h.frame _ _ (slotOf_mem hp page) (by
    simp [mapsAt, slotOf, hpu, he, hold])
  split
  next hrc =>
    -- the last reference: the PTE becomes writable in place
    obtain ⟨hinv, -, hupd⟩ := h.update page { cow := true } { write := true } hp fun _ => huser hu
    refine ⟨hinv, ?_⟩
    by_cases hok : (pagingUpdatePage s p page { cow := true } { write := true }).1 = 0
    · refine .taken e hview hio ?_ fun y hy => ?_
      · have hrc' : rcOf s e.addr ≤ 1 := by
          have := hpage.2
          simpa [pmmRefcount, pmmCoreRefcount, rcOf, Entry.mapping, Nat.not_le.mpr this] using hrc
        rcases h.acct _ hpage.1 with ha | ha <;> omega
      · rw [hupd y hy]
        by_cases hy' : y = slotOf p page
        · rw [if_pos ⟨hok, hy'⟩, if_pos hy', hy', hview]
          rfl
        · rw [if_neg (fun hc => hy' hc.2), if_neg hy']
    · refine .same fun y hy => ?_
      rw [hupd y hy, if_neg (fun hc => hok hc.1)]
  next hrc =>
  rcases h.alloc with ha | ⟨a, s1, ha, ha0, hap, huses, -, -, hmem, -, hinv, -⟩
  · rw [ha]; exact hsame
  rw [ha]
  have hfree : PagingInv K live X (pmmFreePage s1 a) ∧
      CowBroken K live s (pmmFreePage s1 a) (slotOf p page) := by
    exact ⟨hinv.release hap.1,
      .same fun y _ => userPte_of_mem_eq hmem y⟩
  rw [if_neg ha0]
  split
  · exact hfree
  next =>
  rcases archMmMap_cases s1 p page a
    { e.mapping.flags with write := true, cow := false } with hm | hm
  · rw [hm]
    exact hfree
  have hpu1 : (s1.mem p (pdIndex page)).userPresent = true := by rw [hmem]; exact hpu
  rw [hm, hinv.mapPage_over hp hpu1]
  split
  · exact hfree
  next =>
  have hnew := Entry.copyAt_holds hap.1 hu hio
  refine ⟨?_, .copied (e.copyAt a) (by rw [Entry.copyAt_addr e hap.1]; exact huses) rfl ?_⟩
  · refine hinv.replacePte hp (pdIndex_lt page) (ptIndex_lt page) hpu1
      (by rw [hmem, he]; exact hold) (e.copyAt a) (fun g hg => ?_) (fun g => ?_)
    · rw [hnew] at hg
      rw [← of_decide_eq_true hg]
      exact hap
    · rw [hnew]
      simp [bump, eq_comm]
  · intro y hy
    have hstore : userPte (s1.setEntry (s1.mem p (pdIndex page)).addr (ptIndex page)
        (e.copyAt a)) y = _ := hinv.userPte_store hp (pdIndex_lt page) hpu1 (e.copyAt a) hy
    have hsee : (e.copyAt a).view = some (e.copyAt a) := by
      rw [Entry.view, Entry.copyAt_userPresent, if_pos hu]
    rw [hsee, userPte_of_mem_eq hmem] at hstore
    exact hstore

/-- Setting the write bit of a PTE the address space can reach. -/
theorem PagingInv.setWrite (he : s.mem (s.mem p (pdIndex page)).addr (ptIndex page) = e)
    (hq : pagingQueryPage s p page = some e.mapping) {w : Bool} (hw : e.writable ≠ w) :
    pagingUpdatePage s p page { write := e.writable } { write := w } =
        (0, s.setEntry (s.mem p (pdIndex page)).addr (ptIndex page) { e with writable := w }) ∧
      PagingInv K live X
        (s.setEntry (s.mem p (pdIndex page)).addr (ptIndex page) { e with writable := w }) ∧
      ∀ y ∈ slots live, userPte
          (s.setEntry (s.mem p (pdIndex page)).addr (ptIndex page) { e with writable := w }) y =
        if y = slotOf p page then (userPte s y).map fun e => { e with writable := w }
        else userPte s y := by
  have hnew : updatedEntry e { write := e.writable } { write := w } = { e with writable := w } := by
    unfold updatedEntry
    cases hew : e.writable <;> cases w <;> simp_all
  rcases h.walk_cases hp page with ⟨hwalk, -⟩ | ⟨hwalk, hpres, hpte⟩
  · rw [pagingQueryPage, hwalk] at hq
    cases hq
  have hupd : pagingUpdatePage s p page { write := e.writable } { write := w } =
      (0, s.setEntry (s.mem p (pdIndex page)).addr (ptIndex page) { e with writable := w }) := by
    unfold pagingUpdatePage
    rw [hwalk]
    simp [he, hnew]
  refine ⟨hupd, ?_⟩
  cases hu : (s.mem p (pdIndex page)).user with
  | true =>
    obtain ⟨hinv, -, hview⟩ := h.update page { write := e.writable } { write := w } hp fun _ => hu
    rw [hupd] at hinv hview
    refine ⟨hinv, fun y hy => ?_⟩
    rw [hview y hy]
    by_cases hy' : y = slotOf p page
    · subst hy'
      rw [if_pos ⟨rfl, rfl⟩, if_pos rfl]
      simp only [slotOf, userPte, he]
      split
      · unfold Entry.view
        split
        · simp [hnew]
        · rfl
      · rfl
    · rw [if_neg (fun hc => hy' hc.2), if_neg hy']
  | false =>
    -- a PTE of the kernel's, which the process reaches but the user does not
    have hk := h.kernPde p hp _ (pdIndex_lt page) hpres hu
    have hnu := h.kern _ hk _ (ptIndex_lt page)
    rw [he] at hnu
    obtain ⟨hinv, hview⟩ := h.setKern (e := { e with writable := w }) hk hnu (by rw [he]) hpte
    refine ⟨hinv, fun y hy => ?_⟩
    rw [hview y hy]
    split
    next hy' =>
      have hnone : userPte s y = none := by simp [hy', slotOf, userPte, Entry.userPresent, hu]
      rw [hnone]
      rfl
    · rfl

omit h hp

theorem mprotectFlags_eq_iff {prot : Nat} (e : Entry) :
    mprotectFlags e.mapping.flags prot = e.mapping.flags ↔
      protHasUserAccess prot = e.user ∧ (protWrite prot && !e.cow) = e.writable := by
  unfold mprotectFlags Entry.mapping
  constructor
  · intro h
    exact ⟨congrArg MapFlags.user h, congrArg MapFlags.write h⟩
  · rintro ⟨h1, h2⟩
    rw [h1, h2]

/-- The PTE that takes a page away from the user. -/
def Entry.hidden (e : Entry) (prot : Nat) : Entry :=
  pagingEntryBuild e.addr (archMmToPagingFlags (mprotectFlags e.mapping.flags prot))

include h hp

/-- What one page of `mprotect` does to a present PTE: nothing, for it is as it should be or its
frame is out of range; nothing, for the user is to get a page without `PG_USER`; it changes
the write bit; or it takes the page away from the user. -/
theorem PagingInv.applyMprotectPage_cases (prot : Nat)
    (he : s.mem (s.mem p (pdIndex page)).addr (ptIndex page) = e)
    (hq : pagingQueryPage s p page = some e.mapping)
    (hpres : (s.mem p (pdIndex page)).present = true) (hpte : e.present = true)
    (huser : e.user = true → (s.mem p (pdIndex page)).user = true) :
    let s' := applyMprotectPage p prot s page
    (s' = s ∧ (protHasUserAccess prot = e.user ∧ (protWrite prot && !e.cow) = e.writable ∨
      e.addr > 0xFFFFFFFF)) ∨
    (s'.mem = s.mem ∧ PagingInv K live X s' ∧ e.user = false ∧ protHasUserAccess prot = true) ∨
    (s' = s.setEntry (s.mem p (pdIndex page)).addr (ptIndex page)
        { e with writable := protWrite prot && !e.cow } ∧
      protHasUserAccess prot = e.user ∧ e.writable ≠ (protWrite prot && !e.cow)) ∨
    (s' = s.setEntry (s.mem p (pdIndex page)).addr (ptIndex page) (e.hidden prot) ∧
      e.user = true ∧ protHasUserAccess prot = false) := by
  intro s'
  unfold s' applyMprotectPage
  rw [hq]
  dsimp only
  split
  next hsame => exact .inl ⟨rfl, .inl ((mprotectFlags_eq_iff e).mp hsame)⟩
  next hne =>
  split
  next hch =>
    have hw : e.writable ≠ (protWrite prot && !e.cow) := fun hc => hch.2 hc.symm
    have hupd : pagingUpdatePage s p page { write := e.mapping.flags.write }
        { write := (mprotectFlags e.mapping.flags prot).write } = _ := (h.setWrite hp he hq hw).1
    rw [hupd]
    exact .inr (.inr (.inl ⟨rfl, hch.1, hw⟩))
  next hch =>
  have hflip : protHasUserAccess prot ≠ e.user := by
    intro hc
    by_cases hw : (protWrite prot && !e.cow) = e.writable
    · exact hne ((mprotectFlags_eq_iff e).mpr ⟨hc, hw⟩)
    · exact hch ⟨hc, hw⟩
  cases hu : e.user with
  | false =>
    -- the page is taken for one of the kernel's
    have hacc : protHasUserAccess prot = true := by
      rw [hu] at hflip
      simpa using hflip
    refine .inr (.inl ?_)
    rcases archMmMap_cases s p page e.mapping.physAddr (mprotectFlags e.mapping.flags prot)
      with hm | hm
    · rw [hm]
      exact ⟨rfl, h, rfl, hacc⟩
    · rw [hm]
      rcases h.mapPage_cases page e.mapping.physAddr
        (archMmToPagingFlags (mprotectFlags e.mapping.flags prot)) hp (.inl hacc) rfl with
        ⟨-, hinv, hmem⟩ | ⟨hok, -⟩
      · exact ⟨hmem, hinv, rfl, hacc⟩
      · rw [he, hu] at hok
        exact absurd (hok hacc hpres hpte) (by simp)
  | true =>
    have hacc : protHasUserAccess prot = false := by
      rw [hu] at hflip
      simpa using hflip
    have hpu : (s.mem p (pdIndex page)).userPresent = true := by
      simp [Entry.userPresent, hpres, huser hu]
    have hnu : (archMmToPagingFlags (mprotectFlags e.mapping.flags prot)).user = false := hacc
    unfold archMmMap
    split
    next hfar => exact .inl ⟨rfl, .inr hfar⟩
    rw [if_neg (by simp [show (mprotectFlags e.mapping.flags prot).user = false from hacc]),
      h.mapPage_over hp hpu, hnu]
    exact .inr (.inr (.inr ⟨rfl, rfl, hacc⟩))

/-- One page of `mprotect`. -/
theorem PagingInv.applyMprotectPage_spec (prot page : Nat) :
    PagingInv K live X (applyMprotectPage p prot s page) ∧
      ∀ y ∈ slots live, Adjusted (y = slotOf p page ∧ protWrite prot = true) (userPte s y)
        (userPte (applyMprotectPage p prot s page) y) := by
  have hsame : PagingInv K live X s ∧ ∀ y ∈ slots live,
      Adjusted (y = slotOf p page ∧ protWrite prot = true) (userPte s y) (userPte s y) :=
    ⟨h, fun _ _ => Adjusted.refl _ _⟩
  rcases h.query_cases hp page with ⟨hq, -⟩ | ⟨e, he, hq, hpres, hpte, huser, hview⟩
  · unfold applyMprotectPage
    rw [hq]
    exact hsame
  rcases h.applyMprotectPage_cases hp prot he hq hpres hpte huser with ⟨hs, -⟩ | ⟨hmem, hinv, -⟩ |
    ⟨hs, -, hw⟩ | ⟨hs, hu, hacc⟩
  · rw [hs]
    exact hsame
  · refine ⟨hinv, fun y _ => ?_⟩
    rw [userPte_of_mem_eq hmem]
    exact Adjusted.refl _ _
  · obtain ⟨-, hinv, hset⟩ := h.setWrite hp he hq hw
    rw [hs]
    refine ⟨hinv, fun y hy e' he' => ?_⟩
    rw [hset y hy] at he'
    split at he'
    next hy' =>
      obtain ⟨e0, he0, rfl⟩ := Option.map_eq_some_iff.mp he'
      refine ⟨e0, _, he0, rfl, fun hw => .inr ⟨⟨hy', ?_⟩, ?_⟩⟩
      · simp only [Bool.and_eq_true] at hw
        exact hw.1
      · rw [hy', hview] at he0
        split at he0
        · cases he0
          simp only [Bool.and_eq_true, Bool.not_eq_true'] at hw
          exact hw.2
        · cases he0
    · exact Adjusted.refl _ _ e' he'
  · have hpu : (s.mem p (pdIndex page)).userPresent = true := by
      simp [Entry.userPresent, hpres, huser hu]
    have hnone : (e.hidden prot).userPresent = false := by
      simp [Entry.hidden, pagingEntryBuild, Entry.userPresent, archMmToPagingFlags, mprotectFlags, hacc]
    have hholds : ∀ f, (e.hidden prot).holds f = false := fun f => by simp [Entry.holds, hnone]
    rw [hs]
    refine ⟨h.storeHeld hp (pdIndex_lt page) (ptIndex_lt page) hpu
      (fun f hf => absurd ((hholds f).symm.trans hf) (by simp)) (fun f => by simp [hholds]),
      fun y hy => ?_⟩
    have hstore : userPte (s.setEntry (s.mem p (pdIndex page)).addr (ptIndex page) _) y = _ :=
      h.userPte_store hp (pdIndex_lt page) hpu (e.hidden prot) hy
    rw [show (e.hidden prot).view = none by rw [Entry.view, hnone]; rfl] at hstore
    rw [hstore]
    split
    · exact Adjusted.none _ _
    · exact Adjusted.refl _ _

end

end Ops

end Drunix.Mm
