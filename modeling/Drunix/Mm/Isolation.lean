import Drunix.Mm.ClonePass2

/-!
# Fork isolation of page tables

The address spaces of the machine as a whole: a set of page directories in use
over one physical memory, changed by the calls of `paging.c` in any order, with
frames taken from and given back to the frame allocator in between.

`paging_isolation`: as long as no address space is cloned while one of its
`PG_USER` tables is without a present user PTE, every user page table belongs to
one directory, stays allocated while it is used, and no call on one address space
shows in `paging_query_page` of another. `clone_shares_empty_table` is what a
clone does otherwise: pass 1 hands the parent's own table to the child.
-/

namespace Drunix.Mm

open Lib

/-- The page directories in use and the memory they live in. -/
structure World where
  phys : Phys
  live : Finset Nat

/-- A call into the paging code, or of the frame allocator by its users. -/
inductive PagingOp where
  | create
  | clone (src : Nat)
  | map (pd virt phys : Nat) (flags : PgFlags)
  | unmap (pd virt : Nat)
  | update (pd virt : Nat) (clear set : MapFlags)
  | destroy (pd : Nat)
  | allocFrame
  | incref (frame : Nat)
  | decref (frame : Nat)

/-- A directory that was returned is in use from now on; `0` is a failed call. -/
def World.addPd (w : World) (r : Nat × Phys) : World :=
  ⟨r.2, if r.1 = 0 then w.live else insert r.1 w.live⟩

/-- One call. -/
def pagingStep (w : World) : PagingOp → World
  | .create => w.addPd (pagingCreateUserSpace w.phys)
  | .clone src => w.addPd (pagingCloneUserSpace w.phys src)
  | .map pd virt phys flags => ⟨(pagingMapPage w.phys pd virt phys flags).2, w.live⟩
  | .unmap pd virt => ⟨(pagingUnmapPage w.phys pd virt).2, w.live⟩
  | .update pd virt clear set => ⟨(pagingUpdatePage w.phys pd virt clear set).2, w.live⟩
  | .destroy pd => ⟨pagingDestroyUserSpace w.phys pd, w.live.erase pd⟩
  | .allocFrame => ⟨(pmmAllocPage w.phys).2, w.live⟩
  | .incref frame => ⟨pmmIncref w.phys frame, w.live⟩
  | .decref frame => ⟨pmmDecref w.phys frame, w.live⟩

/-- The address space a call works on. -/
def PagingOp.target : PagingOp → Option Nat
  | .clone src => some src
  | .map pd _ _ _ => some pd
  | .unmap pd _ => some pd
  | .update pd _ _ _ => some pd
  | .destroy pd => some pd
  | _ => none

/-- A frame with a reference no use accounts for: the caller's own. -/
def Spare (K live : Finset Nat) (s : Phys) (f : Nat) : Prop :=
  IsPage s f ∧ (uses K live s f < rcOf s f ∨ rcOf s f = 255)

/-- The PDE for `virt`, if there is one, is the address space's own. -/
def UserTable (s : Phys) (pd virt : Nat) : Prop :=
  (s.mem pd (pdIndex virt)).present = true → (s.mem pd (pdIndex virt)).user = true

/-- Directories are in use, a user mapping comes with a reference on its frame, the
tables shared with the kernel are not edited through a user address space, references
are dropped by their holder. The kernel keeps to this but for `mprotect` over an area of
the device aperture, whose tables are the kernel's. -/
def Legal (K : Finset Nat) (w : World) : PagingOp → Prop
  | .create => True
  | .clone src => src ∈ w.live
  | .map pd virt phys flags => pd ∈ w.live ∧ (flags.user = true ∨ UserTable w.phys pd virt) ∧
      ∀ f, (pagingEntryBuild phys flags).holds f = true → Spare K w.live w.phys f
  | .unmap pd virt => pd ∈ w.live ∧ UserTable w.phys pd virt
  | .update pd virt _ _ => pd ∈ w.live ∧ UserTable w.phys pd virt
  | .destroy pd => pd ∈ w.live
  | .allocFrame => True
  | .incref f => IsPage w.phys f ∧ f ∉ w.live ∧
      ∀ p ∈ w.live, ∀ i < 1024, (w.phys.mem p i).userPresent = true → (w.phys.mem p i).addr ≠ f
  | .decref f => Spare K w.live w.phys f

/-- A clone finds a present user PTE in every user page table of its source. -/
def CloneOk (w : World) : PagingOp → Prop
  | .clone src => ∀ i < 1024, (w.phys.mem src i).userPresent = true →
      hasUserPte w.phys (w.phys.mem src i).addr = true
  | _ => True

/-- The machine before the first user address space: the kernel's directory and
page tables `K` are allocated and hold no user PTE. -/
structure Booted (K : Finset Nat) (s : Phys) : Prop where
  pmm : PmmInv s.pmm
  max : s.pmm.maxPages ≤ 0x40000
  zero : s.pmm.refcounts 0 = 255
  kdir : pageDirAddr ∈ K
  kpde : ∀ i < 1024, (s.mem pageDirAddr i).present = true → (s.mem pageDirAddr i).addr ∈ K
  kern : ∀ k ∈ K, ∀ j < 1024, (s.mem k j).userPresent = false
  alloc : ∀ k ∈ K, 1 ≤ rcOf s k

theorem Booted.inv {K : Finset Nat} {s : Phys} (h : Booted K s) : PagingInv K ∅ (fun _ => 0) s where
  pmm := h.pmm
  max := h.max
  zero := h.zero
  kdir := h.kdir
  kpde := h.kpde
  kern := h.kern
  pd p hp := absurd hp (Finset.notMem_empty p)
  userPde p hp := absurd hp (Finset.notMem_empty p)
  kernPde p hp := absurd hp (Finset.notMem_empty p)
  frame f x hx := absurd (mem_slots.mp hx).1 (Finset.notMem_empty _)
  acct f _ := by
    left
    unfold uses slots count
    by_cases hf : f ∈ K
    · simpa [hf] using h.alloc f hf
    · simp [hf]

section Steps

variable {K : Finset Nat} {w : World}

/-- A frame just allocated is the caller's to map. -/
theorem PagingInv.spare_of_alloc {live : Finset Nat} {s : Phys}
    (h : PagingInv K live (fun _ => 0) s) (ha : (pmmAllocPage s).1 ≠ 0) :
    Spare K live (pmmAllocPage s).2 (pmmAllocPage s).1 := by
  rcases h.alloc with he | ⟨a, s', he, -, hpage, huses, -, hrc, hmem, -⟩
  · rw [he] at ha
    exact absurd rfl ha
  · rw [he]
    refine ⟨hpage, .inl ?_⟩
    rw [uses_of_mem_eq hmem, huses, hrc]
    exact Nat.zero_lt_one

/-- `paging_map_page` of a frame that the caller has a reference on, or of device memory: it
touches the address space it is called for, and shows the new PTE or nothing new. -/
theorem PagingInv.mapSpare {live : Finset Nat} {s : Phys} (h : PagingInv K live (fun _ => 0) s)
    {pd virt phys : Nat} {flags : PgFlags} (hp : pd ∈ live)
    (htable : flags.user = true ∨ (s.mem pd (pdIndex virt)).present = false ∨
      (s.mem pd (pdIndex virt)).user = true)
    (hframe : ∀ f, (pagingEntryBuild phys flags).holds f = true → Spare K live s f) :
    PagingInv K live (fun _ => 0) (pagingMapPage s pd virt phys flags).2 ∧
      OnlyTouches K live s (pagingMapPage s pd virt phys flags).2 pd ∧
      ((∀ y ∈ slots live, userPte (pagingMapPage s pd virt phys flags).2 y
          = if y = (pd, pdIndex virt, ptIndex virt) then (pagingEntryBuild phys flags).view
            else userPte s y) ∨
        (pagingMapPage s pd virt phys flags).2.mem = s.mem) := by
  by_cases hex : ∃ f, (pagingEntryBuild phys flags).holds f = true
  · -- the caller's spare reference goes to the PTE
    obtain ⟨f, hf⟩ := hex
    have hs := hframe f hf
    have hbump := h.spare hs.1.1 (by simpa using hs.2)
    have hX : ∀ g, 0 + (if (pagingEntryBuild phys flags).holds g then 1 else 0)
        ≤ bump (fun _ => 0) f g := by
      intro g
      simp only [Entry.holds, Bool.and_eq_true, Bool.not_eq_true', decide_eq_true_eq] at hf ⊢
      unfold bump
      split
      next hg => rw [if_pos (by rw [← hg.2.2, hf.2.2])]
      · omega
    obtain ⟨hot, ⟨-, hinv, hview⟩ | ⟨-, hinv, hmem⟩⟩ := hbump.map virt phys flags (fun _ => 0) hp
      htable (fun g hg => (hframe g hg).1) hX
    · exact ⟨hinv, hot, .inl hview⟩
    · exact ⟨hinv.mono fun _ => Nat.zero_le _, hot, .inr hmem⟩
  · have hX : ∀ g, 0 + (if (pagingEntryBuild phys flags).holds g then 1 else 0) ≤ 0 := by
      intro g
      have : ¬ (pagingEntryBuild phys flags).holds g = true := fun hc => hex ⟨g, hc⟩
      simp [this]
    obtain ⟨hot, ⟨-, hinv, hview⟩ | ⟨-, hinv, hmem⟩⟩ := h.map virt phys flags (fun _ => 0) hp
      htable (fun g hg => (hframe g hg).1) hX
    · exact ⟨hinv, hot, .inl hview⟩
    · exact ⟨hinv, hot, .inr hmem⟩

/-- One legal call keeps the ownership invariant and touches its target only. -/
theorem pagingStep_spec (h : PagingInv K w.live (fun _ => 0) w.phys) {op : PagingOp}
    (hl : Legal K w op) (hc : CloneOk w op) :
    PagingInv K (pagingStep w op).live (fun _ => 0) (pagingStep w op).phys ∧
      (∀ p, op.target = some p → p ∈ w.live ∧ OnlyTouches K w.live w.phys (pagingStep w op).phys p) ∧
      (op.target = none → ∀ a, uses K w.live w.phys a ≠ 0 →
        (pagingStep w op).phys.mem a = w.phys.mem a) ∧
      ∀ q ∈ w.live, op.target ≠ some q → q ∈ (pagingStep w op).live := by
  cases op with
  | create =>
    simp only [pagingStep, World.addPd, PagingOp.target]
    rcases h.create with he | ⟨n, s', he, hn0, hnl, huses, hinv, -, hmem⟩
    · rw [he]
      exact ⟨h, by simp, fun _ _ _ => rfl, fun q hq _ => hq⟩
    · rw [he]
      rw [if_neg hn0]
      refine ⟨hinv, by simp, fun _ a hau => hmem a fun hc => hau (hc ▸ huses), fun q hq _ => ?_⟩
      exact Finset.mem_insert_of_mem hq
  | clone src =>
    simp only [pagingStep, World.addPd, PagingOp.target]
    obtain ⟨n, s', he⟩ : ∃ n s', pagingCloneUserSpace w.phys src = (n, s') := ⟨_, _, rfl⟩
    rw [he]
    rcases h.clone hl hc he with ⟨hn0, hinv, hmem⟩ | ⟨hn0, hnl, hinv, hot, -⟩
    · rw [if_pos hn0]
      refine ⟨hinv, fun p hp => ?_, by simp, fun q hq _ => hq⟩
      cases hp
      exact ⟨hl, fun a _ hau => hmem a hau⟩
    · rw [if_neg hn0]
      refine ⟨hinv, fun p hp => ?_, by simp, fun q hq _ => Finset.mem_insert_of_mem hq⟩
      cases hp
      exact ⟨hl, hot⟩
  | map pd virt phys flags =>
    obtain ⟨hp, htable, hframe⟩ := hl
    have htable' : flags.user = true ∨ (w.phys.mem pd (pdIndex virt)).present = false ∨
        (w.phys.mem pd (pdIndex virt)).user = true := by
      rcases htable with ht | ht
      · exact .inl ht
      · cases hpres : (w.phys.mem pd (pdIndex virt)).present with
        | false => exact .inr (.inl rfl)
        | true => exact .inr (.inr (ht hpres))
    have hkeep := h.mapSpare hp htable' hframe
    refine ⟨hkeep.1, fun p hpe => ?_, by simp [PagingOp.target], fun q hq _ => hq⟩
    cases hpe
    exact ⟨hp, hkeep.2.1⟩
  | unmap pd virt =>
    obtain ⟨hinv, hot, -⟩ := h.unmap virt hl.1 hl.2
    refine ⟨hinv, fun p hpe => ?_, by simp [PagingOp.target], fun q hq _ => hq⟩
    cases hpe
    exact ⟨hl.1, hot⟩
  | update pd virt clear set =>
    obtain ⟨hinv, hot, -⟩ := h.update virt clear set hl.1 hl.2
    refine ⟨hinv, fun p hpe => ?_, by simp [PagingOp.target], fun q hq _ => hq⟩
    cases hpe
    exact ⟨hl.1, hot⟩
  | destroy pd =>
    obtain ⟨hinv, hot⟩ := h.destroy hl
    refine ⟨hinv, fun p hpe => ?_, by simp [PagingOp.target], fun q hq hne => ?_⟩
    · cases hpe
      exact ⟨hl, hot⟩
    · exact Finset.mem_erase.mpr ⟨fun he => hne (by simp [PagingOp.target, he]), hq⟩
  | allocFrame =>
    refine ⟨?_, by simp [PagingOp.target], fun _ _ _ => rfl, fun q hq _ => hq⟩
    unfold pagingStep
    rcases h.alloc with he | ⟨a, s', he, -, -, -, -, -, -, -, hinv, -⟩
    · rw [he]; exact h
    · rw [he]; exact hinv.mono fun _ => Nat.zero_le _
  | incref f =>
    refine ⟨?_, by simp [PagingOp.target], fun _ _ _ => rfl, fun q hq _ => hq⟩
    exact (h.incref hl.1 hl.2.1 hl.2.2).mono fun _ => Nat.zero_le _
  | decref f =>
    refine ⟨?_, by simp [PagingOp.target], fun _ _ _ => rfl, fun q hq _ => hq⟩
    exact (h.spare hl.1.1 (by simpa using hl.2)).decref hl.1.1 fun _ => Nat.le_refl _

/-- A run: legal calls only, and every clone finds a user PTE in each user table. -/
def SafeRun (K : Finset Nat) (s : Phys) (w : World) : Prop :=
  Reach pagingStep (fun w op => Legal K w op ∧ CloneOk w op) ⟨s, ∅⟩ w

theorem SafeRun.inv {s : Phys} (hb : Booted K s) (hr : SafeRun K s w) :
    PagingInv K w.live (fun _ => 0) w.phys :=
  Reach.inv (fun w => PagingInv K w.live (fun _ => 0) w.phys) hb.inv
    (fun _ _ h hok => (pagingStep_spec h hok.1 hok.2).1) hr

/-- A call leaves `paging_query_page` of every address space but its target alone. -/
theorem query_frame (h : PagingInv K w.live (fun _ => 0) w.phys) {op : PagingOp}
    (hl : Legal K w op) (hc : CloneOk w op) {q : Nat} (hq : q ∈ w.live) (hne : op.target ≠ some q)
    (v : Nat) : pagingQueryPage (pagingStep w op).phys q v = pagingQueryPage w.phys q v := by
  obtain ⟨-, hsome, hnone, -⟩ := pagingStep_spec h hl hc
  cases ht : op.target with
  | some p =>
    obtain ⟨hp, hot⟩ := hsome p ht
    exact h.query_of_onlyTouches hot hp hq (fun he => hne (by rw [ht, he])) v
  | none =>
    -- no target: touch the address space at most as a call on another one would
    refine h.query_of_touchesUnused (fun a ha => hnone ht a ha) hq v

/-- Every user page table belongs to one page directory and stays allocated, and
no call on one address space shows in another, in every state of a run. -/
theorem paging_isolation (K : Finset Nat) (s : Phys) (hb : Booted K s) (w : World)
    (hr : SafeRun K s w) :
    (∀ p ∈ w.live, ∀ q ∈ w.live, ∀ i < 1024, ∀ j < 1024, (w.phys.mem p i).userPresent = true →
      (w.phys.mem q j).userPresent = true → (w.phys.mem p i).addr = (w.phys.mem q j).addr → p = q) ∧
    (∀ op, Legal K w op → CloneOk w op → ∀ q ∈ w.live, op.target ≠ some q →
      q ∈ (pagingStep w op).live ∧
      ∀ v, pagingQueryPage (pagingStep w op).phys q v = pagingQueryPage w.phys q v) ∧
    ∀ p ∈ w.live, ∀ i < 1024, (w.phys.mem p i).userPresent = true →
      pmmCoreBitmapTest w.phys.pmm ((w.phys.mem p i).addr / pageSize) = true := by
  have hinv := hr.inv hb
  refine ⟨?_, ?_, ?_⟩
  · intro p hp q hq i hi j hj hpu hqu he
    exact ((hinv.table_sole hq hj hqu).2.2.2.2 p hp i hi hpu he).1
  · intro op hl hc q hq hne
    exact ⟨(pagingStep_spec hinv hl hc).2.2.2 q hq hne, query_frame hinv hl hc hq hne⟩
  · intro p hp i hi hu
    obtain ⟨hpage, hrc⟩ := hinv.userPde p hp i hi hu
    refine (hinv.pmm _ hpage.2).mpr ?_
    unfold rcOf at hrc
    omega

end Steps

/-! ## A clone of an address space with an emptied table -/

/-- A small machine: 32 frames, the first 24 reserved, one kernel page table. -/
def smallPhys : Phys where
  pmm := { bitmap := fun b => if b < 3 then 255 else 0
           refcounts := fun p => if p < 24 then 255 else 0
           maxPages := 32 }
  mem := fun page i =>
    if page = pageDirAddr ∧ i = 0 then { present := true, writable := true, addr := 0x12000 } else {}
  kernelEnd := 0x18000

/-- Its kernel tables. -/
def smallKernel : Finset Nat := {pageDirAddr, 0x12000}

theorem smallPhys_booted : Booted smallKernel smallPhys where
  pmm := by unfold PmmInv; decide
  max := by decide
  zero := rfl
  kdir := by decide
  kpde i _ hp := by
    unfold smallPhys at hp ⊢
    by_cases hi : i = 0
    · subst hi; decide
    · simp [hi] at hp
  kern k _ j _ := by
    unfold smallPhys
    dsimp only
    split <;> rfl
  alloc := by decide

/-- `PG_PRESENT | PG_WRITABLE | PG_USER`. -/
def userRw : PgFlags := { present := true, writable := true, user := true }

/-- One user page mapped at 4 MiB. -/
@[irreducible] def mappedWorld : World :=
  [.create, .allocFrame, .map 0x18000 0x400000 0x19000 userRw].foldl pagingStep ⟨smallPhys, ∅⟩

theorem mappedWorld_safe : SafeRun smallKernel smallPhys mappedWorld := by
  have h0 : SafeRun smallKernel smallPhys ⟨smallPhys, ∅⟩ := Reach.start
  have h1 := Reach.step PagingOp.create h0 ⟨trivial, trivial⟩
  have h2 := Reach.step PagingOp.allocFrame h1 ⟨trivial, trivial⟩
  have ha : (pmmAllocPage (pagingStep ⟨smallPhys, ∅⟩ .create).phys).1 = 0x19000 := by decide +kernel
  have hs := (SafeRun.inv smallPhys_booted h1).spare_of_alloc (by rw [ha]; decide)
  rw [ha] at hs
  unfold mappedWorld
  refine Reach.step (PagingOp.map 0x18000 0x400000 0x19000 userRw) h2
    ⟨⟨by decide +kernel, .inl rfl, fun f hf => ?_⟩, trivial⟩
  simp only [Entry.holds, Bool.and_eq_true, decide_eq_true_eq] at hf
  obtain ⟨-, -, rfl⟩ := hf
  exact hs

/-- The page is unmapped again and the address space cloned. -/
@[irreducible] def emptiedWorld : World :=
  [.unmap 0x18000 0x400000, .clone 0x18000].foldl pagingStep mappedWorld

/-- A device page mapped into the child. -/
def childMap : PagingOp := .map 0x19000 0x400000 0xB8000 { userRw with io := true }

theorem emptiedWorld_legal : Reach pagingStep (Legal smallKernel) ⟨smallPhys, ∅⟩ emptiedWorld := by
  have h3 : Reach pagingStep (Legal smallKernel) ⟨smallPhys, ∅⟩ mappedWorld :=
    Reach.mono mappedWorld_safe fun _ _ h => h.1
  have hu : UserTable mappedWorld.phys 0x18000 0x400000 := by
    unfold UserTable
    decide +kernel
  have h4 := Reach.step (PagingOp.unmap 0x18000 0x400000) h3 ⟨by decide +kernel, hu⟩
  unfold emptiedWorld
  exact Reach.step (PagingOp.clone 0x18000) h4 (show 0x18000 ∈ _ by decide +kernel)

set_option maxRecDepth 20000 in
/-- The clone hands out the parent's own page table, and a page mapped by the child
then shows up in the parent. -/
theorem clone_shares_empty_table :
    Booted smallKernel smallPhys ∧
    Reach pagingStep (Legal smallKernel) ⟨smallPhys, ∅⟩ emptiedWorld ∧
    Legal smallKernel emptiedWorld childMap ∧
    0x18000 ∈ emptiedWorld.live ∧ 0x19000 ∈ emptiedWorld.live ∧
    (emptiedWorld.phys.mem 0x18000 1).userPresent = true ∧
    emptiedWorld.phys.mem 0x19000 1 = emptiedWorld.phys.mem 0x18000 1 ∧
    pagingQueryPage (pagingStep emptiedWorld childMap).phys 0x18000 0x400000
      ≠ pagingQueryPage emptiedWorld.phys 0x18000 0x400000 := by
  have hlive : 0x19000 ∈ emptiedWorld.live := by decide +kernel
  have hlegal : Legal smallKernel emptiedWorld childMap :=
    ⟨hlive, .inl rfl, fun f hf => absurd hf (by simp [pagingEntryBuild, Entry.holds])⟩
  refine ⟨smallPhys_booted, emptiedWorld_legal, hlegal, ?_⟩
  decide +kernel

/-- The address space with the mapped page is cloned. -/
@[irreducible] def clonedWorld : World := pagingStep mappedWorld (.clone 0x18000)

set_option maxRecDepth 20000 in
theorem clonedWorld_safe : SafeRun smallKernel smallPhys clonedWorld := by
  have hlive : 0x18000 ∈ mappedWorld.live := by decide +kernel
  have htables : CloneOk mappedWorld (.clone 0x18000) := by
    unfold CloneOk
    decide +kernel
  unfold clonedWorld
  exact Reach.step _ mappedWorld_safe ⟨hlive, htables⟩

/-- After the clone, parent and child have no user table in common, and when the child is destroyed
the parent keeps its pages. -/
theorem paging_isolation_cloned :
    Booted smallKernel smallPhys ∧ 0x18000 ∈ clonedWorld.live ∧ 0x1B000 ∈ clonedWorld.live ∧
    (∀ i < 1024, ∀ j < 1024, (clonedWorld.phys.mem 0x18000 i).userPresent = true →
      (clonedWorld.phys.mem 0x1B000 j).userPresent = true →
      (clonedWorld.phys.mem 0x18000 i).addr ≠ (clonedWorld.phys.mem 0x1B000 j).addr) ∧
    ∀ v, pagingQueryPage (pagingStep clonedWorld (.destroy 0x1B000)).phys 0x18000 v =
      pagingQueryPage clonedWorld.phys 0x18000 v := by
  obtain ⟨hown, hapart, -⟩ :=
    paging_isolation smallKernel smallPhys smallPhys_booted clonedWorld clonedWorld_safe
  have hparent : 0x18000 ∈ clonedWorld.live := by decide +kernel
  have hchild : 0x1B000 ∈ clonedWorld.live := by decide +kernel
  refine ⟨smallPhys_booted, hparent, hchild, fun i hi j hj hp hc heq => ?_, ?_⟩
  · exact absurd (hown _ hparent _ hchild i hi j hj hp hc heq) (by decide)
  · exact (hapart (.destroy 0x1B000) hchild trivial _ hparent (by decide)).2

end Drunix.Mm
