import Drunix.Mm.Cow

/-!
# A page fault and the bytes of the pages that are mapped

`paging_handle_fault` (`mm/fault.c`) with the bytes of the frames beside `Mm/Fault`:
a lazy page is filled before it is mapped, and a break of copy-on-write copies.

What the fault writes to is a frame from the allocator and a PTE of the address space. No
page that a user sees is lost as long as nobody sees the frame, the page table is no other
address space's, and nothing is mapped over a page that is there. The first two are the
ownership invariant, which a fork can break (`child_maps_in_parent`: parent and child share
an emptied page table, and a lazy page of the child appears in the parent). In every run
without such a fork, `fault_keeps_pages`, for tasks whose `stack_low_limit` is where their
stack area starts, as `process_create_file` makes them: the loop that grows the stack is
never entered.

Mirroring notes:
- `filePage` is what the clearing and `vfs_read` leave in the frame of a file page.
- The bytes of a frame that is a paging structure are its entries, in `Phys.mem`.
- The fault may be that of any process record with the page directory: the tasks of a
  `CLONE_VM` group have one. `areas` gives the directory another record.
- `PF_ERR_PRESENT` comes from the processor: it is clear only if the user sees no page.
-/

namespace Drunix.Mm

open Lib

/-- The bytes of each frame. -/
abbrev Ram := Nat → Buf

/-- A cleared page. -/
def zeroPage : Buf := fun _ => 0

/-- `mapFresh`: the frame gets its bytes before it is mapped. -/
def mapFreshRam (s : Phys) (fill : Buf) (ram : Ram) : Ram :=
  let (phys, _) := pmmAllocPage s
  if phys = 0 then ram
  else if !physPtr phys then ram
  else Function.update ram phys fill

/-- `breakCow`. -/
def breakCowRam (s : Phys) (pd page : Nat) (ram : Ram) : Ram :=
  match pagingQueryPage s pd page with
  | none => ram
  | some m =>
    if !m.flags.cow then ram
    else if pmmRefcount s m.physAddr ≤ 1 then ram
    else
      let (newPhys, _) := pmmAllocPage s
      if newPhys = 0 then ram
      else if !physPtr newPhys || !physPtr m.physAddr then ram
      else Function.update ram newPhys (ram m.physAddr)

/-- The stack-growth loop. -/
def growStackRam (pd : Nat) (flags : MapFlags) : List Nat → Phys → Ram → Ram
  | [], _, ram => ram
  | page :: pages, s, ram =>
    match mapFresh s pd page flags with
    | (0, s') => growStackRam pd flags pages s' (mapFreshRam s zeroPage ram)
    | (_, _) => mapFreshRam s zeroPage ram

/-- `fault_handle_lazy_anon_fault`. -/
def lazyAnonRam (s : Phys) (p : Proc) (v : VmArea) (cr2 userEsp : Nat) (ram : Ram) : Ram :=
  let faultPage := cr2 / 4096 * 4096
  let stackSlack := if userEsp > 32 then userEsp - 32 else 0
  if !(v.flags.anon && v.flags.priv) then ram
  else if v.kind = .heap ∨ v.kind = .generic then mapFreshRam s zeroPage ram
  else if v.kind = .stack ∧ v.flags.growsdown = true ∧ faultPage ≥ v.start ∧
      faultPage < p.stackLowLimit ∧ cr2 ≥ stackSlack ∧ cr2 < v.stop then
    growStackRam p.pdPhys (lazyFlags v) (stackPages p.stackLowLimit faultPage v.start) s ram
  else ram

/-- `fault_handle_lazy_file_private_fault`. -/
def lazyFileRam (filePage : Buf) (s : Phys) (faultPage : Nat) (v : VmArea) (ram : Ram) : Ram :=
  if faultPage < v.start ∨ faultPage ≥ v.stop then ram
  else if !vmaIsPrivateFileBacked v then ram
  else mapFreshRam s filePage ram

/-- `paging_handle_fault`. -/
def faultRam (filePage : Buf) (s : Phys) (p : Proc) (cr2 : Nat) (err : PfErr) (userEsp : Nat)
    (ram : Ram) : Ram :=
  let faultPage := cr2 / 4096 * 4096
  if !err.user then ram
  else
    match vmaFind p.vmas cr2 with
    | none => ram
    | some v =>
      if !vmaAllowsAccess v err then ram
      else if !err.present then
        if vmaIsPrivateFileBacked v then lazyFileRam filePage s faultPage v ram
        else lazyAnonRam s p v cr2 userEsp ram
      else
        let shadow := kernelShadow s p.pdPhys faultPage
        if shadow && vmaIsPrivateFileBacked v then lazyFileRam filePage s faultPage v ram
        else if shadow && (v.flags.anon && v.flags.priv) then lazyAnonRam s p v cr2 userEsp ram
        else if !err.write then ram
        else breakCowRam s p.pdPhys faultPage ram

/-! ## What a fault may do -/

/-- Every page that a user sees keeps its bytes, and its frame unless the fault breaks
copy-on-write there; a page that is new is one of the area, with a cleared frame or with the
file's bytes. -/
structure KeepsPages (live : Finset Nat) (s : Phys) (ram : Ram) (s' : Phys) (ram' : Ram)
    (pd cr2 : Nat) (v : VmArea) (filePage : Buf) : Prop where
  kept : ∀ y ∈ slots live, ∀ e, userPte s y = some e → e.io = false →
    ∃ e', userPte s' y = some e' ∧ e'.io = false ∧ ram' e'.addr = ram e.addr ∧
      (e'.addr = e.addr ∨ e.cow = true ∧ y = slotOf pd cr2)
  fresh : ∀ y ∈ slots live, userPte s y = none → ∀ e', userPte s' y = some e' →
    (∃ a, v.start ≤ a ∧ a < v.stop ∧ y = slotOf pd a) ∧
      (ram' e'.addr = zeroPage ∨ vmaIsPrivateFileBacked v = true ∧ ram' e'.addr = filePage)

/-- What a fault has to find: no copy-on-write page hidden by `PROT_NONE`, and a task whose
`stack_low_limit` is not above the start of its stack area. -/
structure FaultSafe (s : Phys) (p : Proc) (cr2 : Nat) : Prop where
  hidden : ∀ q, pagingQueryPage s p.pdPhys (cr2 / 4096 * 4096) = some q → q.flags.cow = true →
    q.flags.user = true
  limit : ∀ v, vmaFind p.vmas cr2 = some v → v.kind = .stack → p.stackLowLimit ≤ v.start

variable {cr2 : Nat} {v : VmArea}

section Pages

variable {K live : Finset Nat} {X : Nat → Nat} {s : Phys} {pd : Nat}

/-- The pages `P` are new, with the bytes `fill`; all others are as they were. -/
structure Gains (live : Finset Nat) (s : Phys) (ram : Ram) (s' : Phys) (ram' : Ram)
    (P : Nat × Nat × Nat → Prop) (fill : Buf) : Prop where
  same : ∀ y ∈ slots live, ¬ P y → userPte s' y = userPte s y
  new : ∀ y ∈ slots live, P y → ∃ e, userPte s' y = some e ∧ e.io = false ∧ ram' e.addr = fill
  bytes : ∀ y ∈ slots live, ¬ P y → ∀ e, userPte s y = some e → e.io = false →
    ram' e.addr = ram e.addr

theorem Gains.keepsPages {s' : Phys} {ram ram' : Ram} {P : Nat × Nat × Nat → Prop} {fill : Buf} {filePage : Buf} (h : Gains live s ram s' ram' P fill)
    (hnone : ∀ y, P y → userPte s y = none)
    (harea : ∀ y, P y → ∃ a, v.start ≤ a ∧ a < v.stop ∧ y = slotOf pd a)
    (hfill : fill = zeroPage ∨ vmaIsPrivateFileBacked v = true ∧ fill = filePage) :
    KeepsPages live s ram s' ram' pd cr2 v filePage := by
  refine ⟨fun y hy e he hio => ?_, fun y hy hn e' he' => ?_⟩
  · have hP : ¬ P y := fun hc => by rw [hnone y hc] at he; cases he
    exact ⟨e, by rw [h.same y hy hP, he], hio, h.bytes y hy hP e he hio, .inl rfl⟩
  · by_cases hP : P y
    · obtain ⟨e, he, -, hram⟩ := h.new y hy hP
      rw [he'] at he
      cases he
      rw [hram]
      exact ⟨harea y hP, hfill⟩
    · rw [h.same y hy hP, hn] at he'
      cases he'

theorem slotOf_page (pd a : Nat) : slotOf pd (a / 4096 * 4096) = slotOf pd a := by
  unfold slotOf pdIndex ptIndex
  have h1 : a / 4096 * 4096 / 4194304 % 1024 = a / 4194304 % 1024 := by omega
  have h2 : a / 4096 * 4096 / 4096 % 1024 = a / 4096 % 1024 := by omega
  rw [h1, h2]

/-- A frame that nobody uses holds no page that a user sees. -/
theorem addr_ne_of_unused {a : Nat} (h : uses K live s a = 0) {y : Nat × Nat × Nat}
    (hy : y ∈ slots live) {e : Entry} (he : userPte s y = some e) (hio : e.io = false) :
    e.addr ≠ a := by
  rintro rfl
  have hm := (uses_zero h).2.2.1 y hy
  rw [mapsAt_eq_any, he] at hm
  simp [Entry.holds, userPte_userPresent he, hio] at hm

/-- A lazy page. -/
theorem PagingInv.mapFresh_gains (h : PagingInv K live X s) (hp : pd ∈ live) (page : Nat)
    (v : VmArea) (fill : Buf) (ram : Ram) (h0 : (mapFresh s pd page (lazyFlags v)).1 = 0) :
    PagingInv K live X (mapFresh s pd page (lazyFlags v)).2 ∧
      Gains live s ram (mapFresh s pd page (lazyFlags v)).2 (mapFreshRam s fill ram)
        (· = slotOf pd page) fill := by
  have hown : (lazyFlags v).Own := ⟨rfl, rfl, rfl, rfl⟩
  obtain ⟨hinv, ⟨hrc, -⟩ | ⟨-, a, s1, ha, ha0, hptr, huses, hset, -⟩⟩ := h.mapFresh_cases hp page hown
  · exact absurd (hrc.symm.trans h0) (by decide)
  have hram : mapFreshRam s fill ram = Function.update ram a fill := by
    unfold mapFreshRam
    rw [ha]
    dsimp only
    rw [if_neg ha0, if_neg (by simp [hptr])]
  rw [hram]
  refine ⟨hinv, fun y hy hne => by rw [hset y hy, if_neg hne], ?_, fun y hy _ e he hio => ?_⟩
  · rintro y hy rfl
    exact ⟨_, by rw [hset _ hy, if_pos rfl], rfl, Function.update_self ..⟩
  · exact Function.update_of_ne (addr_ne_of_unused huses hy he hio) ..

/-- `fault_handle_lazy_anon_fault` on a page that the user does not see. -/
theorem PagingInv.lazyAnon_keeps (h : PagingInv K live X s) {p : Proc} (hp : p.pdPhys ∈ live)
    {userEsp : Nat} (filePage : Buf) (ram : Ram) (hv : v.start ≤ cr2 ∧ cr2 < v.stop)
    (hnone : userPte s (slotOf p.pdPhys cr2) = none)
    (hlimit : v.kind = .stack → p.stackLowLimit ≤ v.start)
    (h0 : (faultHandleLazyAnonFault s p v cr2 userEsp).1 = 0) :
    KeepsPages live s ram (faultHandleLazyAnonFault s p v cr2 userEsp).2.1
      (lazyAnonRam s p v cr2 userEsp ram) p.pdPhys cr2 v filePage := by
  unfold faultHandleLazyAnonFault at h0 ⊢
  unfold lazyAnonRam
  generalize (if userEsp > 32 then userEsp - 32 else 0) = slack at h0 ⊢
  dsimp only at h0 ⊢
  split at h0
  · cases h0
  next hanon =>
  rw [if_neg hanon, if_neg hanon]
  split at h0
  next hkind =>
    rw [if_pos hkind, if_pos hkind]
    obtain ⟨-, hg⟩ := h.mapFresh_gains hp _ v zeroPage ram h0
    refine hg.keepsPages (fun y hy => ?_) (fun y hy => ?_) (.inl rfl)
    · rw [hy, slotOf_page, hnone]
    · exact ⟨cr2, hv.1, hv.2, by rw [hy, slotOf_page]⟩
  next hkind =>
  rw [if_neg hkind, if_neg hkind]
  split at h0
  next hstack =>
    -- no page of the area is below the limit
    have := hlimit hstack.1
    omega
  · cases h0

/-- `fault_handle_lazy_file_private_fault`, likewise. -/
theorem PagingInv.lazyFile_keeps (h : PagingInv K live X s) (hp : pd ∈ live) {readOk : Bool} (filePage : Buf) (ram : Ram) (hv : v.start ≤ cr2 ∧ cr2 < v.stop)
    (hnone : userPte s (slotOf pd cr2) = none)
    (h0 : (faultHandleLazyFilePrivateFault readOk s pd (cr2 / 4096 * 4096) v).1 = 0) :
    KeepsPages live s ram (faultHandleLazyFilePrivateFault readOk s pd (cr2 / 4096 * 4096) v).2
      (lazyFileRam filePage s (cr2 / 4096 * 4096) v ram) pd cr2 v filePage := by
  unfold faultHandleLazyFilePrivateFault at h0 ⊢
  unfold lazyFileRam
  dsimp only at h0 ⊢
  split at h0
  · cases h0
  next hin =>
  rw [if_neg hin, if_neg hin]
  split at h0
  · cases h0
  next hfile =>
  rw [if_neg hfile, if_neg hfile]
  split at h0
  · split at h0
    · cases h0
    · cases h0
  next hread =>
    rw [if_neg hread]
    obtain ⟨-, hg⟩ := h.mapFresh_gains hp _ v filePage ram h0
    refine hg.keepsPages (fun y hy => ?_) (fun y hy => ?_) (.inr ⟨by simpa using hfile, rfl⟩)
    · rw [hy, slotOf_page, hnone]
    · exact ⟨cr2, hv.1, hv.2, by rw [hy, slotOf_page]⟩

/-- Breaking copy-on-write: the frame is taken over, or its bytes are copied. -/
theorem PagingInv.breakCow_keeps (h : PagingInv K live X s) (hp : pd ∈ live)
    (hcu : ∀ q, pagingQueryPage s pd (cr2 / 4096 * 4096) = some q → q.flags.cow = true →
      q.flags.user = true)
    (hframes : CowFrames live (userPte s)) (v : VmArea) (filePage : Buf) (ram : Ram)
    (h0 : (breakCow s pd (cr2 / 4096 * 4096)).1 = 0) :
    KeepsPages live s ram (breakCow s pd (cr2 / 4096 * 4096)).2
      (breakCowRam s pd (cr2 / 4096 * 4096) ram) pd cr2 v filePage := by
  have hslot := slotOf_mem hp cr2
  unfold breakCow at h0 ⊢
  unfold breakCowRam
  rcases h.query_cases hp (cr2 / 4096 * 4096) with ⟨hq, -⟩ | ⟨e, he, hq, hpres, hpte, huser, hview⟩
  · rw [hq] at h0
    cases h0
  rw [hq] at h0 ⊢
  dsimp only at h0 ⊢
  split at h0
  · cases h0
  next hcow =>
  rw [if_neg hcow, if_neg hcow]
  have hc : e.cow = true := by simpa [Entry.mapping] using hcow
  have hu : e.user = true := hcu _ hq hc
  rw [if_pos hu, slotOf_page] at hview
  have hio := hframes _ hslot e hview hc
  split at h0
  next hrc =>
    -- the last reference: only the rights of the PTE change
    rw [if_pos hrc, if_pos hrc]
    obtain ⟨-, -, hupd⟩ := h.update (cr2 / 4096 * 4096) { cow := true } { write := true } hp
      fun _ => huser hu
    refine ⟨fun y hy e' he' hio' => ?_, fun y hy hn e' he' => ?_⟩
    · rw [hupd y hy, he']
      split
      · exact ⟨_, rfl, hio', rfl, .inl rfl⟩
      · exact ⟨e', rfl, hio', rfl, .inl rfl⟩
    · rw [hupd y hy, hn] at he'
      simp at he'
  next hrc =>
  rw [if_neg hrc, if_neg hrc]
  rcases h.alloc with ha | ⟨a, s1, ha, ha0, -⟩
  · rw [ha] at h0
    cases h0
  rw [ha] at h0 ⊢
  rw [if_neg ha0] at h0 ⊢
  split at h0
  · cases h0
  next hptr =>
  rw [if_neg hptr, if_neg ha0, if_neg hptr]
  have hown : ({ e.mapping.flags with write := true, cow := false } : MapFlags).Own :=
    ⟨rfl, hu, hio, rfl⟩
  obtain ⟨-, huses, ⟨hmap, -, hset, -⟩ | ⟨hmap, -⟩⟩ :=
    h.allocMap hp (cr2 / 4096 * 4096) hown ha ha0
  · rw [if_neg (by rw [hmap]; decide)]
    rw [slotOf_page] at hset
    have hset' : SetsSlot live s (pmmDecref _ e.mapping.physAddr) (slotOf pd cr2) _ := hset
    refine ⟨fun y hy e' he' hio' => ?_, fun y hy hn e' he' => ?_⟩
    · rw [hset' y hy]
      split
      next hy' =>
        rw [hy', hview] at he'
        cases he'
        exact ⟨_, rfl, by simp [archMmToPagingFlags, Entry.mapping, hio], Function.update_self ..,
          .inr ⟨hc, hy'⟩⟩
      exact ⟨e', he', hio', Function.update_of_ne (addr_ne_of_unused huses hy he' hio') ..,
        .inl rfl⟩
    · rw [hset' y hy] at he'
      split at he'
      next hy' => rw [hy', hview] at hn; cases hn
      · rw [hn] at he'; cases he'
  · rw [if_pos (by rw [hmap]; decide)] at h0
    cases h0

/-- `paging_handle_fault`. -/
theorem PagingInv.fault_keeps (h : PagingInv K live X s) (hframes : CowFrames live (userPte s))
    {p : Proc} (hp : p.pdPhys ∈ live) {readOk : Bool} {userEsp : Nat} {err : PfErr}
    (filePage : Buf) (ram : Ram)
    (hcpu : err.present = false → userPte s (slotOf p.pdPhys cr2) = none)
    (hsafe : FaultSafe s p cr2) (h0 : (pagingHandleFault readOk s p cr2 err userEsp).1 = 0) :
    ∃ v, vmaFind p.vmas cr2 = some v ∧
      KeepsPages live s ram (pagingHandleFault readOk s p cr2 err userEsp).2.1
        (faultRam filePage s p cr2 err userEsp ram) p.pdPhys cr2 v filePage := by
  unfold pagingHandleFault at h0 ⊢
  unfold faultRam
  dsimp only at h0 ⊢
  split at h0
  · cases h0
  next huser =>
  rw [if_neg huser, if_neg huser]
  split at h0
  · cases h0
  next v hv =>
  simp only [hv]
  refine ⟨v, rfl, ?_⟩
  have hin : v.start ≤ cr2 ∧ cr2 < v.stop := by simpa using List.find?_some hv
  split at h0
  · cases h0
  next hallow =>
  rw [if_neg hallow, if_neg hallow]
  have hlimit := hsafe.limit v hv
  split at h0
  next hmiss =>
    have hnone := hcpu (by simpa using hmiss)
    rw [if_pos hmiss, if_pos hmiss]
    split at h0
    next hfile =>
      rw [if_pos hfile, if_pos hfile]
      exact h.lazyFile_keeps hp filePage ram hin hnone h0
    next hfile =>
      rw [if_neg hfile, if_neg hfile]
      exact h.lazyAnon_keeps hp filePage ram hin hnone hlimit h0
  next hmiss =>
  rw [if_neg hmiss, if_neg hmiss]
  have hnone : kernelShadow s p.pdPhys (cr2 / 4096 * 4096) = true →
      userPte s (slotOf p.pdPhys cr2) = none := by
    intro hshadow
    unfold kernelShadow at hshadow
    rcases h.query_cases hp (cr2 / 4096 * 4096) with ⟨-, hn⟩ | ⟨e, -, hq, -, -, -, hview⟩
    · rwa [slotOf_page] at hn
    · rw [hq] at hshadow
      simp only [Entry.mapping, Bool.and_eq_true, Bool.not_eq_true'] at hshadow
      rw [slotOf_page, hshadow.1] at hview
      exact hview
  split at h0
  next hfile =>
    rw [if_pos hfile, if_pos hfile]
    exact h.lazyFile_keeps hp filePage ram hin (hnone (Bool.and_eq_true_iff.mp hfile).1) h0
  next hfile =>
  rw [if_neg hfile, if_neg hfile]
  split at h0
  next hanon =>
    rw [if_pos hanon, if_pos hanon]
    exact h.lazyAnon_keeps hp filePage ram hin (hnone (Bool.and_eq_true_iff.mp hanon).1)
      hlimit h0
  next hanon =>
  rw [if_neg hanon, if_neg hanon]
  split at h0
  · cases h0
  next hwrite =>
    rw [if_neg hwrite, if_neg hwrite]
    exact h.breakCow_keeps hp hsafe.hidden hframes v filePage ram h0

end Pages

/-! ## Runs -/

/-- A step of `Mm/Cow`, or what the mappings of devices and windows are made of: a frame or
device memory is mapped, and a frame taken, shared or given back. -/
inductive PageOp where
  | mem (op : CowOp)
  | frame (op : PagingOp)

/-- One step. -/
def pageStep (m : Machine) : PageOp → Machine
  | .mem op => cowStep m op
  | .frame op =>
    { m with phys := (pagingStep ⟨m.phys, m.live⟩ op).phys, live := (pagingStep ⟨m.phys, m.live⟩ op).live }

/-- The calls of a device or window mapping. -/
def PagingOp.ForMmap : PagingOp → Prop
  | .map _ _ _ flags => flags.cow = false
  | .allocFrame => True
  | .incref _ => True
  | .decref _ => True
  | _ => False

/-- The process that makes the step exists, and frames are used by the rules (`Legal`). -/
def PageOp.Running (K : Finset Nat) (m : Machine) : PageOp → Prop
  | .mem op => op.Running m
  | .frame op => op.ForMmap ∧ Legal K ⟨m.phys, m.live⟩ op

/-- What the steps of a run have to observe. -/
def Careful (m : Machine) : PageOp → Prop
  | .mem (.fork pd) => CloneOk ⟨m.phys, m.live⟩ (.clone pd)
  | .mem (.fault pd _ cr2 _ _) => FaultSafe m.phys (m.task pd) cr2
  | _ => True

/-- The runs in which processes that exist act, and carefully. -/
abbrev CarefulRun (K : Finset Nat) (s : Phys) (proc : Nat → Proc) : Machine → Prop :=
  Reach pageStep (fun m op => op.Running K m ∧ Careful m op) (bootMachine s proc)

section Runs

variable {K : Finset Nat} {m : Machine}

theorem MemOk.cowStep (h : MemOk K m.live m.phys) {op : CowOp} (hr : op.Running m)
    (hc : Careful m (.mem op)) : MemOk K (cowStep m op).live (cowStep m op).phys := by
  cases op with
  | spawn p => exact h.spawn p
  | load pd page => exact MemOk.pagesKeep.fresh h hr page ⟨rfl, rfl, rfl, rfl⟩ rfl
  | areas pd p => exact h
  | fork pd => exact h.fork hr hc _
  | fault pd readOk cr2 err userEsp =>
    exact MemOk.pagesKeep.fault (p := m.task pd) h hr readOk cr2 err userEsp hc.hidden
  | copyToUser pd readOk dst len =>
    exact MemOk.pagesKeep.copyToUser (p := m.task pd) h hr readOk dst len
  | mprotect pd k addr len prot => exact h.mprotect hr k addr len prot
  | munmap pd k addr len => exact MemOk.pagesKeep.munmap h hr k addr len
  | destroy pd => exact h.destroy hr

theorem MemOk.frameStep (h : MemOk K m.live m.phys) {op : PagingOp} (hm : op.ForMmap)
    (hl : Legal K ⟨m.phys, m.live⟩ op) :
    MemOk K (pageStep m (.frame op)).live (pageStep m (.frame op)).phys := by
  have hclone : CloneOk ⟨m.phys, m.live⟩ op := by
    cases op with
    | clone src => exact hm.elim
    | _ => trivial
  have hinv := (pagingStep_spec h.own hl hclone).1
  refine ⟨hinv, ?_⟩
  cases op with
  | map pd virt phys flags =>
    obtain ⟨hp, htable, hframe⟩ := hl
    have htable' : flags.user = true ∨ (m.phys.mem pd (pdIndex virt)).present = false ∨
        (m.phys.mem pd (pdIndex virt)).user = true := by
      refine htable.imp id fun ht => ?_
      cases hpres : (m.phys.mem pd (pdIndex virt)).present with
      | false => exact .inl rfl
      | true => exact .inr (ht hpres)
    intro x hx e he hcow
    rcases (h.own.mapSpare hp htable' hframe).2.2 with hview | hmem
    · rw [show userPte (pageStep m (.frame (.map pd virt phys flags))).phys x = _ from hview x hx] at he
      split at he
      · -- the new PTE is not a copy-on-write one
        unfold Entry.view at he
        split at he
        · cases he
          have hcow' : flags.cow = true := hcow
          rw [show flags.cow = false from hm] at hcow'
          cases hcow'
        · cases he
      · exact h.frames x hx e he hcow
    · have hsame : userPte (pageStep m (.frame (.map pd virt phys flags))).phys x = userPte m.phys x := by
        unfold userPte
        rw [show (pageStep m (.frame (.map pd virt phys flags))).phys.mem = m.phys.mem from hmem]
      rw [hsame] at he
      exact h.frames x hx e he hcow
  | allocFrame | incref f | decref f => exact h.frames
  | _ => exact hm.elim

theorem CarefulRun.memOk {s : Phys} {proc : Nat → Proc} (hb : Booted K s)
    (h : CarefulRun K s proc m) : MemOk K m.live m.phys := by
  refine h.inv (fun m => MemOk K m.live m.phys) ⟨hb.inv, ?_⟩ fun m op hm hok => ?_
  · intro x hx
    exact absurd (mem_slots.mp hx).1 (Finset.notMem_empty _)
  · cases op with
    | mem op => exact hm.cowStep hok.1 hok.2
    | frame op => exact hm.frameStep hok.1.1 hok.1.2

/-- A frame that `pmm_alloc_page` hands out in any state of a run is in no use. -/
theorem fresh_frame_unused {s : Phys} {proc : Nat → Proc} (hb : Booted K s)
    (hr : CarefulRun K s proc m) :
    (pmmAllocPage m.phys).1 = 0 ∨ uses K m.live m.phys (pmmAllocPage m.phys).1 = 0 := by
  rcases (hr.memOk hb).own.alloc with he | ⟨f, s', he, -, -, huses, -⟩ <;> rw [he]
  · exact .inl rfl
  · exact .inr huses

end Runs

/-- A fault that succeeds, of any task with the page directory of an address space, in any
state of a run. -/
theorem fault_keeps_pages (K : Finset Nat) (s : Phys) (hb : Booted K s) (proc : Nat → Proc)
    (m : Machine) (hr : CarefulRun K s proc m) (p : Proc) (hp : p.pdPhys ∈ m.live)
    (readOk : Bool) (filePage : Buf) (cr2 : Nat) (err : PfErr) (userEsp : Nat) (ram : Ram)
    (hcpu : err.present = false → userPte m.phys (slotOf p.pdPhys cr2) = none)
    (hsafe : FaultSafe m.phys p cr2)
    (h0 : (pagingHandleFault readOk m.phys p cr2 err userEsp).1 = 0) :
    ∃ v, vmaFind p.vmas cr2 = some v ∧
      KeepsPages m.live m.phys ram (pagingHandleFault readOk m.phys p cr2 err userEsp).2.1
        (faultRam filePage m.phys p cr2 err userEsp ram) p.pdPhys cr2 v filePage := by
  obtain ⟨hinv, hframes⟩ := hr.memOk hb
  exact hinv.fault_keeps hframes hp filePage ram hcpu hsafe h0

/-- One process, with its page still to be touched. -/
@[irreducible] def spawnedMachine : Machine :=
  pageStep (bootMachine smallPhys fun _ => readerProc) (.mem (.spawn readerProc))

theorem spawnedMachine_run : CarefulRun smallKernel smallPhys (fun _ => readerProc) spawnedMachine := by
  unfold spawnedMachine
  exact Reach.step (PageOp.mem (.spawn readerProc)) Reach.start ⟨trivial, trivial⟩

theorem fresh_frame_spawned :
    uses smallKernel spawnedMachine.live spawnedMachine.phys (pmmAllocPage spawnedMachine.phys).1 = 0 :=
  (fresh_frame_unused smallPhys_booted spawnedMachine_run).resolve_left (by decide +kernel)

/-- It reads the page. -/
theorem fault_keeps_pages_first :
    ∃ v, vmaFind readerProc.vmas 0x40000000 = some v ∧
      KeepsPages spawnedMachine.live spawnedMachine.phys (fun _ _ => 7)
        (pagingHandleFault true spawnedMachine.phys (spawnedMachine.task 0x18000) 0x40000000
          ⟨false, false, true⟩ 0).2.1
        (faultRam zeroPage spawnedMachine.phys (spawnedMachine.task 0x18000) 0x40000000
          ⟨false, false, true⟩ 0 fun _ _ => 7)
        0x18000 0x40000000 v zeroPage := by
  have hvmas : (spawnedMachine.task 0x18000).vmas = readerProc.vmas := by
    unfold spawnedMachine
    rfl
  have hnone : pagingQueryPage spawnedMachine.phys 0x18000 (0x40000000 / 4096 * 4096) = none := by
    decide +kernel
  rw [← hvmas]
  refine fault_keeps_pages smallKernel smallPhys smallPhys_booted (fun _ => readerProc) _
    spawnedMachine_run (spawnedMachine.task 0x18000) ?_ true zeroPage 0x40000000
    ⟨false, false, true⟩ 0 _ ?_ ⟨fun q hq => ?_, fun v hv hstack => ?_⟩ ?_
  · show 0x18000 ∈ _
    decide +kernel
  · intro _
    decide +kernel
  · have hq' : pagingQueryPage spawnedMachine.phys 0x18000 (0x40000000 / 4096 * 4096) = some q := hq
    rw [hnone] at hq'
    cases hq'
  · have hkind : (vmaFind readerProc.vmas 0x40000000).map (·.kind) = some .generic := by decide
    rw [hvmas] at hv
    rw [hv, Option.map_some, hstack] at hkind
    cases hkind
  · decide +kernel

/-! ## A fork with an emptied page table -/

/-- A private anonymous page. -/
def pageArea (start : Nat) : VmArea :=
  { start := start, stop := start + 4096, kind := .generic,
    flags := { read := true, write := true, anon := true, priv := true } }

/-- A process with one page. -/
def onePageProc : Proc :=
  { readerProc with vmas := { areas := [pageArea 0x40000000], capacity := 32, dynamic := true } }

/-- A store to a page that is not there. -/
def missedStore : PfErr := ⟨false, true, true⟩

/-- It touches the page, unmaps it and forks; the child maps a page there. -/
@[irreducible] def sharedTableMachine : Machine :=
  [.mem (.spawn onePageProc), .mem (.fault 0x18000 true 0x40000000 missedStore 0),
    .mem (.munmap 0x18000 ⟨true, true⟩ 0x40000000 4096), .mem (.fork 0x18000),
    .mem (.areas 0x19000 onePageProc)].foldl pageStep (bootMachine smallPhys fun _ => onePageProc)

theorem sharedTableMachine_run :
    Reach pageStep (fun m op => op.Running smallKernel m) (bootMachine smallPhys fun _ => onePageProc)
      sharedTableMachine := by
  unfold sharedTableMachine
  refine Reach.run Reach.start ⟨trivial, ?_, ?_, ?_, ?_, trivial⟩
  · show 0x18000 ∈ _
    decide +kernel
  · show 0x18000 ∈ _
    decide +kernel
  · show 0x18000 ∈ _
    decide +kernel
  · show 0x19000 ∈ _
    decide +kernel

set_option maxRecDepth 40000 in
/-- The child's first store maps the frame for the parent too, which has no area there. -/
theorem child_maps_in_parent :
    Booted smallKernel smallPhys ∧
    Reach pageStep (fun m op => op.Running smallKernel m) (bootMachine smallPhys fun _ => onePageProc)
      sharedTableMachine ∧
    0x18000 ∈ sharedTableMachine.live ∧ 0x19000 ∈ sharedTableMachine.live ∧
    (sharedTableMachine.task 0x18000).vmas.areas = [] ∧
    userPte sharedTableMachine.phys (slotOf 0x19000 0x40000000) = none ∧
    (pagingHandleFault true sharedTableMachine.phys (sharedTableMachine.task 0x19000) 0x40000000
      missedStore 0).1 = 0 ∧
    ∀ v ram ram', ¬ KeepsPages sharedTableMachine.live sharedTableMachine.phys ram
      (pagingHandleFault true sharedTableMachine.phys (sharedTableMachine.task 0x19000) 0x40000000
        missedStore 0).2.1 ram' 0x19000 0x40000000 v zeroPage := by
  have hview : 0x18000 ∈ sharedTableMachine.live ∧
      userPte sharedTableMachine.phys (slotOf 0x18000 0x40000000) = none ∧
      userPte (pagingHandleFault true sharedTableMachine.phys (sharedTableMachine.task 0x19000)
        0x40000000 missedStore 0).2.1 (slotOf 0x18000 0x40000000) =
        some { present := true, user := true, writable := true, addr := 0x1B000 } := by
    decide +kernel
  obtain ⟨hlive, hbefore, hafter⟩ := hview
  refine ⟨smallPhys_booted, sharedTableMachine_run, ?_⟩
  simp only [← and_assoc]
  refine ⟨by decide +kernel, fun v ram ram' h => ?_⟩
  obtain ⟨⟨a, -, -, hslot⟩, -⟩ := h.fresh _ (slotOf_mem hlive 0x40000000) hbefore _ hafter
  have hpd : (0x18000 : Nat) = 0x19000 := congrArg Prod.fst hslot
  cases hpd

end Drunix.Mm
