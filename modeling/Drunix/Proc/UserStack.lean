import Drunix.Proc.ElfImage

/-!
# The user stack: creation and growth

`process_create_file` (`proc/process.c`) as far as memory goes: a fresh address
space, the ELF image, the initial stack of `arch_process_build_user_stack`, the three
VMAs, and `stack_low_limit`. From there `paging_handle_fault` should grow the stack.

The architecture code maps the top four pages of the stack. `process_create_file`
records `USER_STACK_BASE`, sixty pages further down, as the lowest mapped page, and the
growth branch of the fault handler only looks below that: every process that is created
has a hole in its stack that no miss fills, and never the stack that the handler expects
(`created_stack_never_ok`).

Mirroring notes:
- A string is its bytes before the NUL; a NULL pointer in `argv` or `envp` is `none`.
- Whether the kernel heap has room comes with the call. Descriptors, signals and the
  kernel stack itself are left out.
-/

namespace Drunix.Proc

open Lib Mm

/-! ## `arch_process_build_user_stack` -/

/-- `USER_STACK_PAGES`. -/
def userStackPages : Nat := 4

/-- The page of round `i` of the mapping loop. -/
def stackVaddr (i : Nat) : Nat := userStackTop - (i + 1) * 4096

/-- One round of the mapping loop. -/
def buildStackPage (pd : Nat) (_ : Unit) (i : Nat) : Load Unit := do
  let s ← get
  match pagingQueryPage s.phys pd (stackVaddr i) with
  | some existing =>
    if existing.flags.present && existing.flags.write && existing.flags.user then pure ()
    else throw (-1)
  | none =>
    let (phys, m) := pmmAllocPage s.phys
    if phys = 0 then throw (-1)
    else
      let (rc, m) := archMmMap m pd (stackVaddr i) phys
        { present := true, read := true, write := true, user := true }
      if rc ≠ 0 then do
        setPhys (pmmFreePage m phys)
        throw (-1)
      else setPhys m

/-- The bytes the strings of a vector take, each with its NUL; fails on NULL and past
`max`. -/
def strBytes (max : Nat) : Nat → List (Option (List UInt8)) → Option Nat
  | total, [] => some total
  | _, none :: _ => none
  | total, some s :: rest =>
    if total + (s.length + 1) > max then none else strBytes max (total + (s.length + 1)) rest

/-- The user addresses of strings laid out one behind the other. -/
def stringPtrs (base : Nat) : List (List UInt8) → List Nat
  | [] => []
  | s :: rest => base :: stringPtrs (base + s.length + 1) rest

/-- Words stored one behind the other. -/
def storeWords (p : Buf) (off : Nat) : List Nat → Buf
  | [] => p
  | w :: ws => storeWords (putLe32 p off w) (off + 4) ws

/-- The top stack page with the strings at its end and the vectors below them. -/
def stackFrame (p : Buf) (argv envp : List (List UInt8)) (stringsOff frameOff : Nat) : Buf :=
  let strings := (argv ++ envp).flatMap fun s => s ++ [0]
  let ptrs := stringPtrs (userStackTop - stringsOff) (argv ++ envp)
  let p := memcpy p (4096 - stringsOff) (fun i => strings.getD i 0) 0 strings.length
  storeWords p (4096 - frameOff)
    (argv.length :: (ptrs.take argv.length ++ 0 :: (ptrs.drop argv.length ++ [0, 6, 4096, 0, 0])))

/-- `arch_process_build_user_stack`: the initial stack pointer. -/
def archProcessBuildUserStack (pd : Nat) (argv envp : List (Option (List UInt8))) : Load Nat :=
  if argv.length > 32 then throw (-1)
  else if envp.length > 32 then throw (-1)
  else do
    (List.range userStackPages).foldlM (buildStackPage pd) ()
    let argvStrbytes ← orFail (-1) (strBytes 1024 0 argv)
    let envStrbytes ← orFail (-1) (strBytes 1024 0 envp)
    let stringsOff := argvStrbytes + envStrbytes
    let pad := (4 - stringsOff % 4) % 4
    let stackWords := 1 + argv.length + 1 + envp.length + 1 + 4
    let frameOff := stringsOff + pad + stackWords * 4
    if frameOff > 4096 then throw (-1)
    else do
      let s ← get
      let mapping ← orFail (-1) (pagingQueryPage s.phys pd (userStackTop - 4096))
      if !physPtr mapping.physAddr then throw (-1)
      else do
        modify fun s => s.setFrame mapping.physAddr (stackFrame (s.bytes mapping.physAddr)
          (argv.filterMap id) (envp.filterMap id) stringsOff frameOff)
        pure (userStackTop - frameOff)

/-! ## `process_create_file` -/

/-- `vma_add` during creation: the table is still the inline one of `process_t`. -/
def addVma (code : Int) (t : VmTable) (start stop : Nat) (flags : VmaFlags) (kind : VmaKind) :
    Load VmTable :=
  let (rc, t) := vmaAdd ⟨false, false⟩ t start stop flags kind
  if rc ≠ 0 then throw code else pure t

/-- The flags of the stack VMA. -/
def stackVmaFlags : VmaFlags :=
  { read := true, write := true, anon := true, priv := true, growsdown := true }

/-- The VMAs of image, heap and stack. -/
def processVmas (img : ElfImage) : Load VmTable := do
  let t ← if img.imageStart < img.heapStart then
      addVma (-7) ⟨[], 0, false⟩ img.imageStart img.heapStart
        { read := true, write := true, exec := true, priv := true } .image
    else pure ⟨[], 0, false⟩
  let t ← addVma (-8) t img.heapStart img.heapStart
    { read := true, write := true, anon := true, priv := true } .heap
  addVma (-9) t userStackBase userStackTop stackVmaFlags .stack

/-- `goto fail_user_space`: the address space goes when the call fails. -/
def releaseOnFail {α : Type} (pd : Nat) (x : Load α) : Load α := fun s =>
  match x s with
  | .ok a s' => .ok a s'
  | .error e s' => .error e { s' with phys := pagingDestroyUserSpace s'.phys pd }

/-- Everything after the address space is there. -/
def processFill (f : VfsFile) (argv envp : List (Option (List UInt8)))
    (kstackOk resourcesOk : Bool) (pd : Nat) : Load Mm.Proc := do
  let img ← failAs (-2) (archElfLoadUserImage f pd)
  let _ ← failAs (-6) (archProcessBuildUserStack pd argv envp)
  if !kstackOk then throw (-5)
  else do
    let t ← processVmas img
    if !resourcesOk then throw (-10)
    else pure { pdPhys := pd, vmas := { t with capacity := 32, dynamic := true }
                brk := img.heapStart, rlimitData := 0x4000000, committedPages := 0
                stackLowLimit := userStackBase }

/-- `process_create_file`. -/
def processCreateFileMem (f : VfsFile) (argv envp : List (Option (List UInt8)))
    (kstackOk resourcesOk : Bool) : Load Mm.Proc := do
  let s ← get
  let (pd, m) := pagingCreateUserSpace s.phys
  if pd = 0 then throw (-1)
  else do
    setPhys m
    releaseOnFail pd (processFill f argv envp kstackOk resourcesOk pd)

/-! ## Runs of stack faults -/

/-- The process and the memory it runs in. -/
structure StackSys where
  phys : Phys
  proc : Mm.Proc

/-- What the processor reports of a fault. -/
structure StackFault where
  cr2 : Nat
  err : PfErr
  userEsp : Nat

/-- `paging_handle_fault` for the process. -/
def stackStep (t : StackSys) (o : StackFault) : StackSys :=
  let r := pagingHandleFault true t.phys t.proc o.cr2 o.err o.userEsp
  ⟨r.2.1, r.2.2⟩

/-- The fault is at an address of the stack area. -/
def InStack (_ : StackSys) (o : StackFault) : Prop := userStackBase ≤ o.cr2 ∧ o.cr2 < userStackTop

/-- The page is mapped, and the user can write it. -/
def UserWritable (t : StackSys) (page : Nat) : Prop :=
  ∃ m, pagingQueryPage t.phys t.proc.pdPhys page = some m ∧ m.flags.user = true ∧
    m.flags.write = true

/-- An access of the user in the stack area, not more than 32 bytes below its stack
pointer, goes through: the page is writable already, or, with frames for the pages down
to it, the fault handler makes it so. -/
def Served (t : StackSys) : Prop :=
  ∀ cr2 userEsp write, userStackBase ≤ cr2 → cr2 < userStackTop → userEsp ≤ cr2 + 32 →
    UserWritable t (cr2 / 4096 * 4096) ∨
    ((t.proc.stackLowLimit - cr2 / 4096 * 4096) / 4096 ≤ pmmCoreFreePageCount t.phys.pmm →
      let err : PfErr := { present := (pagingQueryPage t.phys t.proc.pdPhys (cr2 / 4096 * 4096)).isSome
                           write := write, user := true }
      (pagingHandleFault true t.phys t.proc cr2 err userEsp).1 = 0 ∧
      UserWritable (stackStep t ⟨cr2, err, userEsp⟩) (cr2 / 4096 * 4096))

/-- The stack is mapped down to `stack_low_limit` and not below, and accesses to it are
served. -/
structure StackOk (t : StackSys) : Prop where
  mapped : ∀ page, page % 4096 = 0 → t.proc.stackLowLimit ≤ page → page < userStackTop →
    UserWritable t page
  unmapped : ∀ page, page % 4096 = 0 → userStackBase ≤ page → page < t.proc.stackLowLimit →
    pagingQueryPage t.phys t.proc.pdPhys page = none
  served : Served t

/-- The lowest page `arch_process_build_user_stack` maps. -/
def lowestStackPage : Nat := userStackTop - userStackPages * 4096

/-! ## What creation leaves -/

/-- A PTE of the stack: `arch_process_build_user_stack` and the fault handler map with
the same flags. -/
def stackPte (a : Nat) : Entry := { present := true, writable := true, user := true, addr := a }

variable {page : Nat}

section Created

variable {K live : Finset Nat} {X : Nat → Nat} {pd : Nat} {s : LoadState}

/-- A new address space shows the kernel's PTEs wherever it inherits the kernel's PDE. -/
theorem create_pteAt {m m' : Phys} (h : PagingInv K live X m) (hc : pagingCreateUserSpace m = (pd, m'))
    (h0 : pd ≠ 0) {w : Nat} (hw : inheritedPde m.kernelEnd (pdIndex w) = true) :
    pteAt m' pd w = pteAt m pageDirAddr w := by
  rcases h.alloc with ha | ⟨n, m1, ha, hn0, hpage, huses, -, -, hmem, hke, hinv, -⟩
  · unfold pagingCreateUserSpace at hc
    rw [ha] at hc
    exact absurd (Prod.mk.inj hc).1.symm h0
  unfold pagingCreateUserSpace at hc
  rw [ha] at hc
  dsimp only at hc
  rw [if_neg hn0, if_neg (by simp [hinv.live_physPtr hpage])] at hc
  obtain ⟨rfl, rfl⟩ := Prod.mk.inj hc
  have hdir : (m1.setTable n (createPde m1)).mem n (pdIndex w) =
      if (m.mem pageDirAddr (pdIndex w)).present then m.mem pageDirAddr (pdIndex w) else {} := by
    rw [Phys.setTable_mem, if_pos rfl]
    unfold createPde
    rw [hmem, hke, hw]
    have hkern := h.kern _ h.kdir _ (pdIndex_lt w)
    cases hpres : (m.mem pageDirAddr (pdIndex w)).present with
    | false => simp [hpres]
    | true =>
      rw [Entry.userPresent, hpres, Bool.true_and] at hkern
      simp [hpres, hkern]
  unfold pteAt
  rw [hdir]
  cases hpres : (m.mem pageDirAddr (pdIndex w)).present with
  | false => simp
  | true =>
    simp only [if_true, hpres, Bool.true_and]
    split
    · have hne : (m.mem pageDirAddr (pdIndex w)).addr ≠ n := fun he =>
        (uses_zero huses).2.1 (he ▸ h.kpde _ (pdIndex_lt w) hpres)
      rw [Phys.setTable_mem, if_neg hne, hmem]
    · rfl

theorem stackVaddr_slot_ne {i j : Nat} (hi : i < userStackPages) (hj : j < userStackPages)
    (hij : i ≠ j) : slotOf pd (stackVaddr i) ≠ slotOf pd (stackVaddr j) := by
  unfold userStackPages at hi hj
  unfold stackVaddr userStackTop
  rw [Ne, slotOf_eq_iff (by omega) (by omega)]
  omega

/-- The `n` top pages of the stack are mapped, and nothing else has changed. -/
def StackMapped (K live : Finset Nat) (X : Nat → Nat) (pd : Nat) (s : LoadState) (n : Nat)
    (s' : LoadState) : Prop :=
  PagingInv K live X s'.phys ∧ (∀ i < n, ∃ a, pteAt s'.phys pd (stackVaddr i) = stackPte a) ∧
    ∀ w, (∀ i < n, slotOf pd w ≠ slotOf pd (stackVaddr i)) → pteAt s'.phys pd w = pteAt s.phys pd w

section

variable (hinv : PagingInv K live X s.phys) (hpd : pd ∈ live)

include hinv hpd

theorem buildStackPage_spec {i : Nat} (hno : (pteAt s.phys pd (stackVaddr i)).userPresent = false) :
    Ends (buildStackPage pd () i) s (fun _ s' => PagingInv K live X s'.phys ∧
      (∃ a, pteAt s'.phys pd (stackVaddr i) = stackPte a) ∧
      ∀ w, slotOf pd w ≠ slotOf pd (stackVaddr i) → pteAt s'.phys pd w = pteAt s.phys pd w)
      fun _ _ => True := by
  unfold buildStackPage
  rw [ends_bind, ends_get, hinv.query_eq hpd]
  split
  next existing hq =>
    -- the kernel's page: not the user's, so the call fails
    split at hq
    next hpres =>
      rw [Entry.userPresent, hpres, Bool.true_and] at hno
      rw [← Option.some.inj hq, if_neg (by simp [Entry.mapping, hno])]
      trivial
    · cases hq
  · rcases ha : pmmAllocPage s.phys with ⟨a, m⟩
    dsimp only
    split
    · trivial
    next ha0 =>
    have hown : ({ present := true, read := true, write := true, user := true } : MapFlags).Own :=
      ⟨rfl, rfl, rfl, rfl⟩
    obtain ⟨-, -, hcases⟩ := hinv.allocMap hpd (stackVaddr i) hown ha ha0
    split
    · simp only [setPhys, ends_bind, ends_modify, ends_throw]
    next hrc =>
      rcases hcases with ⟨-, hmap, hset, hpte⟩ | ⟨hfail, -⟩
      · simp only [setPhys, ends_modify]
        exact ⟨hmap, ⟨a, hmap.pteAt_of_sets hpd hset⟩, hpte⟩
      · exact absurd hfail (by
          omega)

/-- The mapping loop: the top pages of the stack, and nothing else. -/
theorem buildStackPages_spec
    (hno : ∀ i < userStackPages, (pteAt s.phys pd (stackVaddr i)).userPresent = false) :
    Ends ((List.range userStackPages).foldlM (buildStackPage pd) ()) s
      (fun _ => StackMapped K live X pd s userStackPages) fun _ _ => True := by
  refine Ends.foldlM_range (fun k _ => StackMapped K live X pd s k)
    ⟨hinv, by simp, fun _ _ => rfl⟩ ?_
  rintro k hk _ s' ⟨hinv', hdone, hframe⟩
  have hnext : pteAt s'.phys pd (stackVaddr k) = pteAt s.phys pd (stackVaddr k) :=
    hframe _ fun i hi => stackVaddr_slot_ne hk (by omega) (by omega)
  refine (buildStackPage_spec hinv' hpd (by rw [hnext]; exact hno k hk)).mono
    (fun _ s'' h => ?_) fun _ _ h => h
  obtain ⟨hinv'', hpage, hframe'⟩ := h
  refine ⟨hinv'', fun i hi => ?_, fun w hw => ?_⟩
  · by_cases hik : i = k
    · exact hik ▸ hpage
    · rw [hframe' _ (stackVaddr_slot_ne (by omega) hk hik)]
      exact hdone i (by omega)
  · rw [hframe' w (hw k (by omega)), hframe w fun i hi => hw i (by omega)]

theorem buildUserStack_spec
    (hno : ∀ i < userStackPages, (pteAt s.phys pd (stackVaddr i)).userPresent = false)
    (argv envp : List (Option (List UInt8))) :
    Ends (archProcessBuildUserStack pd argv envp) s
      (fun _ => StackMapped K live X pd s userStackPages) fun _ _ => True := by
  unfold archProcessBuildUserStack
  split
  · trivial
  split
  · trivial
  refine (buildStackPages_spec hinv hpd hno).bind (fun _ s1 h1 => ?_) fun _ _ h => h
  rw [ends_bind]
  refine ends_orFail (fun _ _ => ?_) trivial
  rw [ends_bind]
  refine ends_orFail (fun _ _ => ?_) trivial
  dsimp only
  split
  · trivial
  rw [ends_bind, ends_get, ends_bind]
  refine ends_orFail (fun mapping _ => ?_) trivial
  split
  · trivial
  · exact h1

omit hinv hpd

/-- The stack area of a new process. -/
def stackVma : VmArea := { start := userStackBase, stop := userStackTop, flags := stackVmaFlags, kind := .stack }

theorem insertSorted_behind {area : VmArea} {l : List VmArea}
    (h : ∀ v ∈ l, v.start ≤ area.start ∧ v.stop ≤ area.start) :
    insertSorted area l = some (l ++ [area]) := by
  induction l with
  | nil => rfl
  | cons v vs ih =>
    obtain ⟨hstart, hstop⟩ := h v (List.mem_cons_self ..)
    have hover : vmaOverlaps v area.start area.stop = false := by
      unfold vmaOverlaps
      simp only [decide_eq_false_iff_not]
      omega
    unfold insertSorted
    rw [if_pos hstart, hover, ih fun w hw => h w (List.mem_cons_of_mem _ hw)]
    rfl

/-- An area behind all others goes to the end of the inline table. -/
theorem addVma_behind {code : Int} {t : VmTable} {start stop : Nat} {flags : VmaFlags} {kind : VmaKind}
    (hle : start ≤ stop) (hdyn : t.dynamic = false) (hlen : t.areas.length < 16)
    (h : ∀ v ∈ t.areas, v.start ≤ start ∧ v.stop ≤ start) :
    addVma code t start stop flags kind
      = pure { t with areas := vmaCoalesce (t.areas ++ [{ start, stop, flags, kind }]) } := by
  obtain ⟨areas, capacity, dynamic⟩ := t
  obtain rfl : dynamic = false := hdyn
  unfold addVma vmaAdd vmaInsertArea
  rw [if_neg (show ¬ start > stop by omega)]
  unfold vmaEnsureCapacity
  simp only [Bool.not_false, if_true, if_pos (show areas.length + 1 ≤ 16 from hlen)]
  rw [insertSorted_behind h]
  rfl

/-- Image, heap and stack stand in this order. -/
theorem processVmas_spec {img : ElfImage} (himg : img.imageStart < img.heapStart)
    (hheap : img.heapStart ≤ userStackBase) (s : LoadState) :
    Ends (processVmas img) s (fun t s' => s' = s ∧ ∀ a, userStackBase ≤ a → a < userStackTop →
      vmaFind t a = some stackVma) fun _ _ => True := by
  let image : VmArea := { start := img.imageStart, stop := img.heapStart
                          flags := { read := true, write := true, exec := true, priv := true }
                          kind := .image }
  let heap : VmArea := { start := img.heapStart, stop := img.heapStart
                         flags := { read := true, write := true, anon := true, priv := true }
                         kind := .heap }
  have h1 : addVma (-7) ⟨[], 0, false⟩ image.start image.stop image.flags .image
      = pure ⟨[image], 0, false⟩ := by
    rw [addVma_behind himg.le rfl (by simp) (by simp)]
    rfl
  have h2 : addVma (-8) ⟨[image], 0, false⟩ heap.start heap.stop heap.flags .heap
      = pure ⟨[image, heap], 0, false⟩ := by
    rw [addVma_behind le_rfl rfl (by simp) (by simp [image, heap, himg.le])]
    simp [vmaCoalesce, mergeLast, vmaCanMerge, image, heap]
  have h3 : addVma (-9) ⟨[image, heap], 0, false⟩ userStackBase userStackTop stackVmaFlags .stack
      = pure ⟨[image, heap, stackVma], 0, false⟩ := by
    rw [addVma_behind (by decide) rfl (by simp) (by simp [image, heap, hheap]; omega)]
    simp [vmaCoalesce, mergeLast, vmaCanMerge, image, heap, stackVma, stackVmaFlags]
  unfold processVmas
  rw [if_pos himg, ends_bind, h1, ends_pure, ends_bind, h2, ends_pure, h3, ends_pure]
  refine ⟨rfl, fun a hlo hhi => ?_⟩
  have hno : ¬ a < img.heapStart := by omega
  simp [vmaFind, image, heap, stackVma, hno, hlo, hhi]

/-- What a process looks like when it has been created: the top stack pages are
mapped, and the rest of the stack area shows what the kernel has there. -/
structure Created (K live : Finset Nat) (X : Nat → Nat) (m₀ : Phys) (t : StackSys) : Prop where
  inv : PagingInv K live X t.phys
  live : t.proc.pdPhys ∈ live
  low : t.proc.stackLowLimit = userStackBase
  top : ∀ i < userStackPages, ∃ a, pteAt t.phys t.proc.pdPhys (stackVaddr i) = stackPte a
  rest : ∀ page, page % 4096 = 0 → userStackBase ≤ page → page < lowestStackPage →
    pteAt t.phys t.proc.pdPhys page = pteAt m₀ pageDirAddr page
  vma : ∀ a, userStackBase ≤ a → a < userStackTop → vmaFind t.proc.vmas a = some stackVma

theorem inheritedPde_stack (kernelEnd : Nat) (hlo : userStackBase ≤ page)
    (hhi : page < userStackTop) : inheritedPde kernelEnd (pdIndex page) = true := by
  unfold userStackBase at hlo
  unfold userStackTop at hhi
  have hidx : pdIndex page = 0x2FF := by unfold pdIndex; omega
  rw [hidx]
  unfold inheritedPde
  simp

theorem Ends.releaseOnFail {α : Type} {x : Load α} {Q : α → LoadState → Prop}
    (h : Ends x s Q fun _ _ => True) : Ends (Proc.releaseOnFail pd x) s Q fun _ _ => True := by
  unfold Ends at h ⊢
  unfold Proc.releaseOnFail
  cases hx : x s with
  | ok a s' =>
    rw [hx] at h
    exact h
  | error e s' => trivial

include hinv hpd

theorem processFill_spec {m₀ : Phys} (hkern : ∀ page, userStackBase ≤ page → page < userStackTop →
      pteAt s.phys pd page = pteAt m₀ pageDirAddr page ∧
      (pteAt s.phys pd page).userPresent = false)
    (f : VfsFile) (argv envp : List (Option (List UInt8))) (kstackOk resourcesOk : Bool) :
    Ends (processFill f argv envp kstackOk resourcesOk pd) s (fun p s' => p.pdPhys = pd ∧
      Created K live X m₀ ⟨s'.phys, p⟩) fun _ _ => True := by
  refine ((archElfLoadUserImage_spec f hinv hpd).failAs fun _ _ _ => trivial).bind
    (fun img s1 h1 => ?_) fun _ _ h => h
  obtain ⟨hload, hinv1, hadds⟩ := h1
  -- the image is below the stack area
  have hstack : ∀ page, userStackBase ≤ page → page < userStackTop →
      pteAt s1.phys pd page = pteAt s.phys pd page := by
    intro page hlo hhi
    refine hadds.pte page fun a ha => ?_
    have hin := (hload.inside a ha).2
    unfold userStackTop at hhi
    unfold userStackBase at hlo hin
    rw [Ne, slotOf_eq_iff (by omega) (by omega)]
    omega
  have hbounds : ∀ i < userStackPages, userStackBase ≤ stackVaddr i ∧ stackVaddr i < userStackTop := by
    intro i hi
    unfold userStackPages at hi
    unfold stackVaddr userStackBase userStackTop
    omega
  refine ((buildUserStack_spec hinv1 hpd (fun i hi => ?_) argv envp).failAs fun _ _ _ => trivial).bind
    (fun _ s2 h2 => ?_) fun _ _ h => h
  · obtain ⟨hlo, hhi⟩ := hbounds i hi
    rw [hstack _ hlo hhi]
    exact (hkern _ hlo hhi).2
  obtain ⟨hinv2, htop, hframe⟩ := h2
  split
  · trivial
  obtain ⟨hentry, hlo, hhi⟩ := hload.entry
  obtain ⟨i, hi, hli, hend, -⟩ := hload.heapStart
  have hheap : img.heapStart ≤ userStackBase := by
    obtain ⟨hti, hmi⟩ := Elf32Phdr.isLoad_iff.mp hli
    -- its last page is the segment's
    have hlast : (f.phdr i).stop - 1 ∈ (f.phdr i).pages := by
      refine (Elf32Phdr.mem_pages hmi).mpr ?_
      unfold Elf32Phdr.start Elf32Phdr.stop
      omega
    rw [hend]
    exact Nat.le_of_pred_lt (hload.inside _ ⟨i, hi, hti, hlast⟩).2
  refine (processVmas_spec (by omega) hheap s2).bind (fun t s3 h3 => ?_) fun _ _ h => h
  obtain ⟨rfl, hvma⟩ := h3
  split
  · trivial
  refine ⟨rfl, hinv2, hpd, rfl, htop, fun page hpage hlo' hhi' => ?_, hvma⟩
  have hhi'' : page < userStackTop := Nat.lt_of_lt_of_le hhi' (Nat.sub_le _ _)
  rw [hframe page fun i hi => ?_, hstack page hlo' hhi'', (hkern page hlo' hhi'').1]
  unfold lowestStackPage userStackPages userStackTop at hhi'
  unfold userStackPages at hi
  unfold stackVaddr userStackTop
  rw [Ne, slotOf_eq_iff (by omega) (by omega)]
  omega

end

/-- A process `process_create_file` returns. -/
theorem processCreateFileMem_spec (hinv : PagingInv K live X s.phys) {f : VfsFile}
    {argv envp : List (Option (List UInt8))} {kstackOk resourcesOk : Bool} {p : Mm.Proc} {s' : LoadState}
    (hrun : processCreateFileMem f argv envp kstackOk resourcesOk s = .ok p s') :
    Created K (insert p.pdPhys live) X s.phys ⟨s'.phys, p⟩ := by
  suffices hends : Ends (processCreateFileMem f argv envp kstackOk resourcesOk) s (fun p s' =>
      Created K (insert p.pdPhys live) X s.phys ⟨s'.phys, p⟩) fun _ _ => True from
    hends.of_ok hrun
  unfold processCreateFileMem
  rw [ends_bind, ends_get]
  rcases hc : pagingCreateUserSpace s.phys with ⟨pd, m⟩
  dsimp only
  split
  · trivial
  next h0 =>
  rcases hinv.create with hnone | ⟨n, m', hn, -, -, -, hinv', hnouser, -⟩
  · rw [hc] at hnone
    exact absurd (Prod.mk.inj hnone).1 h0
  rw [hc] at hn
  cases hn
  have hlive := Finset.mem_insert_self pd live
  have hkern : ∀ page, userStackBase ≤ page → page < userStackTop →
      pteAt m pd page = pteAt s.phys pageDirAddr page ∧ (pteAt m pd page).userPresent = false := by
    intro page hlo hhi
    refine ⟨create_pteAt hinv hc h0 (inheritedPde_stack _ hlo hhi), ?_⟩
    have hview : (pteAt m pd page).view = none := by
      rw [← hinv'.userPte_slotOf hlive page]
      exact if_neg (by rw [slotOf, hnouser _ (pdIndex_lt page)]; simp)
    by_contra hne
    rw [Entry.view, if_pos (by simpa using hne)] at hview
    cases hview
  have hfill : Ends (processFill f argv envp kstackOk resourcesOk pd) { s with phys := m } _ _ :=
    processFill_spec hinv' hlive hkern f argv envp kstackOk resourcesOk
  refine Ends.releaseOnFail (hfill.mono (fun p s' h => ?_) fun _ _ h => h)
  obtain ⟨rfl, h⟩ := h
  exact h

end Created

/-! ## The hole -/

section Hole

variable {K live : Finset Nat} {X : Nat → Nat} {m₀ : Phys} {t : StackSys}

/-- Below the four pages nobody mapped anything for the user. -/
theorem Created.not_userWritable (h : Created K live X m₀ t)
    (hkern : ∀ page, (pteAt m₀ pageDirAddr page).userPresent = false) (hpage : page % 4096 = 0)
    (hlo : userStackBase ≤ page) (hhi : page < lowestStackPage) : ¬ UserWritable t page := by
  rintro ⟨m, hm, huser, -⟩
  rw [h.inv.query_eq h.live, h.rest page hpage hlo hhi] at hm
  split at hm
  next hpres =>
    have hno := hkern page
    rw [Entry.userPresent, hpres, Bool.true_and] at hno
    rw [← Option.some.inj hm] at huser
    exact absurd (huser.symm.trans hno) (by decide)
  · cases hm

/-- The growth branch wants a page below `stack_low_limit`, and the area ends there. -/
theorem Created.miss_refused (h : Created K live X m₀ t) {cr2 : Nat} (hlo : userStackBase ≤ cr2)
    (hhi : cr2 < userStackTop) (write : Bool) (userEsp : Nat) :
    pagingHandleFault true t.phys t.proc cr2 ⟨false, write, true⟩ userEsp = (-1, t.phys, t.proc) := by
  have hbase : ¬ cr2 / 4096 * 4096 < t.proc.stackLowLimit := by
    rw [h.low]
    unfold userStackBase at hlo ⊢
    omega
  have hallow : vmaAllowsAccess stackVma ⟨false, write, true⟩ = true := by cases write <;> rfl
  have hfile : vmaIsPrivateFileBacked stackVma = false := rfl
  unfold pagingHandleFault
  simp only [h.vma cr2 hlo hhi, hallow, hfile, Bool.not_true, Bool.not_false, if_true,
    Bool.false_eq_true, if_false]
  unfold faultHandleLazyAnonFault
  rw [if_neg (by decide), if_neg (by decide), if_neg fun hc => hbase hc.2.2.2.1]

/-- Every process that `process_create_file` makes has the top four pages of its stack and
none of the sixty below, which are all at or above its `stack_low_limit`; a miss in them is
refused, whatever memory there is. So no run of stack faults starts with the stack in order. -/
theorem created_stack_never_ok {s s' : LoadState} (hinv : PagingInv K live X s.phys) {f : VfsFile}
    {argv envp : List (Option (List UInt8))} {kstackOk resourcesOk : Bool} {p : Mm.Proc}
    (hrun : processCreateFileMem f argv envp kstackOk resourcesOk s = .ok p s') :
    p.stackLowLimit = userStackBase ∧
    (∀ i < userStackPages, UserWritable ⟨s'.phys, p⟩ (stackVaddr i)) ∧
    (∀ page, page % 4096 = 0 → userStackBase ≤ page → page < lowestStackPage →
      ¬ UserWritable ⟨s'.phys, p⟩ page ∧
      ∀ cr2 write userEsp, cr2 / 4096 * 4096 = page →
        pagingHandleFault true s'.phys p cr2 ⟨false, write, true⟩ userEsp = (-1, s'.phys, p)) ∧
    ¬ ∀ t, Reach stackStep InStack ⟨s'.phys, p⟩ t → StackOk t := by
  have hcreated := processCreateFileMem_spec hinv hrun
  have hkern : ∀ page, (pteAt s.phys pageDirAddr page).userPresent = false := by
    intro page
    unfold pteAt
    split
    next hc =>
      rw [Bool.and_eq_true] at hc
      exact hinv.kern _ (hinv.kpde _ (pdIndex_lt page) hc.1) _ (ptIndex_lt page)
    · rfl
  have hhole : ∀ page, page % 4096 = 0 → userStackBase ≤ page → page < lowestStackPage →
      ¬ UserWritable ⟨s'.phys, p⟩ page := fun page => hcreated.not_userWritable hkern
  refine ⟨hcreated.low, fun i hi => ?_, fun page hpage hlo hhi => ⟨hhole page hpage hlo hhi, ?_⟩, ?_⟩
  · obtain ⟨a, ha⟩ := hcreated.top i hi
    exact ⟨(stackPte a).mapping, by rw [hcreated.inv.query_eq hcreated.live, ha]; rfl, rfl, rfl⟩
  · rintro cr2 write userEsp rfl
    unfold lowestStackPage userStackPages at hhi
    exact hcreated.miss_refused (by omega) (by omega) write userEsp
  · intro hall
    exact hhole userStackBase (by decide) le_rfl (by decide)
      ((hall _ Reach.start).mapped userStackBase (by decide) hcreated.low.le (by decide))

end Hole

/-! ## A process as it is created -/

/-- The small machine with 40 frames. -/
def roomyPhys : Phys := { smallPhys with pmm := { smallPhys.pmm with maxPages := 40 } }

/-- Before the first process. -/
def roomyStart : LoadState := ⟨roomyPhys, fun _ _ => 0, 0⟩

theorem roomyPhys_booted : Booted smallKernel roomyPhys :=
  { smallPhys_booted with
    pmm := by unfold PmmInv; decide
    max := by decide }

/-- What a result says of a new process: the recorded limit, the page there, free
memory, and how the fault one page below the mapped ones ends. -/
def showsHole : EStateM.Result Int LoadState Mm.Proc → Bool
  | .ok p s => p.stackLowLimit = userStackBase &&
      (pagingQueryPage s.phys p.pdPhys userStackBase = none &&
      (0 < pmmCoreFreePageCount s.phys.pmm &&
      (pagingHandleFault true s.phys p 0xBFFFBFF0 ⟨false, true, true⟩ 0xBFFFBFF0).1 = -1))
  | .error _ _ => false

/-- A process as `process_create_file` makes it: the page at `stack_low_limit` is not
mapped, and a push into the fifth stack page, with memory left, is not served. -/
theorem created_stack_has_hole : Booted smallKernel roomyPhys ∧
    ∃ p s', processCreateFileMem smallElf [] [] true true roomyStart = .ok p s' ∧
      p.stackLowLimit = userStackBase ∧ pagingQueryPage s'.phys p.pdPhys userStackBase = none ∧
      0 < pmmCoreFreePageCount s'.phys.pmm ∧
      (pagingHandleFault true s'.phys p 0xBFFFBFF0 ⟨false, true, true⟩ 0xBFFFBFF0).1 = -1 ∧
      ¬ StackOk ⟨s'.phys, p⟩ := by
  refine ⟨roomyPhys_booted, ?_⟩
  have hshow : showsHole (processCreateFileMem smallElf [] [] true true roomyStart) = true := by
    decide +kernel
  cases hrun : processCreateFileMem smallElf [] [] true true roomyStart with
  | error e s' =>
    rw [hrun] at hshow
    exact absurd hshow (by simp [showsHole])
  | ok p s' =>
    rw [hrun] at hshow
    simp only [showsHole, Bool.and_eq_true, decide_eq_true_eq] at hshow
    obtain ⟨hlow, hnone, hfree, hfault⟩ := hshow
    refine ⟨p, s', rfl, hlow, hnone, hfree, hfault, fun hok => ?_⟩
    obtain ⟨m, hm, -⟩ := hok.mapped userStackBase (by decide) (by rw [hlow]) (by decide)
    rw [hnone] at hm
    cases hm

/-- So it is of the small file on the small machine. -/
theorem created_stack_never_ok_small : ∃ p s',
    processCreateFileMem smallElf [] [] true true roomyStart = .ok p s' ∧
    ¬ ∀ t, Reach stackStep InStack ⟨s'.phys, p⟩ t → StackOk t := by
  have hok : (value (processCreateFileMem smallElf [] [] true true) roomyStart).isSome = true := by
    decide +kernel
  cases hrun : processCreateFileMem smallElf [] [] true true roomyStart with
  | error e s' =>
    rw [value, hrun] at hok
    cases hok
  | ok p s' => exact ⟨p, s', rfl, (created_stack_never_ok roomyPhys_booted.inv hrun).2.2.2⟩

end Drunix.Proc
