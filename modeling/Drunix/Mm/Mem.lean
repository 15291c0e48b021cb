import Drunix.Mm.Paging
import Drunix.Mm.Vma

/-!
# The memory system calls

`proc/syscall/mem.c` and `mm/commit.c`: brk, mmap, mmap2, munmap and
mprotect over the process's VMA table, its commit charge and its page tables.

Mirroring notes:
- `Proc` has the fields of `process_t` and `proc_address_space_t` these calls use.
- Everything outside (the fd table, a character device's callbacks, the window
  manager's pages, the kernel heap) comes with the call, as `MmapEnv`.
- `mmap` reads its arguments from user memory; they are `none` if that fails.
-/

namespace Drunix.Mm

open Lib

/-- A process, as far as its memory goes. -/
structure Proc where
  pdPhys : Nat
  vmas : VmTable
  brk : Nat
  rlimitData : Nat
  committedPages : Nat
  stackLowLimit : Nat

/-- `(uint32_t)-1`. -/
def errRet : Nat := 0xFFFFFFFF

/-- `(uint32_t)-LINUX_EINVAL`. -/
def einvalRet : Nat := 0xFFFFFFFF - 21

/-! ## The commit charge -/

/-- `vm_commit_pages_for_bytes`. -/
def vmCommitPagesForBytes (bytes : Nat) : Option Nat :=
  if bytes = 0 then some 0
  else if bytes > 0xFFFFFFFF - 4095 then none
  else some ((bytes + 4095) / 4096)

/-- `vm_commit_reserve`. -/
def vmCommitReserve (s : Phys) (p : Proc) (bytes : Nat) : Option Proc :=
  match vmCommitPagesForBytes bytes with
  | none => none
  | some pages =>
    if pages = 0 then some p
    else if p.committedPages > 0xFFFFFFFF - pages then none
    else if p.committedPages + pages > pmmCoreFreePageCount s.pmm then none
    else some { p with committedPages := p.committedPages + pages }

/-- A reservation changes the charge and nothing else. -/
theorem vmCommitReserve_some {s : Phys} {p p' : Proc} {bytes : Nat}
    (h : vmCommitReserve s p bytes = some p') : ∃ pages, p' = { p with committedPages := pages } := by
  unfold vmCommitReserve at h
  split at h
  · cases h
  split at h
  · exact ⟨p.committedPages, (Option.some.inj h).symm⟩
  split at h
  · cases h
  split at h
  · cases h
  · exact ⟨_, (Option.some.inj h).symm⟩

/-- `vm_commit_release`. -/
def vmCommitRelease (p : Proc) (bytes : Nat) : Proc :=
  match vmCommitPagesForBytes bytes with
  | none => p
  | some pages =>
    { p with committedPages := if pages > p.committedPages then 0 else p.committedPages - pages }

/-! ## Protection flags -/

/-- `prot_is_valid`: no bit outside `PROT_READ | PROT_WRITE | PROT_EXEC`. -/
def protIsValid (prot : Nat) : Bool := decide (prot < 8)

/-- `prot & LINUX_PROT_WRITE`. -/
def protWrite (prot : Nat) : Bool := prot.testBit 1

/-- `prot_has_user_access`. -/
def protHasUserAccess (prot : Nat) : Bool := prot.testBit 0 || prot.testBit 1 || prot.testBit 2

/-- `prot_to_vma_flags`. -/
def protToVmaFlags (prot : Nat) : VmaFlags where
  read := prot.testBit 0
  write := prot.testBit 1
  exec := prot.testBit 2
  anon := true
  priv := true

/-! ## Page-table helpers -/

/-- The pages of `for (page = start; page < end; page += PAGE_SIZE)`. -/
def pageRange (start stop : Nat) : List Nat :=
  (List.range ((stop - start + 4095) / 4096)).map fun i => start + i * 4096

/-- One page of `syscall_unmap_user_range`. -/
def unmapUserPage (pd : Nat) (s : Phys) (page : Nat) : Phys :=
  match pagingQueryPage s pd page with
  | none => s
  | some m => if !m.flags.user then s else (pagingUnmapPage s pd page).2

/-- `syscall_unmap_user_range`. -/
def syscallUnmapUserRange (s : Phys) (pd start stop : Nat) : Phys :=
  (pageRange start stop).foldl (unmapUserPage pd) s

/-- The flags `syscall_apply_mprotect` wants on a page that has `flags`. -/
def mprotectFlags (flags : MapFlags) (prot : Nat) : MapFlags :=
  { flags with user := protHasUserAccess prot, write := protWrite prot && !flags.cow }

/-- One page of `syscall_apply_mprotect`. -/
def applyMprotectPage (pd prot : Nat) (s : Phys) (page : Nat) : Phys :=
  match pagingQueryPage s pd page with
  | none => s
  | some m =>
    let desired := mprotectFlags m.flags prot
    if desired = m.flags then s
    else if desired.user = m.flags.user ∧ desired.write ≠ m.flags.write then
      let (rc, s) := pagingUpdatePage s pd page { write := m.flags.write } { write := desired.write }
      if rc = 0 then s else (archMmMap s pd page m.physAddr desired).2
    else (archMmMap s pd page m.physAddr desired).2

/-- `syscall_apply_mprotect`. -/
def syscallApplyMprotect (s : Phys) (pd start stop prot : Nat) : Phys :=
  (pageRange start stop).foldl (applyMprotectPage pd prot) s

/-- `syscall_range_has_shared_mapping`. -/
def syscallRangeHasSharedMapping (s : Phys) (pd start stop : Nat) : Bool :=
  (pageRange start stop).any fun page =>
    match pagingQueryPage s pd page with
    | none => false
    | some m => m.flags.shared

/-! ## How much of a range is charged -/

/-- `syscall_vma_is_committable`. -/
def vmaIsCommittable (v : VmArea) : Bool := v.kind = .generic && (v.flags.anon && v.flags.priv)

/-- The sum over the areas with `counts` of their overlap with the range,
saturating at `UINT32_MAX`. -/
def overlapBytes (counts : VmArea → Bool) (start stop : Nat) : List VmArea → Nat → Nat
  | [], bytes => bytes
  | v :: vs, bytes =>
    if !counts v || decide (start ≥ v.stop ∨ stop ≤ v.start) ||
        decide (max start v.start ≥ min stop v.stop) then overlapBytes counts start stop vs bytes
    else if bytes > 0xFFFFFFFF - (min stop v.stop - max start v.start) then 0xFFFFFFFF
    else overlapBytes counts start stop vs (bytes + (min stop v.stop - max start v.start))

/-- `syscall_mprotect_transition_bytes`. -/
def mprotectTransitionBytes (p : Proc) (start stop : Nat) (new : VmaFlags) (reserve : Bool) : Nat :=
  if start ≥ stop then 0
  else overlapBytes
    (fun v => vmaIsCommittable v &&
      if reserve then !v.flags.write && new.write else v.flags.write && !new.write)
    start stop p.vmas.areas 0

/-- `syscall_committed_munmap_bytes`. -/
def committedMunmapBytes (p : Proc) (start stop : Nat) : Nat :=
  if start ≥ stop then 0
  else overlapBytes (fun v => vmaIsCommittable v && v.flags.write) start stop p.vmas.areas 0

/-! ## brk -/

/-- `heap_vma->end = new_brk`, the heap area being the first of its kind. -/
def setHeapEnd (newBrk : Nat) : List VmArea → List VmArea
  | [] => []
  | v :: vs => if v.kind = .heap then { v with stop := newBrk } :: vs else v :: setHeapEnd newBrk vs

/-- The charge for a growing heap; `none` is a refusal. -/
def brkReserve (s : Phys) (p : Proc) (heap : VmArea) (newBrk : Nat) : Option Proc :=
  if newBrk > p.brk then
    let oldCommitEnd := vmPageAlignUp p.brk
    let newCommitEnd := vmPageAlignUp newBrk
    if newBrk - heap.start > p.rlimitData then none
    else if newCommitEnd = 0 then none
    else if newCommitEnd > oldCommitEnd then vmCommitReserve s p (newCommitEnd - oldCommitEnd)
    else some p
  else some p

/-- `syscall_case_brk`. -/
def syscallCaseBrk (s : Phys) (p : Proc) (newBrk : Nat) : Nat × Phys × Proc :=
  match vmaFindKind p.vmas .heap with
  | none => (errRet, s, p)
  | some heap =>
    if newBrk = 0 then (p.brk, s, p)
    else if newBrk < heap.start ∨ newBrk > userStackBase then (p.brk, s, p)
    else
      match brkReserve s p heap newBrk with
      | none => (p.brk, s, p)
      | some p' =>
        let unmapStart := u32 (newBrk + 0xFFF) / 4096 * 4096
        let oldEnd := u32 (p.brk + 0xFFF) / 4096 * 4096
        let s' := if newBrk < p.brk then syscallUnmapUserRange s p.pdPhys unmapStart oldEnd else s
        let p' := if newBrk < p.brk ∧ oldEnd > unmapStart
          then vmCommitRelease p' (oldEnd - unmapStart) else p'
        (newBrk, s', { p' with
          brk := newBrk, vmas := { p'.vmas with areas := setHeapEnd newBrk p'.vmas.areas } })

/-! ## mmap -/

/-- `CHARDEV_CACHE_*`, and any other value. -/
inductive CachePolicy where
  | default
  | device
  | nc
  | wbFlush
  | unknown
deriving DecidableEq

/-- What mmap uses of a `chardev_ops_t`. -/
structure Chardev where
  mmapPhys : Option (Nat → Nat → Nat → Option Nat)
  mmapCachePolicy : Option (Nat → Nat → CachePolicy)

/-- An fd, by what mmap can do with it. -/
inductive FdEntry where
  | file (writeOnly : Bool) (mountId inodeNum size : Nat)
  | chardev (dev : Option Chardev)
  | wm (connId : Nat)
  | other

/-- What mmap finds around it. -/
structure MmapEnv where
  fd : Nat → FdEntry
  wmdevMmapPage : Nat → Nat → Nat → Option Nat
  kmalloc : Kmalloc
  kmallocUndo : Kmalloc

/-- `syscall_mmap_anonymous_private`. -/
def syscallMmapAnonymousPrivate (env : MmapEnv) (s : Phys) (p : Proc) (hint length prot : Nat) :
    Option Nat × Proc :=
  let flags := protToVmaFlags prot
  match if flags.write then vmCommitReserve s p length else some p with
  | none => (none, p)
  | some p =>
    match vmaMapAnonymous env.kmalloc p.vmas p.brk hint length flags with
    | (some addr, vmas) => (some addr, { p with vmas })
    | (none, vmas) =>
      let p := { p with vmas }
      (none, if flags.write then vmCommitRelease p length else p)

/-- `(length + PAGE_SIZE - 1u) & ~(PAGE_SIZE - 1u)`. -/
def mapLen (length : Nat) : Nat := u32 (length + 4095) / 4096 * 4096

/-- The mapping loop of the device mmaps: `mapOne` maps the page at an offset. -/
def mapEach (mapOne : Nat → Phys → Bool × Phys) : List Nat → Phys → Bool × Phys
  | [], s => (true, s)
  | off :: offs, s =>
    match mapOne off s with
    | (true, s) => mapEach mapOne offs s
    | (false, s) => (false, s)

/-- The common part of `syscall_mmap_chardev` and `syscall_mmap_wmdev`: reserve the
area, map its pages, and take both back if a page does not go in. -/
def mmapDevice (env : MmapEnv) (s : Phys) (p : Proc) (hint len prot : Nat)
    (mapOne : Nat → Nat → Phys → Bool × Phys) : Option Nat × Phys × Proc :=
  let flags := { protToVmaFlags prot with anon := false }
  match vmaMapAnonymous env.kmalloc p.vmas p.brk hint len flags with
  | (none, vmas) => (none, s, { p with vmas })
  | (some addr, vmas) =>
    match mapEach (mapOne addr) (pageRange 0 len) s with
    | (true, s) => (some addr, s, { p with vmas })
    | (false, s) =>
      (none, syscallUnmapUserRange s p.pdPhys addr (u32 (addr + len)),
        { p with vmas := (vmaUnmapRange env.kmallocUndo vmas addr (u32 (addr + len))).2 })

/-- The page flags of `syscall_mmap_chardev`. -/
def chardevFlags (dev : Chardev) (fileOffset len prot : Nat) : MapFlags :=
  let policy := match dev.mmapCachePolicy with
    | some f => f fileOffset len
    | none => .device
  { present := true, read := true, user := protHasUserAccess prot, write := protWrite prot
    io := policy = .device || policy = .unknown
    nc := policy = .nc }

/-- `syscall_mmap_chardev`. -/
def syscallMmapChardev (env : MmapEnv) (s : Phys) (p : Proc) (dev : Option Chardev)
    (hint length prot fileOffset : Nat) : Option Nat × Phys × Proc :=
  if length = 0 ∨ fileOffset % 4096 ≠ 0 then (none, s, p)
  else
    match dev with
    | none => (none, s, p)
    | some dev =>
      match dev.mmapPhys with
      | none => (none, s, p)
      | some mmapPhys =>
        let len := mapLen length
        if len = 0 then (none, s, p)
        else
          match mmapPhys fileOffset len prot with
          | none => (none, s, p)
          | some base =>
            if base % 4096 ≠ 0 then (none, s, p)
            else mmapDevice env s p hint len prot fun addr off s =>
              let (rc, s) := archMmMap s p.pdPhys (addr + off) (base + off)
                (chardevFlags dev fileOffset len prot)
              (rc = 0, s)

/-- `syscall_mmap_wmdev`. -/
def syscallMmapWmdev (env : MmapEnv) (s : Phys) (p : Proc) (connId hint length prot fileOffset : Nat) :
    Option Nat × Phys × Proc :=
  if length = 0 ∨ fileOffset % 4096 ≠ 0 then (none, s, p)
  else if !protHasUserAccess prot then (none, s, p)
  else
    let len := mapLen length
    if len = 0 then (none, s, p)
    else mmapDevice env s p hint len prot fun addr off s =>
      match env.wmdevMmapPage connId fileOffset (off / 4096) with
      | none => (false, s)
      | some phys =>
        let (rc, s) := archMmMap (pmmIncref s phys) p.pdPhys (addr + off) phys
          { present := true, read := true, user := true, shared := true, write := protWrite prot }
        if rc ≠ 0 then (false, pmmDecref s phys) else (true, s)

/-- `syscall_mmap_private_file`. -/
def syscallMmapPrivateFile (env : MmapEnv) (p : Proc) (fd : FdEntry)
    (hint length prot fileOffset : Nat) : Option Nat × Proc :=
  if length = 0 ∨ fileOffset % 4096 ≠ 0 then (none, p)
  else
    match fd with
    | .file false mountId inodeNum size =>
      let len := mapLen length
      if len = 0 then (none, p)
      else if fileOffset > 0xFFFFFFFF - (len - 4096) then (none, p)
      else
        let (addr, vmas) := vmaMapFilePrivate env.kmalloc p.vmas p.brk hint len
          { protToVmaFlags prot with anon := false } mountId inodeNum fileOffset size
        (addr, { p with vmas })
    | _ => (none, p)

/-- What `syscall_case_mmap` and `syscall_case_mmap2` share. The offset is `none`
where it does not fit. -/
def mmapRequest (env : MmapEnv) (s : Phys) (p : Proc) (addr length prot flags fd : Nat)
    (offset : Option Nat) : Nat × Phys × Proc :=
  if length = 0 ∨ protIsValid prot = false then (einvalRet, s, p)
  else if flags.testBit 5 then
    -- MAP_ANONYMOUS
    if flags ≠ 0x22 ∨ offset ≠ some 0 then (errRet, s, p)
    else
      let (r, p) := syscallMmapAnonymousPrivate env s p addr length prot
      (r.getD errRet, s, p)
  else if fd ≥ 16 then (errRet, s, p)
  else
    match offset with
    | none => (errRet, s, p)
    | some offset =>
      match env.fd fd with
      | .wm connId =>
        if flags ≠ 1 then (errRet, s, p)
        else
          let (r, s, p) := syscallMmapWmdev env s p connId addr length prot offset
          (r.getD errRet, s, p)
      | .chardev dev =>
        if flags ≠ 1 then (errRet, s, p)
        else
          let (r, s, p) := syscallMmapChardev env s p dev addr length prot offset
          (r.getD errRet, s, p)
      | entry =>
        if flags ≠ 2 then (errRet, s, p)
        else
          let (r, p) := syscallMmapPrivateFile env p entry addr length prot offset
          (r.getD errRet, s, p)

/-- `old_mmap_args_t`. -/
structure OldMmapArgs where
  addr : Nat
  length : Nat
  prot : Nat
  flags : Nat
  fd : Nat
  offset : Nat

/-- `syscall_case_mmap`. -/
def syscallCaseMmap (env : MmapEnv) (s : Phys) (p : Proc) (args : Option OldMmapArgs) :
    Nat × Phys × Proc :=
  match args with
  | none => (errRet, s, p)
  | some a => mmapRequest env s p a.addr a.length a.prot a.flags a.fd (some a.offset)

/-- `syscall_case_mmap2`. -/
def syscallCaseMmap2 (env : MmapEnv) (s : Phys) (p : Proc) (addr length prot flags fd pgoff : Nat) :
    Nat × Phys × Proc :=
  mmapRequest env s p addr length prot flags fd
    (if pgoff > 0xFFFFFFFF / 4096 then none else some (pgoff * 4096))

/-! ## munmap and mprotect -/

/-- `syscall_case_munmap`. -/
def syscallCaseMunmap (k : Kmalloc) (s : Phys) (p : Proc) (addr len : Nat) : Nat × Phys × Proc :=
  if addr = 0 ∨ addr % 4096 ≠ 0 ∨ len = 0 then (errRet, s, p)
  else
    let length := mapLen len
    let stop := u32 (addr + length)
    if length = 0 ∨ stop ≤ addr ∨ stop > userStackTop then (errRet, s, p)
    else
      let commitBytes := committedMunmapBytes p addr stop
      let (rc, vmas) := vmaUnmapRange k p.vmas addr stop
      if rc ≠ 0 then (errRet, s, { p with vmas })
      else (0, syscallUnmapUserRange s p.pdPhys addr stop, vmCommitRelease { p with vmas } commitBytes)

/-- `syscall_case_mprotect`. -/
def syscallCaseMprotect (k : Kmalloc) (s : Phys) (p : Proc) (addr len prot : Nat) :
    Nat × Phys × Proc :=
  if addr = 0 ∨ addr % 4096 ≠ 0 ∨ len = 0 ∨ protIsValid prot = false then (errRet, s, p)
  else
    let length := mapLen len
    let stop := u32 (addr + length)
    if length = 0 ∨ stop ≤ addr ∨ stop > userStackTop then (errRet, s, p)
    else
      let new := protToVmaFlags prot
      if !protHasUserAccess prot && syscallRangeHasSharedMapping s p.pdPhys addr stop then
        (errRet, s, p)
      else
        let reserveBytes := mprotectTransitionBytes p addr stop new true
        match if reserveBytes ≠ 0 then vmCommitReserve s p reserveBytes else some p with
        | none => (errRet, s, p)
        | some p =>
          let releaseBytes := mprotectTransitionBytes p addr stop new false
          let (rc, vmas) := vmaProtectRange k p.vmas addr stop new
          let p := { p with vmas }
          if rc ≠ 0 then
            (errRet, s, if reserveBytes ≠ 0 then vmCommitRelease p reserveBytes else p)
          else
            (0, syscallApplyMprotect s p.pdPhys addr stop prot,
              if releaseBytes ≠ 0 then vmCommitRelease p releaseBytes else p)

/-! ## A fresh process -/

/-- The VMA part of `process_create_file`: image, empty heap, stack, in the inline
table, then moved into the process's address space. `none` is a failed creation. -/
def processCreateVmas (pdPhys imageStart imageEnd : Nat) : Option Proc :=
  let k : Kmalloc := { grow := true, rebuild := true }
  let t : VmTable := { areas := [], capacity := 16, dynamic := false }
  let (rc, t) := if imageStart < imageEnd
    then vmaAdd k t imageStart imageEnd { read := true, write := true, exec := true, priv := true } .image
    else (0, t)
  if rc ≠ 0 then none
  else
    let (rc, t) := vmaAdd k t imageEnd imageEnd
      { read := true, write := true, anon := true, priv := true } .heap
    if rc ≠ 0 then none
    else
      let (rc, t) := vmaAdd k t userStackBase userStackTop
        { read := true, write := true, anon := true, priv := true, growsdown := true } .stack
      if rc ≠ 0 then none
      else some
        { pdPhys, vmas := { t with capacity := 32, dynamic := true }, brk := imageEnd
          rlimitData := 64 * 1024 * 1024, committedPages := 0, stackLowLimit := userStackBase }

end Drunix.Mm
