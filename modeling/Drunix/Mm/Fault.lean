import Drunix.Mm.Mem

/-!
# Demand faults and user access

`mm/fault.c` and `proc/uaccess.c`: lazy anonymous and file pages,
stack growth, and breaking copy-on-write, from a page fault or from a copy into
user memory. Page contents are not carried; what is modelled is the frames taken
and given back and the PTEs written.

Mirroring notes:
- `paging_temp_map` succeeds below `ARCH_KERNEL_DIRECT_PHYS_MAX` (`physPtr`).
- Whether reading a file page succeeds comes with the call.
- `fault_break_cow` and `uaccess_break_cow` have one body, `breakCow`; the two lazy
  anonymous paths share `mapFresh`.
-/

namespace Drunix.Mm

open Lib

/-- The bits of a page fault's error code. -/
structure PfErr where
  present : Bool
  write : Bool
  user : Bool

/-- A frame is allocated, cleared and mapped; it goes back if that fails. -/
def mapFresh (s : Phys) (pd page : Nat) (flags : MapFlags) : Int × Phys :=
  let (phys, s) := pmmAllocPage s
  if phys = 0 then (-1, s)
  else if !physPtr phys then (-1, pmmFreePage s phys)
  else
    let (rc, s) := archMmMap s pd page phys flags
    if rc ≠ 0 then (-1, pmmFreePage s phys) else (0, s)

/-- The body of `fault_break_cow` and `uaccess_break_cow`. -/
def breakCow (s : Phys) (pd page : Nat) : Int × Phys :=
  match pagingQueryPage s pd page with
  | none => (-1, s)
  | some m =>
    if !m.flags.cow then (-1, s)
    else if pmmRefcount s m.physAddr ≤ 1 then
      pagingUpdatePage s pd page { cow := true } { write := true }
    else
      let (newPhys, s) := pmmAllocPage s
      if newPhys = 0 then (-1, s)
      else if !physPtr newPhys || !physPtr m.physAddr then (-1, pmmFreePage s newPhys)
      else
        let (rc, s) := archMmMap s pd page newPhys { m.flags with write := true, cow := false }
        if rc ≠ 0 then (-1, pmmFreePage s newPhys) else (0, pmmDecref s m.physAddr)

/-- `fault_break_cow`. -/
def faultBreakCow (s : Phys) (pd page : Nat) : Int × Phys := breakCow s pd page

/-- `uaccess_break_cow`. -/
def uaccessBreakCow (s : Phys) (p : Proc) (page : Nat) : Int × Phys := breakCow s p.pdPhys page

/-- The flags of a page mapped on demand. -/
def lazyFlags (v : VmArea) : MapFlags :=
  { present := true, read := true, user := true, write := v.flags.write }

/-- `vma_allows_access`. -/
def vmaAllowsAccess (v : VmArea) (err : PfErr) : Bool :=
  (v.flags.read || v.flags.write || v.flags.exec) && (!err.write || v.flags.write)

/-- `vma_is_private_file_backed`. -/
def vmaIsPrivateFileBacked (v : VmArea) : Bool :=
  v.kind = .generic && (!v.flags.anon && (v.flags.priv && decide (v.mountId ≠ 0)))

/-- The stack-growth loop of `fault_handle_lazy_anon_fault`: page after page down
from `stack_low_limit`. Returns the limit reached. -/
def growStack (pd : Nat) (flags : MapFlags) : List Nat → Phys → Nat → Int × Phys × Nat
  | [], s, low => (0, s, low)
  | page :: pages, s, low =>
    match mapFresh s pd page flags with
    | (0, s) => growStack pd flags pages s page
    | (_, s) => (-1, s, low)

/-- The pages of that loop. -/
def stackPages (low faultPage start : Nat) : List Nat :=
  (List.range (min ((low - faultPage) / 4096) ((low - start) / 4096))).map fun i => low - (i + 1) * 4096

/-- `fault_handle_lazy_anon_fault`. -/
def faultHandleLazyAnonFault (s : Phys) (p : Proc) (v : VmArea) (cr2 userEsp : Nat) :
    Int × Phys × Proc :=
  let faultPage := cr2 / 4096 * 4096
  let stackSlack := if userEsp > 32 then userEsp - 32 else 0
  if !(v.flags.anon && v.flags.priv) then (-1, s, p)
  else if v.kind = .heap ∨ v.kind = .generic then
    let (rc, s) := mapFresh s p.pdPhys faultPage (lazyFlags v)
    (rc, s, p)
  else if v.kind = .stack ∧ v.flags.growsdown = true ∧ faultPage ≥ v.start ∧
      faultPage < p.stackLowLimit ∧ cr2 ≥ stackSlack ∧ cr2 < v.stop then
    let (rc, s, low) := growStack p.pdPhys (lazyFlags v)
      (stackPages p.stackLowLimit faultPage v.start) s p.stackLowLimit
    (rc, s, { p with stackLowLimit := low })
  else (-1, s, p)

/-- `fault_handle_lazy_file_private_fault`. The frame is allocated before the file
is read and goes back if the read fails. -/
def faultHandleLazyFilePrivateFault (readOk : Bool) (s : Phys) (pd faultPage : Nat) (v : VmArea) :
    Int × Phys :=
  if faultPage < v.start ∨ faultPage ≥ v.stop then (-1, s)
  else if !vmaIsPrivateFileBacked v then (-1, s)
  else
    let rel := faultPage - v.start
    let failed := decide (rel > 0xFFFFFFFF - v.fileOffset) ||
      (decide (v.fileOffset + rel < v.fileSize) && !readOk)
    if failed then
      let (phys, s) := pmmAllocPage s
      if phys = 0 then (-1, s) else (-1, pmmFreePage s phys)
    else mapFresh s pd faultPage (lazyFlags v)

/-- A supervisor mapping of the kernel's where the process has no page yet. -/
def kernelShadow (s : Phys) (pd page : Nat) : Bool :=
  match pagingQueryPage s pd page with
  | none => false
  | some m => !m.flags.user && !m.flags.cow

/-- `paging_handle_fault`. -/
def pagingHandleFault (readOk : Bool) (s : Phys) (p : Proc) (cr2 : Nat) (err : PfErr)
    (userEsp : Nat) : Int × Phys × Proc :=
  let faultPage := cr2 / 4096 * 4096
  let file (v : VmArea) : Int × Phys × Proc :=
    let (rc, s) := faultHandleLazyFilePrivateFault readOk s p.pdPhys faultPage v
    (rc, s, p)
  if !err.user then (-1, s, p)
  else
    match vmaFind p.vmas cr2 with
    | none => (-1, s, p)
    | some v =>
      if !vmaAllowsAccess v err then (-1, s, p)
      else if !err.present then
        if vmaIsPrivateFileBacked v then file v else faultHandleLazyAnonFault s p v cr2 userEsp
      else
        let shadow := kernelShadow s p.pdPhys faultPage
        if shadow && vmaIsPrivateFileBacked v then file v
        else if shadow && (v.flags.anon && v.flags.priv) then
          faultHandleLazyAnonFault s p v cr2 userEsp
        else if !err.write then (-1, s, p)
        else
          let (rc, s) := faultBreakCow s p.pdPhys faultPage
          (rc, s, p)

/-! ## `uaccess.c` -/

/-- `uaccess_map_lazy_anon`. -/
def uaccessMapLazyAnon (s : Phys) (p : Proc) (page : Nat) (v : VmArea) : Int × Phys :=
  if !(v.flags.anon && v.flags.priv) then (-1, s)
  else if v.kind ≠ .heap ∧ v.kind ≠ .generic then (-1, s)
  else mapFresh s p.pdPhys page (lazyFlags v)

/-- `uaccess_map_lazy`. -/
def uaccessMapLazy (readOk : Bool) (s : Phys) (p : Proc) (page : Nat) (v : VmArea) : Int × Phys :=
  if !v.flags.anon then faultHandleLazyFilePrivateFault readOk s p.pdPhys page v
  else uaccessMapLazyAnon s p page v

/-- `uaccess_vma_allows`. -/
def uaccessVmaAllows (v : VmArea) (write : Bool) : Bool :=
  if write then v.flags.write else v.flags.read || v.flags.write || v.flags.exec

/-- The mapping, after a lazy page where `missing` says there is none to use. -/
def uaccessEnsure (missing : Option Mapping → Bool) (readOk : Bool) (s : Phys) (p : Proc) (page : Nat)
    (v : VmArea) : Option Mapping × Phys :=
  if missing (pagingQueryPage s p.pdPhys page) then
    match uaccessMapLazy readOk s p page v with
    | (0, s) => (pagingQueryPage s p.pdPhys page, s)
    | (_, s) => (none, s)
  else (pagingQueryPage s p.pdPhys page, s)

/-- `uaccess_translate`, without the pointer it returns. -/
def uaccessTranslate (readOk : Bool) (s : Phys) (p : Proc) (addr : Nat) (write : Bool) : Int × Phys :=
  if addr ≥ userStackTop then (-1, s)
  else
    match vmaFind p.vmas addr with
    | none => (-1, s)
    | some v =>
      if !uaccessVmaAllows v write then (-1, s)
      else
        let page := addr / 4096 * 4096
        match uaccessEnsure (fun m => m.isNone) readOk s p page v with
        | (none, s) => (-1, s)
        | (some _, s) =>
          -- a present page the user cannot reach, and no copy-on-write page either
          match uaccessEnsure (fun m => m.any fun m => !m.flags.user && !m.flags.cow)
              readOk s p page v with
          | (none, s) => (-1, s)
          | (some m, s) =>
            if !m.flags.user then (-1, s)
            else if write && !m.flags.write then
              if !m.flags.cow then (-1, s)
              else
                match uaccessBreakCow s p page with
                | (0, s) =>
                  match pagingQueryPage s p.pdPhys page with
                  | none => (-1, s)
                  | some m => (if physPtr m.physAddr then 0 else -1, s)
                | (_, s) => (-1, s)
            else (if physPtr m.physAddr then 0 else -1, s)

/-- The first address of each chunk: the start, then every page boundary. -/
def chunkAddrs (addr len : Nat) : List Nat :=
  if len = 0 then []
  else
    (List.range ((addr % 4096 + len + 4095) / 4096)).map fun i =>
      if i = 0 then addr else (addr / 4096 + i) * 4096

section Prepare

variable {σ : Type} (translate : Nat → σ → Int × σ)

/-- Translate chunk after chunk; stop at the first that fails. -/
def translateEach : List Nat → σ → Int × σ
  | [], s => (0, s)
  | addr :: addrs, s =>
    match translate addr s with
    | (0, s) => translateEach addrs s
    | (_, s) => (-1, s)

/-- `uaccess_prepare`, for the process and the access of `translate`. -/
def uaccessPrepare (addr len : Nat) (s : σ) : Int × σ :=
  if !uaccessRangeOk addr len then (-1, s) else translateEach translate (chunkAddrs addr len) s

end Prepare

theorem mem_chunkAddrs {addr len a : Nat} (h : a ∈ chunkAddrs addr len) :
    addr ≤ a ∧ a < addr + len := by
  unfold chunkAddrs at h
  split at h
  · cases h
  · obtain ⟨i, hi, rfl⟩ := List.mem_map.mp h
    have hi := List.mem_range.mp hi
    split <;> omega

/-- `uaccess_copy_to_user`: prepare the range, then translate and copy each chunk. -/
def uaccessCopyToUser (readOk : Nat → Bool) (s : Phys) (p : Proc) (dst len : Nat) : Int × Phys :=
  let translate := fun addr s => uaccessTranslate (readOk addr) s p addr true
  match uaccessPrepare translate dst len s with
  | (0, s) => translateEach translate (chunkAddrs dst len) s
  | (_, s) => (-1, s)

end Drunix.Mm
