import Drunix.Mm.Pmm

/-!
# x86 page directories and page tables

`arch/x86/mm/paging.c`. Physical memory is a function from page address
and word index to the 32-bit entry stored there; a page directory and a page
table are both a page of 1024 entries. An entry is kept decoded, the frame
address beside the flag bits the code tests or sets (`PG_PRESENT` … `PG_SHARED`);
the bits no function looks at (accessed, dirty, global) are not carried.

What the hardware caches (`invlpg`, `cr3`) has no place in the model: every
function flushes what it changes, so the tables are what the processor sees.
The loops over the 1024 entries of a table are folds over `List.range 1024`, in
the order of the source.

Mirroring notes:
- `paging_phys_ptr` returns NULL at or above `ARCH_KERNEL_DIRECT_PHYS_MAX`;
  that test is `physPtr`.
- `paging_create_user_space` reads the linker symbol `_kernel_end`; it is the
  field `kernelEnd`.
-/

namespace Drunix.Mm

open Lib Function

/-- The flag bits of a PDE or PTE. -/
structure PgFlags where
  present : Bool := false
  writable : Bool := false
  user : Bool := false
  pwt : Bool := false
  pcd : Bool := false
  pat4k : Bool := false
  cow : Bool := false
  io : Bool := false
  shared : Bool := false
deriving DecidableEq, Repr

/-- A decoded PDE or PTE; `{}` is the zero word. -/
structure Entry extends PgFlags where
  addr : Nat := 0
deriving DecidableEq, Repr

/-- `ARCH_MM_MAP_*`: the architecture-neutral mapping flags. -/
structure MapFlags where
  present : Bool := false
  read : Bool := false
  write : Bool := false
  exec : Bool := false
  user : Bool := false
  cow : Bool := false
  io : Bool := false
  shared : Bool := false
  nc : Bool := false
deriving DecidableEq, Repr

/-- `arch_mm_mapping_t`. -/
structure Mapping where
  physAddr : Nat
  flags : MapFlags
deriving DecidableEq, Repr

/-- The frame allocator and the contents of the paging structures. -/
structure Phys where
  pmm : PmmCore
  mem : Nat → Nat → Entry
  kernelEnd : Nat

/-- `PAGE_DIR_ADDR`, the kernel's own page directory. -/
def pageDirAddr : Nat := 0x11000

/-- `addr & PG_ENTRY_ADDR_MASK`. -/
def pageDown (addr : Nat) : Nat := addr / pageSize * pageSize

/-- `paging_entry_build`. -/
def pagingEntryBuild (addr : Nat) (flags : PgFlags) : Entry := { flags with addr := pageDown addr }

/-- `paging_phys_ptr(phys) != NULL`. -/
def physPtr (phys : Nat) : Bool := decide (phys < 0x40000000)

/-- `virt >> 22`. -/
def pdIndex (virt : Nat) : Nat := virt / 4194304 % 1024

/-- `(virt >> 12) & 0x3FF`. -/
def ptIndex (virt : Nat) : Nat := virt / 4096 % 1024

/-- `paging_user_page_allowed`. -/
def pagingUserPageAllowed (virt : Nat) : Bool :=
  decide (0x10000 ≤ virt ∧ virt ≤ 0xC0000000 - 0x1000)

/-- Both `PG_PRESENT` and `PG_USER` are set. -/
def Entry.userPresent (e : Entry) : Bool := e.present && e.user

/-- Store one entry. -/
def Phys.setEntry (s : Phys) (page i : Nat) (e : Entry) : Phys :=
  { s with mem := update s.mem page (update (s.mem page) i e) }

/-- Fill a whole page. -/
def Phys.setTable (s : Phys) (page : Nat) (f : Nat → Entry) : Phys :=
  { s with mem := update s.mem page f }

/-- `pmm_alloc_page`. -/
def pmmAllocPage (s : Phys) : Nat × Phys :=
  ((pmmCoreAllocPage s.pmm).1, { s with pmm := (pmmCoreAllocPage s.pmm).2 })

/-- `pmm_incref`. -/
def pmmIncref (s : Phys) (phys : Nat) : Phys := { s with pmm := pmmCoreIncref s.pmm phys }

/-- `pmm_decref`. -/
def pmmDecref (s : Phys) (phys : Nat) : Phys := { s with pmm := pmmCoreDecref s.pmm phys }

/-- `pmm_free_page`. -/
def pmmFreePage (s : Phys) (phys : Nat) : Phys := pmmDecref s phys

/-- `pmm_refcount`. -/
def pmmRefcount (s : Phys) (phys : Nat) : Nat := pmmCoreRefcount s.pmm phys

/-- `paging_lookup_slot`: the page table and index of the PTE for `virt`. -/
def pagingLookupSlot (s : Phys) (pd virt : Nat) : Option (Nat × Nat) :=
  if !physPtr pd then none
  else
    let pde := s.mem pd (pdIndex virt)
    if !pde.present then none
    else if !physPtr pde.addr then none
    else some (pde.addr, ptIndex virt)

/-- `paging_walk`. -/
def pagingWalk (s : Phys) (pd virt : Nat) : Option (Nat × Nat) :=
  match pagingLookupSlot s pd virt with
  | none => none
  | some (pt, i) => if (s.mem pt i).present then some (pt, i) else none

/-- `paging_query_page`. -/
def pagingQueryPage (s : Phys) (pd virt : Nat) : Option Mapping :=
  match pagingWalk s pd virt with
  | none => none
  | some (pt, i) =>
    let e := s.mem pt i
    some { physAddr := e.addr
           flags := { present := true, read := true, write := e.writable, user := e.user,
                      cow := e.cow, io := e.io, shared := e.shared } }

/-- `paging_create_user_space`'s choice of inherited PDE slots. -/
def inheritedPde (kernelEnd i : Nat) : Bool :=
  decide (i < (kernelEnd + 0x3FFFFF) / 4194304) ||
  decide (0xB0000000 / 4194304 ≤ i ∧ i < (0xC0000000 + 0x3FFFFF) / 4194304) ||
  decide (0xC0000000 / 4194304 ≤ i)

/-- The PDE `paging_create_user_space` puts at index `i`. -/
def createPde (s : Phys) (i : Nat) : Entry :=
  let pde := s.mem pageDirAddr i
  if inheritedPde s.kernelEnd i && (pde.present && !pde.user) then pde else {}

/-- `paging_create_user_space`: the new page directory, `0` on failure. -/
def pagingCreateUserSpace (s : Phys) : Nat × Phys :=
  let (pd, s) := pmmAllocPage s
  if pd = 0 then (0, s)
  else if !physPtr pd then (0, pmmFreePage s pd)
  else (pd, s.setTable pd (createPde s))

/-- `paging_destroy_user_space`, the inner loop's body. -/
def destroyPte (pt : Nat) (s : Phys) (pti : Nat) : Phys :=
  let e := s.mem pt pti
  if !e.userPresent then s
  else (if !e.io then pmmDecref s e.addr else s).setEntry pt pti {}

/-- `paging_destroy_user_space`, the outer loop's body. -/
def destroyPde (pd : Nat) (s : Phys) (pdi : Nat) : Phys :=
  let pde := s.mem pd pdi
  if !pde.userPresent then s
  else if !physPtr pde.addr then s
  else
    let s := (List.range 1024).foldl (destroyPte pde.addr) s
    (pmmFreePage s pde.addr).setEntry pd pdi {}

/-- `paging_destroy_user_space`. -/
def pagingDestroyUserSpace (s : Phys) (pd : Nat) : Phys :=
  if pd = 0 ∨ pd = pageDirAddr then s
  else if !physPtr pd then s
  else pmmFreePage ((List.range 1024).foldl (destroyPde pd) s) pd

/-- `paging_map_page`. -/
def pagingMapPage (s : Phys) (pd virt phys : Nat) (flags : PgFlags) : Int × Phys :=
  let pdi := pdIndex virt
  let pti := ptIndex virt
  let userPde : PgFlags := { present := true, writable := true, user := true }
  if !physPtr pd then (-1, s)
  else if flags.user && !pagingUserPageAllowed virt then (-1, s)
  else
    let pde := s.mem pd pdi
    if !pde.present then
      let (pt, s) := pmmAllocPage s
      if pt = 0 then (-1, s)
      else if !physPtr pt then (-1, pmmFreePage s pt)
      else
        let s := s.setTable pt fun _ => {}
        let s := s.setEntry pd pdi (pagingEntryBuild pt userPde)
        (0, s.setEntry pt pti (pagingEntryBuild phys flags))
    else if flags.user && !pde.user then
      -- a kernel-inherited page table: take a private copy before the user PTE goes in
      let (pt, s) := pmmAllocPage s
      if pt = 0 then (-1, s)
      else if !physPtr pde.addr || !physPtr pt then (-1, pmmFreePage s pt)
      else if (s.mem pde.addr pti).present && !(s.mem pde.addr pti).user then
        (-1, pmmFreePage s pt)
      else
        let s := s.setTable pt (s.mem pde.addr)
        let s := s.setEntry pd pdi (pagingEntryBuild pt userPde)
        (0, s.setEntry pt pti (pagingEntryBuild phys flags))
    else
      let pt := pde.addr
      if !physPtr pt then (-1, s)
      else if flags.user && (s.mem pt pti).present && !(s.mem pt pti).user then (-1, s)
      else
        let s := if flags.user then s.setEntry pd pdi { pde with user := true } else s
        (0, s.setEntry pt pti (pagingEntryBuild phys flags))

/-- `paging_unmap_page`. -/
def pagingUnmapPage (s : Phys) (pd virt : Nat) : Int × Phys :=
  if !physPtr pd then (-1, s)
  else
    match pagingWalk s pd virt with
    | none => (-1, s)
    | some (pt, i) =>
      let e := s.mem pt i
      let s := if (s.mem pd (pdIndex virt)).user && e.user && !e.io then pmmDecref s e.addr else s
      (0, s.setEntry pt i {})

/-- The flag word `paging_update_page` stores. -/
def updatedEntry (e : Entry) (clear set : MapFlags) : Entry :=
  let e := if clear.write then { e with writable := false } else e
  let e := if clear.cow then { e with cow := false } else e
  if set.cow then { e with cow := true, writable := false }
  else if set.write then { e with writable := true }
  else e

/-- `paging_update_page`. -/
def pagingUpdatePage (s : Phys) (pd virt : Nat) (clear set : MapFlags) : Int × Phys :=
  match pagingWalk s pd virt with
  | none => (-1, s)
  | some (pt, i) =>
    if clear.present || set.present || clear.read || set.read || clear.exec || set.exec
        || clear.user || set.user then (-1, s)
    else (0, s.setEntry pt i (updatedEntry (s.mem pt i) clear set))

/-! ## `paging_clone_user_space` -/

/-- Pass 1's search for a present user PTE. -/
def hasUserPte (s : Phys) (pt : Nat) : Bool :=
  (List.range 1024).any fun j => (s.mem pt j).userPresent

/-- The roll-back loop `for (k = 0; k < i; k++)` of pass 1: free the child page
tables that are not the parent's. -/
def cloneRollback (src new : Nat) (s : Phys) (k : Nat) : Phys :=
  if !(s.mem new k).present then s
  else if (s.mem new k).addr ≠ (s.mem src k).addr then pmmFreePage s (s.mem new k).addr
  else s

/-- Pass 1: allocate the child page tables. `false` is the failing return, with
the roll-back already done. -/
def clonePass1 (src new : Nat) : List Nat → Phys → Bool × Phys
  | [], s => (true, s)
  | i :: is, s =>
    let pde := s.mem src i
    if !pde.present then clonePass1 src new is s
    else if !physPtr pde.addr then clonePass1 src new is s
    else if !hasUserPte s pde.addr then clonePass1 src new is (s.setEntry new i pde)
    else
      let (pt, s) := pmmAllocPage s
      if pt = 0 then
        (false, pmmFreePage ((List.range i).foldl (cloneRollback src new) s) new)
      else if !physPtr pt then
        (false, pmmFreePage (pmmFreePage ((List.range i).foldl (cloneRollback src new) s) pt) new)
      else clonePass1 src new is (s.setEntry new i { pde with addr := pageDown pt })

/-- Pass 2, one PTE: share it, copy-on-write unless it is device or shared memory. -/
def clonePte (srcPt newPt : Nat) (s : Phys) (j : Nat) : Phys :=
  let e := s.mem srcPt j
  if !e.userPresent then s
  else if e.io then s.setEntry newPt j e
  else if e.shared then pmmIncref (s.setEntry newPt j e) e.addr
  else
    let e' := if e.writable then { e with writable := false, cow := true } else e
    let s := if e.writable then s.setEntry srcPt j e' else s
    pmmIncref (s.setEntry newPt j e') e.addr

/-- Pass 2, one PDE. -/
def clonePde (src new : Nat) (s : Phys) (i : Nat) : Phys :=
  let npde := s.mem new i
  let spde := s.mem src i
  if !npde.present then s
  else if npde.addr = spde.addr then s
  else if !physPtr spde.addr || !physPtr npde.addr then s
  else (List.range 1024).foldl (clonePte spde.addr npde.addr)
    (s.setTable npde.addr (s.mem spde.addr))

/-- `paging_clone_user_space`: the child's page directory, `0` on failure. -/
def pagingCloneUserSpace (s : Phys) (src : Nat) : Nat × Phys :=
  let (new, s) := pmmAllocPage s
  if new = 0 then (0, s)
  else if !physPtr new || !physPtr src then (0, pmmFreePage s new)
  else
    match clonePass1 src new (List.range 1024) (s.setTable new fun _ => {}) with
    | (false, s) => (0, s)
    | (true, s) => (new, (List.range 1024).foldl (clonePde src new) s)

/-! ## The architecture-neutral entry points of `arch/x86/arch.c` -/

/-- `arch_mm_to_paging_flags`. -/
def archMmToPagingFlags (f : MapFlags) : PgFlags where
  present := f.present
  writable := f.write && !f.cow
  user := f.user
  pat4k := f.nc
  cow := f.cow
  io := f.io || f.nc
  shared := f.shared

/-- `arch_mm_map`. `phys` is 64-bit in the source. -/
def archMmMap (s : Phys) (pd virt phys : Nat) (flags : MapFlags) : Int × Phys :=
  if phys > 0xFFFFFFFF then (-1, s)
  else if flags.user && !pagingUserPageAllowed virt then (-1, s)
  else pagingMapPage s pd virt phys (archMmToPagingFlags flags)

end Drunix.Mm
