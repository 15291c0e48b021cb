import Drunix.Lib.Bytes

/-!
# The VMA table

`mm/vma.c`: a process's virtual memory areas, an array sorted by start
address. The table is a list; what the array functions do by index (scan, shift
up, write back) is done here by recursion over that list, in the same order.

Mirroring notes:
- `end` is a keyword; the field is `stop`.
- A table is `dynamic` once the process has its `proc_address_space_t`; before
  that the 16 inline entries of `process_t` are all there is.
- `kmalloc` may fail at two places, growing the table and rebuilding it. Its
  outcomes are the record `Kmalloc`.
- Addresses are below `2 ^ 32`; sums that can wrap in the source are `u32` here.
-/

namespace Drunix.Mm

open Lib

/-- `VMA_KIND_*`. -/
inductive VmaKind where
  | generic
  | heap
  | stack
  | image
deriving DecidableEq, Repr

/-- `VMA_FLAG_*`. -/
structure VmaFlags where
  read : Bool := false
  write : Bool := false
  exec : Bool := false
  anon : Bool := false
  priv : Bool := false
  growsdown : Bool := false
deriving DecidableEq, Repr

/-- `vm_area_t`. -/
structure VmArea where
  start : Nat
  stop : Nat
  flags : VmaFlags
  kind : VmaKind
  fileOffset : Nat := 0
  fileSize : Nat := 0
  mountId : Nat := 0
  inodeNum : Nat := 0
deriving DecidableEq, Repr

/-- The table of a process. -/
structure VmTable where
  areas : List VmArea
  capacity : Nat
  dynamic : Bool

/-- Does `kmalloc` succeed: for a larger table, for the rebuild buffer. -/
structure Kmalloc where
  grow : Bool
  rebuild : Bool

/-- `VM_MMAP_MIN`. -/
def vmMmapMin : Nat := 0x40000000

/-- `VM_STACK_GUARD_GAP`. -/
def vmStackGuardGap : Nat := 0x100000

/-- `USER_STACK_TOP`. -/
def userStackTop : Nat := 0xC0000000

/-- `USER_STACK_BASE`, which is also `USER_HEAP_MAX`. -/
def userStackBase : Nat := 0xBFFC0000

/-- `uaccess_range_ok`. -/
def uaccessRangeOk (addr len : Nat) : Bool :=
  len = 0 ∨ (addr < userStackTop ∧ addr ≤ u32 (addr + len) ∧ u32 (addr + len) ≤ userStackTop)

/-- `vm_page_align_down`. -/
def vmPageAlignDown (value : Nat) : Nat := value / 4096 * 4096

/-- `vm_page_align_up`: `0` where rounding up would wrap. -/
def vmPageAlignUp (value : Nat) : Nat :=
  if value > 0xFFFFFFFF - 0xFFF then 0 else (value + 0xFFF) / 4096 * 4096

/-- The `while (next_cap < needed) next_cap *= 2` of `vma_ensure_capacity`. -/
def growCapacity : Nat → Nat → Nat → Option Nat
  | 0, _, _ => none
  | fuel + 1, nextCap, needed =>
    if nextCap < needed then
      if nextCap > 0x80000000 then none else growCapacity fuel (u32 (nextCap * 2)) needed
    else some nextCap

/-- `vma_ensure_capacity`. Doubling from at least one reaches the bound in 33
rounds or fewer. -/
def vmaEnsureCapacity (k : Kmalloc) (t : VmTable) (needed : Nat) : Option VmTable :=
  if !t.dynamic then if needed ≤ 16 then some t else none
  else if t.capacity ≥ needed then some t
  else
    match growCapacity 34 (if t.capacity = 0 then 32 else t.capacity) needed with
    | none => none
    | some nextCap => if k.grow then some { t with capacity := nextCap } else none

/-- `vma_overlaps`. -/
def vmaOverlaps (v : VmArea) (start stop : Nat) : Bool := decide (start < v.stop ∧ stop > v.start)

/-- `vma_is_file_backed`. -/
def vmaIsFileBacked (v : VmArea) : Bool := v.kind = .generic && !v.flags.anon

/-- `vma_slice`. -/
def vmaSlice (v : VmArea) (start stop : Nat) : VmArea :=
  { v with
    fileOffset := if vmaIsFileBacked v && decide (start > v.start)
      then u32 (v.fileOffset + (start - v.start)) else v.fileOffset
    start := start
    stop := stop }

/-- `vma_replace_prot_flags`. -/
def vmaReplaceProtFlags (old new : VmaFlags) : VmaFlags :=
  { old with read := new.read, write := new.write, exec := new.exec }

/-- `vma_can_merge`. -/
def vmaCanMerge (l r : VmArea) : Bool :=
  if vmaIsFileBacked l || vmaIsFileBacked r then false
  else decide (l.stop = r.start ∧ l.flags = r.flags ∧ l.kind = r.kind ∧
    l.fileOffset = r.fileOffset ∧ l.fileSize = r.fileSize ∧ l.mountId = r.mountId ∧
    l.inodeNum = r.inodeNum)

/-- The body shared by `vma_coalesce` and `vma_append_area`: extend the last
entry if it can take the area. -/
def mergeLast (dst : List VmArea) (area : VmArea) : Option (List VmArea) :=
  match dst.getLast? with
  | none => none
  | some last =>
    if vmaCanMerge last area then some (dst.dropLast ++ [{ last with stop := area.stop }]) else none

/-- `vma_coalesce`. -/
def vmaCoalesce (areas : List VmArea) : List VmArea :=
  areas.foldl (fun out v => (mergeLast out v).getD (out ++ [v])) []

/-- `vma_append_area`. -/
def vmaAppendArea (capacity : Nat) (dst : List VmArea) (area : VmArea) : Option (List VmArea) :=
  if area.start > area.stop then none
  else
    match mergeLast dst area with
    | some dst' => some dst'
    | none => if dst.length ≥ capacity then none else some (dst ++ [area])

/-- `vma_range_is_free`. -/
def vmaRangeIsFree (t : VmTable) (start stop : Nat) : Bool :=
  decide (start < stop) && t.areas.all fun v => !vmaOverlaps v start stop

/-- The scan of `vma_insert_area` for the insertion point, with the shift. -/
def insertSorted (area : VmArea) : List VmArea → Option (List VmArea)
  | [] => some [area]
  | v :: vs =>
    if v.start ≤ area.start then
      if vmaOverlaps v area.start area.stop then none
      else (insertSorted area vs).map (v :: ·)
    else if vmaOverlaps v area.start area.stop then none
    else some (area :: v :: vs)

/-- `vma_insert_area`. A grown table stays grown when the scan then fails. -/
def vmaInsertArea (k : Kmalloc) (t : VmTable) (area : VmArea) : Int × VmTable :=
  if area.start > area.stop then (-1, t)
  else
    match vmaEnsureCapacity k t (t.areas.length + 1) with
    | none => (-1, t)
    | some t =>
      match insertSorted area t.areas with
      | none => (-1, t)
      | some areas => (0, { t with areas := vmaCoalesce areas })

/-- `vma_add`. -/
def vmaAdd (k : Kmalloc) (t : VmTable) (start stop : Nat) (flags : VmaFlags) (kind : VmaKind) :
    Int × VmTable :=
  vmaInsertArea k t { start, stop, flags, kind }

/-- `vma_find`. -/
def vmaFind (t : VmTable) (addr : Nat) : Option VmArea :=
  t.areas.find? fun v => decide (v.start ≤ addr) && decide (addr < v.stop)

/-- `vma_find_kind`. -/
def vmaFindKind (t : VmTable) (kind : VmaKind) : Option VmArea :=
  t.areas.find? fun v => v.kind = kind

/-- The downward scan of `vma_find_topdown_gap`, over the areas from the last to
the first. -/
def topdownScan (low len : Nat) : List VmArea → Nat → Option Nat
  | [], scanEnd => if scanEnd > low ∧ scanEnd - low ≥ len then some (scanEnd - len) else none
  | v :: vs, scanEnd =>
    if v.start ≥ scanEnd then topdownScan low len vs scanEnd
    else
      let gapStart := if v.stop > low then vmPageAlignUp v.stop else low
      if scanEnd > gapStart ∧ scanEnd - gapStart ≥ len then some (scanEnd - len)
      else topdownScan low len vs (vmPageAlignDown v.start)

/-- `vma_find_topdown_gap`; `brk` is the current program break. -/
def vmaFindTopdownGap (t : VmTable) (brk hint length : Nat) : Option Nat :=
  if length = 0 then none
  else
    let len := vmPageAlignUp length
    if len = 0 then none
    else
      match vmaFindKind t .stack with
      | none => none
      | some stack =>
        let low := max (vmPageAlignUp brk) vmMmapMin
        let high := if stack.start > vmStackGuardGap then stack.start - vmStackGuardGap else stack.start
        if low ≥ high ∨ len > high - low then none
        else if hint ≠ 0 ∧ hint % 4096 = 0 ∧ hint ≥ low ∧ u32 (hint + len) > hint ∧
            u32 (hint + len) ≤ high ∧ vmaRangeIsFree t hint (u32 (hint + len)) = true then some hint
        else topdownScan low len t.areas.reverse high

/-- `vma_map_anonymous`: the address, and the table. -/
def vmaMapAnonymous (k : Kmalloc) (t : VmTable) (brk hint length : Nat) (flags : VmaFlags) :
    Option Nat × VmTable :=
  match vmaFindTopdownGap t brk hint length with
  | none => (none, t)
  | some start =>
    let (rc, t) := vmaAdd k t start (u32 (start + vmPageAlignUp length)) flags .generic
    if rc ≠ 0 then (none, t) else (some start, t)

/-- `vma_map_file_private`. -/
def vmaMapFilePrivate (k : Kmalloc) (t : VmTable) (brk hint length : Nat) (flags : VmaFlags)
    (mountId inodeNum fileOffset fileSize : Nat) : Option Nat × VmTable :=
  match vmaFindTopdownGap t brk hint length with
  | none => (none, t)
  | some start =>
    let (rc, t) := vmaInsertArea k t
      { start, stop := u32 (start + vmPageAlignUp length), flags, kind := .generic,
        fileOffset, fileSize, mountId, inodeNum }
    if rc ≠ 0 then (none, t) else (some start, t)

/-! ## Unmapping and protecting a range -/

/-- The first pass of `vma_unmap_range`: how many entries the result needs. -/
def unmapCount (start stop : Nat) : List VmArea → Nat → Option Nat
  | [], needed => some needed
  | v :: vs, needed =>
    if !vmaOverlaps v start stop then unmapCount start stop vs (needed + 1)
    else if v.kind ≠ .generic then none
    else
      let needed := if v.start < max start v.start then needed + 1 else needed
      let needed := if min stop v.stop < v.stop then needed + 1 else needed
      unmapCount start stop vs needed

/-- The second pass: what is left of the areas goes into the rebuilt table. -/
def unmapRebuild (start stop capacity : Nat) : List VmArea → List VmArea → Option (List VmArea)
  | [], rebuilt => some rebuilt
  | v :: vs, rebuilt =>
    if !vmaOverlaps v start stop then
      (vmaAppendArea capacity rebuilt v).bind (unmapRebuild start stop capacity vs)
    else
      let left := if v.start < max start v.start
        then vmaAppendArea capacity rebuilt (vmaSlice v v.start (max start v.start)) else some rebuilt
      let right := left.bind fun rebuilt => if min stop v.stop < v.stop
        then vmaAppendArea capacity rebuilt (vmaSlice v (min stop v.stop) v.stop) else some rebuilt
      right.bind (unmapRebuild start stop capacity vs)

/-- `vma_unmap_range`. -/
def vmaUnmapRange (k : Kmalloc) (t : VmTable) (start stop : Nat) : Int × VmTable :=
  if start ≥ stop then (-1, t)
  else
    match unmapCount start stop t.areas 0 with
    | none => (-1, t)
    | some needed =>
      match vmaEnsureCapacity k t needed with
      | none => (-1, t)
      | some t =>
        if !k.rebuild then (-1, t)
        else
          match unmapRebuild start stop t.capacity t.areas [] with
          | none => (-1, t)
          | some areas => (0, { t with areas })

/-- The first pass of `vma_protect_range`: the range must be covered without a
gap; returns the entries needed. -/
def protectCount (start stop : Nat) : List VmArea → Nat → Nat → Option Nat
  | [], cursor, needed => if cursor ≠ stop then none else some needed
  | v :: vs, cursor, needed =>
    if !vmaOverlaps v start stop then protectCount start stop vs cursor (needed + 1)
    else if v.kind ≠ .generic then none
    else if max start v.start ≠ cursor then none
    else
      let needed := if v.start < max start v.start then needed + 1 else needed
      let needed := needed + 1
      let needed := if min stop v.stop < v.stop then needed + 1 else needed
      protectCount start stop vs (min stop v.stop) needed

/-- The second pass, with the protected part of each area between what is left
of it on either side. -/
def protectRebuild (start stop capacity : Nat) (new : VmaFlags) :
    List VmArea → Nat → List VmArea → Option (List VmArea)
  | [], _, rebuilt => some rebuilt
  | v :: vs, cursor, rebuilt =>
    if !vmaOverlaps v start stop then
      (vmaAppendArea capacity rebuilt v).bind (protectRebuild start stop capacity new vs cursor)
    else if max start v.start ≠ cursor then none
    else
      let left := if v.start < max start v.start
        then vmaAppendArea capacity rebuilt (vmaSlice v v.start (max start v.start)) else some rebuilt
      let mid := left.bind fun rebuilt => vmaAppendArea capacity rebuilt
        { vmaSlice v (max start v.start) (min stop v.stop) with
          flags := vmaReplaceProtFlags v.flags new }
      let right := mid.bind fun rebuilt => if min stop v.stop < v.stop
        then vmaAppendArea capacity rebuilt (vmaSlice v (min stop v.stop) v.stop) else some rebuilt
      right.bind (protectRebuild start stop capacity new vs (min stop v.stop))

/-- `vma_protect_range`. -/
def vmaProtectRange (k : Kmalloc) (t : VmTable) (start stop : Nat) (new : VmaFlags) : Int × VmTable :=
  if start ≥ stop then (-1, t)
  else
    match protectCount start stop t.areas start 0 with
    | none => (-1, t)
    | some needed =>
      match vmaEnsureCapacity k t needed with
      | none => (-1, t)
      | some t =>
        if !k.rebuild then (-1, t)
        else
          match protectRebuild start stop t.capacity new t.areas start [] with
          | none => (-1, t)
          | some areas => (0, { t with areas })

end Drunix.Mm
