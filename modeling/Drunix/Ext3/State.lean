import Drunix.Blk.BcacheOps
import Drunix.Lib.Ends

/-!
# ext3: state and raw block I/O

The globals of `fs/ext3` and the lowest layer of `main.c`: bytes read from and
written to the device around the cache, and blocks moved through it.

Mirroring notes:
- The packed on-disk structs (`ext3_super_t`, `ext3_group_desc_t`, `ext3_inode_t`) are
  kept as the bytes they are; a field is a little-endian word at its offset.
- A C function that returns an error code is an `EStateM` computation; every negative
  code is `Stop.fail`. A caller that goes on after an error catches it (`attempt`,
  `orZero`).
- `kmalloc` fails when the oracle `heap` says so at its turn. What a fresh allocation
  holds is unspecified and taken as zero; `kfree` does nothing.
- A buffer argument is the caller's memory from the pointer on. The cache copies 4096
  bytes into it whatever the block size is.
- `g_dev` is the device's number, `0` for `NULL`; buffer pointers are never `NULL`.
- The kernel log is left out.
-/

namespace Drunix.Ext3

open Lib Blk

/-! ## On-disk structs -/

namespace Super

/-- `sizeof(ext3_super_t)`. -/
def size : Nat := 236

def inodesCount (p : Buf) : Nat := le32 p 0
def blocksCount (p : Buf) : Nat := le32 p 4
def firstDataBlock (p : Buf) : Nat := le32 p 20
def logBlockSize (p : Buf) : Nat := le32 p 24
def blocksPerGroup (p : Buf) : Nat := le32 p 32
def inodesPerGroup (p : Buf) : Nat := le32 p 40
def magic (p : Buf) : Nat := le16 p 56
def firstIno (p : Buf) : Nat := le32 p 84
def inodeSize (p : Buf) : Nat := le16 p 88
def featureCompat (p : Buf) : Nat := le32 p 92
def featureIncompat (p : Buf) : Nat := le32 p 96
def featureRoCompat (p : Buf) : Nat := le32 p 100
def journalInum (p : Buf) : Nat := le32 p 224
def journalDev (p : Buf) : Nat := le32 p 228

def setFeatureIncompat (p : Buf) (v : Nat) : Buf := putLe32 p 96 v

/-- `feature_incompat &= ~EXT3_FEATURE_INCOMPAT_RECOVER`. -/
def clearRecover (p : Buf) : Buf := setFeatureIncompat p (featureIncompat p &&& 4294967291)

end Super

namespace Bg

/-- `sizeof(ext3_group_desc_t)`. -/
def size : Nat := 32

def inodeTable (p : Buf) : Nat := le32 p 8

end Bg

namespace Inode

/-- `sizeof(ext3_inode_t)`. -/
def size : Nat := 128

def mode (p : Buf) : Nat := le16 p 0
def block (p : Buf) (i : Nat) : Nat := le32 p (40 + 4 * i)

/-- `mode & EXT3_S_IFMT`. -/
def format (p : Buf) : Nat := mode p &&& 61440

end Inode

/-! ## Globals -/

/-- `ext3_overlay_block_t` and `ext3_tx_block_t`: a block number and its contents. -/
abbrev BlockImage := Nat × Buf

structure Fs where
  blk : Cache
  heap : Nat → Bool
  mallocs : Nat
  now : Nat
  dev : Nat
  super : Buf
  bg : Buf
  blockSize : Nat
  sectorsPerBlock : Nat
  bgdtBlock : Nat
  writable : Bool
  needsRecovery : Bool
  blockAllocCursor : Nat
  inodeAllocCursor : Nat
  txCountsDirty : Bool
  overlay : List BlockImage
  tx : List BlockImage
  txDepth : Nat
  txFailed : Bool
  txSuperBefore : Buf
  txHasSnapshot : Bool

/-- A call of the file system. -/
abbrev Call (α : Type) := EStateM Stop Fs α

/-- `if (!p) return -1`. -/
def require (p : Bool) : Call Unit := if p then pure () else throw .fail

/-- The result of a call whose failure is looked at and not passed on. -/
def attempt {α : Type} (x : Call α) : Call (Option α) := fun s =>
  match x s with
  | .ok a s => .ok (some a) s
  | .error .fail s => .ok none s
  | .error .hang s => .error .hang s

/-- A function that returns `0` for failure. -/
def orZero (x : Call Nat) : Call Nat := do
  let r ← attempt x
  pure (r.getD 0)

/-- A call of the block cache. -/
def onBlk {α : Type} (f : Cache → Except Stop α × Cache) : Call α := fun s =>
  match f s.blk with
  | (.ok a, blk) => .ok a { s with blk }
  | (.error e, blk) => .error e { s with blk }

/-- `n` calls of `kmalloc` in a row; `-1` when one of them fails. -/
def kmallocs (n : Nat) : Call Unit := fun s =>
  if (List.range n).any fun i => s.heap (s.mallocs + i) then
    .error .fail { s with mallocs := s.mallocs + n }
  else .ok () { s with mallocs := s.mallocs + n }

/-- `kmalloc`. -/
def kmalloc : Call Buf := do
  kmallocs 1
  pure fun _ => 0

/-! ## main.c: bytes and blocks -/

/-- `read_sector` of a device, around the cache. -/
def readSectorRaw (dev lba : Nat) : Call Buf :=
  onBlk fun b =>
    match b.disk.readSector dev lba with
    | (none, disk) => (.error .fail, { b with disk })
    | (some sec, disk) => (.ok sec, { b with disk })

/-- `write_sector` of a device, around the cache. -/
def writeSectorRaw (dev lba : Nat) (sec : Buf) : Call Unit :=
  onBlk fun b =>
    match b.disk.writeSector ⟨dev, lba, slice sec 0 512⟩ with
    | (false, disk) => (.error .fail, { b with disk })
    | (true, disk) => (.ok (), { b with disk })

/-- The loop of `ext3_read_bytes`; every round reads at least one byte. -/
def ext3ReadBytesLoop (dev byteOff count : Nat) : Nat → Nat → Buf → Call Buf
  | 0, _, buf => pure buf
  | rounds + 1, done, buf =>
    if done < count then do
      let off := u32 (byteOff + done)
      let chunk := min (512 - off % 512) (count - done)
      let sec ← readSectorRaw dev (off / 512)
      ext3ReadBytesLoop dev byteOff count rounds (done + chunk)
        (memcpy buf done sec (off % 512) chunk)
    else pure buf

/-- `ext3_read_bytes`. -/
def ext3ReadBytes (byteOff : Nat) (buf : Buf) (count : Nat) : Call Buf := do
  let s ← get
  require (s.dev ≠ 0)
  ext3ReadBytesLoop s.dev byteOff count count 0 buf

/-- The loop of `ext3_write_bytes`; a sector that is written in part is read first. -/
def ext3WriteBytesLoop (dev byteOff : Nat) (buf : Buf) (count : Nat) : Nat → Nat → Call Unit
  | 0, _ => pure ()
  | rounds + 1, done =>
    if done < count then do
      let off := u32 (byteOff + done)
      let chunk := min (512 - off % 512) (count - done)
      let sec ← if chunk ≠ 512 then readSectorRaw dev (off / 512) else pure fun _ => 0
      writeSectorRaw dev (off / 512) (memcpy sec (off % 512) buf done chunk)
      ext3WriteBytesLoop dev byteOff buf count rounds (done + chunk)
    else pure ()

/-- `ext3_write_bytes`: the cached blocks that the bytes lie in are dropped. -/
def ext3WriteBytes (byteOff : Nat) (buf : Buf) (count : Nat) : Call Unit := do
  let s ← get
  require (s.dev ≠ 0 && s.blk.disk.canWrite s.dev && count ≠ 0)
  ext3WriteBytesLoop s.dev byteOff buf count count 0
  let firstBlock := byteOff / 4096
  let lastBlock := u32 (byteOff + count - 1) / 4096
  modify fun s => { s with
    blk := (List.range (lastBlock + 1 - firstBlock)).foldl
      (fun b i => bcacheInvalidate b s.dev ((firstBlock + i) * 8)) s.blk }

/-- `ext3_read_disk_block`. -/
def ext3ReadDiskBlock (block : Nat) (buf : Buf) : Call Buf := do
  let s ← get
  require (s.dev ≠ 0 && s.blockSize ≠ 0)
  let data ← onBlk fun b => bcacheRead b s.dev (u32 (block * s.sectorsPerBlock))
  pure (memcpy buf 0 data 0 4096)

/-- `ext3_write_disk_block`. -/
def ext3WriteDiskBlock (block : Nat) (buf : Buf) : Call Unit := do
  let s ← get
  require (s.dev ≠ 0 && s.blk.disk.canWrite s.dev && s.blockSize ≠ 0)
  onBlk fun b => bcacheWrite b s.dev (u32 (block * s.sectorsPerBlock)) buf

/-- The first half of `ext3_init`, from the device on: the superblock is read and checked,
and the globals that come from it are set. A shift by 32 or more is undefined in C; it
counts modulo 32, as the processor does it. -/
def ext3LoadSuper (dev : Nat) : Call Unit := do
  modify fun s => { s with writable := false, needsRecovery := false, overlay := [], dev }
  let s ← get
  let super ← ext3ReadBytes 1024 s.super Super.size
  modify fun s => { s with super }
  require (Super.magic super = 61267)
  let blockSize := u32 (1024 * 2 ^ (Super.logBlockSize super % 32))
  modify fun s => { s with blockSize }
  require (blockSize = 1024 || blockSize = 2048 || blockSize = 4096)
  modify fun s => { s with sectorsPerBlock := blockSize / 512 }
  require (Super.inodeSize super ≥ Inode.size)
  require (Super.blocksCount super ≤ Super.blocksPerGroup super &&
    Super.inodesCount super ≤ Super.inodesPerGroup super)
  require (Super.featureIncompat super &&& 4294967289 = 0)
  require (Super.featureRoCompat super &&& 4294967292 = 0)
  modify fun s => { s with
    needsRecovery := Super.featureIncompat super &&& 4 ≠ 0
    bgdtBlock := if blockSize = 1024 then 2 else 1
    blockAllocCursor := Super.firstDataBlock super
    inodeAllocCursor := if Super.firstIno super ≠ 0 then Super.firstIno super else 11
    txCountsDirty := false }

end Drunix.Ext3
