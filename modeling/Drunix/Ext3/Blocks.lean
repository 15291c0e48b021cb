import Drunix.Ext3.State

/-!
# ext3: blocks, inodes and bitmaps

`blocks.c`: reads of blocks through the transaction buffer and the replay overlay, the
superblock written back, the search in the allocation bitmaps, inodes in the inode table,
and the map from a file's blocks to the device's.

Mirroring notes:
- `g_tx` and `g_overlay` are lists in the order of their slots.
- `ext3_block_index` returns `0` for failure (`orZero`).
- The functions that write blocks within a transaction, add them to a file or free them are
  left out, and of the allocators all but the search for a clear bit.
-/

namespace Drunix.Ext3

open Lib Blk

/-! ## Transaction buffer and overlay -/

/-- `ext3_tx_find`, and the same loop over the overlay. -/
def findImage (images : List BlockImage) (block : Nat) : Option Buf :=
  (images.find? fun p => p.1 = block).map Prod.snd

/-- The slot of `block` gets new contents. -/
def storeImage (images : List BlockImage) (block : Nat) (buf : Buf) (blockSize : Nat) :
    List BlockImage :=
  images.map fun p => if p.1 = block then (p.1, memcpy p.2 0 buf 0 blockSize) else p

/-- `ext3_read_block`. -/
def ext3ReadBlock (block : Nat) (buf : Buf) : Call Buf := do
  let s ← get
  match findImage s.tx block with
  | some data => pure (memcpy buf 0 data 0 s.blockSize)
  | none =>
    match findImage s.overlay block with
    | some data => pure (memcpy buf 0 data 0 s.blockSize)
    | none => ext3ReadDiskBlock block buf

/-- `ext3_can_mutate`. -/
def Fs.canMutate (s : Fs) : Bool := s.writable && s.overlay.isEmpty && !s.txFailed

/-- `ext3_overlay_put`. -/
def ext3OverlayPut (block : Nat) (data : Buf) : Call Unit := do
  let s ← get
  if (findImage s.overlay block).isSome then
    modify fun s => { s with overlay := storeImage s.overlay block data s.blockSize }
  else do
    require (s.overlay.length < 32)
    let copy ← kmalloc
    modify fun s => { s with overlay := s.overlay ++ [(block, memcpy copy 0 data 0 s.blockSize)] }

/-- `ext3_overlay_clear`. -/
def ext3OverlayClear : Call Unit := modify fun s => { s with overlay := [] }

/-! ## Superblock and group descriptor -/

/-- `ext3_flush_super_image_raw`. -/
def ext3FlushSuperImageRaw (super : Buf) : Call Unit := ext3WriteBytes 1024 super Super.size

/-- `ext3_flush_super_raw`. -/
def ext3FlushSuperRaw : Call Unit := do
  let s ← get
  ext3FlushSuperImageRaw s.super

/-! ## Inodes -/

/-- Where an inode lies: the block and the offset in it. -/
def Fs.inodePlace (s : Fs) (ino : Nat) : Nat × Nat :=
  let idx := u32 (ino + 4294967295) % Super.inodesPerGroup s.super
  let off := u32 (idx * Super.inodeSize s.super)
  (u32 (Bg.inodeTable s.bg + off / s.blockSize), off % s.blockSize)

/-- `ext3_read_inode`. -/
def ext3ReadInode (ino : Nat) : Call Buf := do
  let s ← get
  require (ino ≠ 0 && ino ≤ Super.inodesCount s.super)
  let blk ← kmalloc
  let blk ← ext3ReadBlock (s.inodePlace ino).1 blk
  pure (slice blk (s.inodePlace ino).2 Inode.size)

/-! ## Bitmaps -/

/-- `ext3_bmap_test`. -/
def bmapTest (map : Buf) (bit : Nat) : Bool := (map (bit / 8)).toNat.testBit (bit % 8)

/-- The first inode number handed out. -/
def Super.firstInode (p : Buf) : Nat := if Super.firstIno p ≠ 0 then Super.firstIno p else 11

/-! ## The blocks of a file -/

/-- Entry `i` of an indirect block. -/
def ptrAt (blk : Buf) (i : Nat) : Nat := le32 blk (4 * i)

/-- `if (block == 0 || ext3_read_block(block, blk) != 0) goto done`. -/
def readTable (block : Nat) (blk : Buf) : Call Buf := do
  require (block ≠ 0)
  ext3ReadBlock block blk

/-- `ext3_block_index`. -/
def ext3BlockIndex (inode : Buf) (logical : Nat) : Call Nat := do
  let s ← get
  let ptrs := s.blockSize / 4
  if logical < 12 then pure (Inode.block inode logical)
  else orZero do
    let blk ← kmalloc
    let logical := logical - 12
    if logical < ptrs then do
      let blk ← readTable (Inode.block inode 12) blk
      pure (ptrAt blk logical)
    else do
      let logical := logical - ptrs
      if logical < ptrs * ptrs then do
        let blk ← readTable (Inode.block inode 13) blk
        let blk ← readTable (ptrAt blk (logical / ptrs)) blk
        pure (ptrAt blk (logical % ptrs))
      else do
        let logical := logical - ptrs * ptrs
        require (logical < ptrs * ptrs * ptrs)
        let rem := logical % (ptrs * ptrs)
        let blk ← readTable (Inode.block inode 14) blk
        let blk ← readTable (ptrAt blk (logical / (ptrs * ptrs))) blk
        let blk ← readTable (ptrAt blk (rem / ptrs)) blk
        pure (ptrAt blk (rem % ptrs))

end Drunix.Ext3
