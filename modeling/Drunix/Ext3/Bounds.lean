import Drunix.Ext3.DiskBlock
import Drunix.Ext3.Journal

/-!
# Accesses to bitmaps and inode blocks

`blocks.c` keeps a bitmap or a block of the inode table in a buffer of `g_block_size` bytes and
indexes it with numbers that are checked against the superblock only. `ext3_init` bounds the
counts of blocks and inodes by what the superblock itself says of a group, and the size of an
inode from below.

`buffers_indexed_inside_iff`: the accesses stay inside the buffer exactly if the superblock fits
a bitmap of one block (`Fits`), or, for all but the copy of an inode to the caller, the mount is
read-only. `bitmap_overrun` is an image that `ext3_init` accepts and for which they do not.

Mirroring notes:
- An access is the index of the byte; a bit is tested, set and cleared in the same byte.
- The scan of an allocator depends on the bitmap it has read and on its cursor, both arbitrary
  here, as are the counts of the superblock.
-/

namespace Drunix.Ext3

open Lib Blk

/-- The bits that the search loop of an allocator tests: numbers from `b` on, from `first` again
at `stop`; number `b` has the bit `b - base`. The last of them may be the one that it sets. -/
def bmapScanned (map : Buf) (first stop base : Nat) : Nat → Nat → List Nat
  | 0, _ => []
  | n + 1, b =>
    if !bmapTest map (b - base) then [b - base]
    else (b - base) :: bmapScanned map first stop base n (if b + 1 ≥ stop then first else b + 1)

/-- A call (`ext3_alloc_block`, `ext3_free_block` and so on) that has its block in the buffer. -/
inductive BufCall where
  | allocBlock (map : Buf) (cursor : Nat)
  | freeBlock (block : Nat)
  | allocInode (map : Buf) (cursor : Nat)
  | freeInode (ino : Nat)
  | readInode (ino : Nat)
  | writeInode (ino : Nat)

/-- The bytes of the inode in the block that has it. -/
def Fs.inodeBytes (s : Fs) (ino : Nat) : List Nat :=
  if ino ≠ 0 ∧ ino ≤ Super.inodesCount s.super then
    (List.range Inode.size).map ((s.inodePlace ino).2 + ·)
  else []

/-- The bytes of the buffer that the call accesses. -/
def BufCall.bytes (s : Fs) : BufCall → List Nat
  | .allocBlock map cursor =>
    let first := Super.firstDataBlock s.super
    let last := Super.blocksCount s.super
    let start := if cursor < first ∨ cursor ≥ last then first else cursor
    if s.canMutate ∧ first < last then
      (bmapScanned map first last 0 (last - first) start).map (· / 8)
    else []
  | .freeBlock block =>
    if s.canMutate ∧ block ≠ 0 ∧ block < Super.blocksCount s.super then [block / 8] else []
  | .allocInode map cursor =>
    let first := Super.firstInode s.super
    let last := Super.inodesCount s.super
    let start := if cursor < first ∨ cursor > last then first else cursor
    if s.canMutate ∧ first ≤ last then
      (bmapScanned map first (last + 1) 1 (last - first + 1) start).map (· / 8)
    else []
  | .freeInode ino =>
    if s.canMutate ∧ Super.firstIno s.super ≤ ino ∧ ino ≤ Super.inodesCount s.super then
      [u32 (ino + 4294967295) / 8]
    else []
  | .readInode ino => s.inodeBytes ino
  | .writeInode ino => if s.canMutate then s.inodeBytes ino else []

/-- Every access is inside the buffer. -/
def Inside (s : Fs) : Prop := ∀ c : BufCall, ∀ i ∈ c.bytes s, i < s.blockSize

/-- Where the mount can be written, blocks and inodes have a bit in one block and inode 0 is not
handed out; and no inode lies across the end of its block. -/
structure Fits (s : Fs) : Prop where
  blocks : s.canMutate = true → Super.blocksCount s.super ≤ 8 * s.blockSize
  inodes : s.canMutate = true → Super.firstIno s.super ≤ Super.inodesCount s.super →
    Super.inodesCount s.super ≤ 8 * s.blockSize
  first : s.canMutate = true → Super.firstIno s.super ≠ 0
  table : ∀ ino, ino < Super.inodesCount s.super →
    u32 (ino % Super.inodesPerGroup s.super * Super.inodeSize s.super) % s.blockSize + Inode.size ≤
      s.blockSize

theorem bmapScanned_range {map : Buf} {first stop base n b bit : Nat} (hb : first ≤ b ∧ b < stop)
    (h : bit ∈ bmapScanned map first stop base n b) : ∃ c, first ≤ c ∧ c < stop ∧ bit = c - base := by
  induction n generalizing b with
  | zero => exact absurd h (by simp [bmapScanned])
  | succ n ih =>
    unfold bmapScanned at h
    have hnext : first ≤ (if b + 1 ≥ stop then first else b + 1) ∧
        (if b + 1 ≥ stop then first else b + 1) < stop := by
      split <;> omega
    split at h
    · exact ⟨b, hb.1, hb.2, List.mem_singleton.mp h⟩
    · rcases List.mem_cons.mp h with rfl | h
      · exact ⟨b, hb.1, hb.2, rfl⟩
      · exact ih hnext h

theorem pred_u32 {ino n : Nat} (hpos : ino ≠ 0) (hle : ino ≤ n) (hn : n < 4294967296) :
    u32 (ino + 4294967295) = ino - 1 := by
  unfold u32
  omega

theorem Fits.inodeBytes {s : Fs} (h : Fits s) {ino i : Nat} (hi : i ∈ s.inodeBytes ino) :
    i < s.blockSize := by
  unfold Fs.inodeBytes at hi
  split at hi
  next hle =>
    obtain ⟨j, hj, rfl⟩ := List.mem_map.mp hi
    have htable := h.table (ino - 1) (by omega)
    have hj := List.mem_range.mp hj
    unfold Fs.inodePlace
    dsimp only
    rw [pred_u32 hle.1 hle.2 (le32_lt s.super 0)]
    omega
  · cases hi

theorem Fits.inside {s : Fs} (h : Fits s) : Inside s := by
  have hino : Super.inodesCount s.super < 4294967296 := le32_lt s.super 0
  intro c i hi
  cases c with
  | allocBlock map cursor =>
    dsimp only [BufCall.bytes] at hi
    split at hi
    next hlt =>
      obtain ⟨bit, hbit, rfl⟩ := List.mem_map.mp hi
      obtain ⟨c, -, hc, rfl⟩ := bmapScanned_range (by split <;> omega) hbit
      have := h.blocks hlt.1
      omega
    · cases hi
  | freeBlock block =>
    dsimp only [BufCall.bytes] at hi
    split at hi
    next hlt =>
      have := h.blocks hlt.1
      rw [List.mem_singleton.mp hi]
      omega
    · cases hi
  | allocInode map cursor =>
    dsimp only [BufCall.bytes] at hi
    split at hi
    next hle =>
      have hfirst : Super.firstInode s.super = Super.firstIno s.super := if_pos (h.first hle.1)
      obtain ⟨bit, hbit, rfl⟩ := List.mem_map.mp hi
      obtain ⟨c, hlo, hc, rfl⟩ := bmapScanned_range (by split <;> omega) hbit
      have := h.inodes hle.1 (hfirst ▸ hle.2)
      have := h.first hle.1
      omega
    · cases hi
  | freeInode ino =>
    dsimp only [BufCall.bytes] at hi
    split at hi
    next hle =>
      have hpos := h.first hle.1
      rw [List.mem_singleton.mp hi, pred_u32 (by omega) hle.2.2 hino]
      have := h.inodes hle.1 (hle.2.1.trans hle.2.2)
      omega
    · cases hi
  | readInode ino => exact h.inodeBytes hi
  | writeInode ino =>
    dsimp only [BufCall.bytes] at hi
    split at hi
    · exact h.inodeBytes hi
    · cases hi

theorem Inside.fits {s : Fs} (h : Inside s) (hpos : 0 < s.blockSize)
    (hsize : s.blockSize ≤ 4096) : Fits s := by
  have hino : Super.inodesCount s.super < 4294967296 := le32_lt s.super 0
  have hfirst : s.canMutate = true → Super.firstIno s.super ≠ 0 := by
    intro hw h0
    -- inode 0 passes the check, and its bit is the last of all
    have hacc := h (.freeInode 0) 536870911 (by simp [BufCall.bytes, hw, h0, u32])
    omega
  refine ⟨fun hw => ?_, fun hw hle => ?_, hfirst, fun ino hlt => ?_⟩
  · by_contra hbig
    have hacc := h (.freeBlock (Super.blocksCount s.super - 1))
      ((Super.blocksCount s.super - 1) / 8) (by
        dsimp only [BufCall.bytes]
        rw [if_pos ⟨hw, by omega⟩]
        exact List.mem_singleton_self _)
    omega
  · by_contra hbig
    have hacc := h (.freeInode (Super.inodesCount s.super))
      (u32 (Super.inodesCount s.super + 4294967295) / 8) (by
        dsimp only [BufCall.bytes]
        rw [if_pos ⟨hw, hle, Nat.le_refl _⟩]
        exact List.mem_singleton_self _)
    have := hfirst hw
    rw [pred_u32 (by omega) le_rfl hino] at hacc
    omega
  · have hacc := h (.readInode (ino + 1)) ((s.inodePlace (ino + 1)).2 + 127) (by
      dsimp only [BufCall.bytes, Fs.inodeBytes]
      rw [if_pos (by omega)]
      exact List.mem_map.mpr ⟨127, by decide, rfl⟩)
    unfold Fs.inodePlace at hacc
    dsimp only at hacc
    rw [pred_u32 (by omega) (show ino + 1 ≤ _ from hlt) hino, Nat.add_sub_cancel] at hacc
    unfold Inode.size
    omega

/-- For every superblock that is accepted, in every state of the mount, writable or not. -/
theorem buffers_indexed_inside_iff {dev : Nat} {s₀ t s : Fs} (h : ext3LoadSuper dev s₀ = .ok () t)
    (hmount : s.blockSize = t.blockSize) : Inside s ↔ Fits s := by
  have hsize := ((ext3LoadSuper_spec dev s₀).of_ok h).1
  exact ⟨fun hin => hin.fits (by omega) (by omega), Fits.inside⟩

/-- A device that holds a superblock for so many blocks and inodes, of 4096 and 128 bytes. -/
def countsImage (blocks inodes : Nat) : Bytes := fun dev a =>
  if a = 1024 then UInt8.ofNat inodes
  else if a = 1025 then UInt8.ofNat (inodes / 256)
  else if a = 1028 ∨ a = 1056 then UInt8.ofNat blocks
  else if a = 1029 ∨ a = 1057 then UInt8.ofNat (blocks / 256)
  else if a = 1064 then UInt8.ofNat inodes
  else if a = 1065 then UInt8.ofNat (inodes / 256)
  else if a = 1108 then 11
  else superImage 2 dev a

/-- Inodes of 128 bytes never lie across the end of a block. -/
theorem fits_table {s : Fs} (hsize : s.blockSize = 4096) (hino : Super.inodeSize s.super = 128)
    (i : Nat) : u32 (i * Super.inodeSize s.super) % s.blockSize + Inode.size ≤ s.blockSize := by
  rw [hsize, hino]
  unfold u32 Inode.size
  omega

/-- A superblock of 1000 blocks and 100 inodes fits, mounted for writing. -/
theorem buffers_indexed_inside_small :
    let s := after (ext3Init 1) (freshFs (countsImage 1000 100))
    s.canMutate = true ∧ Fits s ∧ Inside s := by
  have hv : value (ext3LoadSuper 1) (freshFs (countsImage 1000 100)) = some () := by decide +kernel
  have hload := eq_ok_of_value hv
  have hloaded : (after (ext3LoadSuper 1) (freshFs (countsImage 1000 100))).blockSize = 4096 := by
    decide +kernel
  -- one fact at a time: the mount is run for each
  have hw : (after (ext3Init 1) (freshFs (countsImage 1000 100))).canMutate = true := by
    decide +kernel
  have hsize : (after (ext3Init 1) (freshFs (countsImage 1000 100))).blockSize = 4096 := by
    decide +kernel
  have hino : Super.inodeSize (after (ext3Init 1) (freshFs (countsImage 1000 100))).super = 128 := by
    decide +kernel
  have hblocks : Super.blocksCount (after (ext3Init 1) (freshFs (countsImage 1000 100))).super =
      1000 := by
    decide +kernel
  have hinodes : Super.inodesCount (after (ext3Init 1) (freshFs (countsImage 1000 100))).super =
      100 := by
    decide +kernel
  have hfirst : Super.firstIno (after (ext3Init 1) (freshFs (countsImage 1000 100))).super = 11 := by
    decide +kernel
  have hfits : Fits (after (ext3Init 1) (freshFs (countsImage 1000 100))) :=
    ⟨fun _ => by omega, fun _ => by omega, fun _ => by omega, fun i _ => fits_table hsize hino _⟩
  exact ⟨hw, hfits, (buffers_indexed_inside_iff hload (hsize.trans hloaded.symm)).mpr hfits⟩

/-- The mount accepts a superblock of 40000 blocks, and freeing the last of them accesses byte
4999 of a bitmap of 4096 bytes. -/
theorem bitmap_overrun :
    let s := after (ext3Init 1) (freshFs (countsImage 40000 100))
    value (ext3Init 1) (freshFs (countsImage 40000 100)) = some () ∧ s.canMutate = true ∧
      s.blockSize = 4096 ∧ BufCall.bytes s (.freeBlock 39999) = [4999] := by
  refine ⟨by decide +kernel, by decide +kernel, by decide +kernel, by decide +kernel⟩

end Drunix.Ext3
