import Drunix.Lib.Bytes

/-!
# Regular files behind the VFS

`vfs_read`, `vfs_write` and `vfs_truncate` (`fs/vfs/lookup.c`) end in `fs_read`,
`fs_write` and `fs_truncate` of DUFS (`fs/fs.c`) or in `ext3_read`, `ext3_write` and
`ext3_truncate` (`fs/ext3/lookup.c`, `mutation.c`). Here a regular file is what those
functions show of it: a size, its bytes, and the blocks that it has.

The two file systems differ where this matters to a caller. A read of DUFS ends at a block
that the file does not have, and one of ext3 gives zeros there, also where it only could not
find the block; a write for which there is no block returns 0 in DUFS and an error in ext3.

Mirroring notes:
- What may go wrong is an argument: `ReadEnv` and `WriteEnv` say whether the inode and the
  memory can be had, how far the blocks can be read or written, and whether the inode (or, for
  ext3, the transaction) can be written at the end. `lost` is what is left of the file where
  that last write fails.
- A block of DUFS is 8 sectors. Where the write of one fails, the sectors before have changed,
  and with them a first part of the bytes for this block (`torn`); the size has not.
- `ext3_block_index` returns 0 for a hole, and also where it has no memory or cannot read a
  table; `unfound` has the offsets of such blocks.
- Offsets are `uint32_t` and their sums wrap around. The callers pass at most 512 bytes, so a
  write that wraps ends in the first block of the file; the size is compared with its end.
- `mapped` is by blocks of 4096 bytes, those of DUFS; nothing depends on it for ext3.
- Times and block counts of the inode are left out.
-/

namespace Drunix.Vfs

open Lib

/-- The file systems with regular files. -/
inductive FsKind where
  | dufs
  | ext3
deriving DecidableEq

/-- `DUFS_BLOCK_SIZE`. -/
def dufsBlockSize : Nat := 4096

/-- A regular file: its size, its bytes, with 0 where none was written, and its blocks. -/
structure Node where
  size : Nat
  data : Buf
  mapped : Nat → Bool

/-- A file without bytes. -/
def Node.empty : Node := { size := 0, data := fun _ => 0, mapped := fun _ => false }

/-- The `n` bytes from `off` on. -/
def Node.bytes (node : Node) (off n : Nat) : List UInt8 := (List.range n).map fun i => node.data (off + i)

/-- The contents of the file. -/
def Node.contents (node : Node) : List UInt8 := node.bytes 0 node.size

/-! ## Reads -/

/-- What happens in a read: `refused` if the inode or the memory cannot be had, and `upTo` if
a block after so many bytes cannot be read; `unfound` has the offsets for which
`ext3_block_index` fails. -/
structure ReadEnv where
  refused : Bool := false
  upTo : Option Nat := none
  unfound : Nat → Bool := fun _ => false

/-- `n`, or less if something stops it. -/
def stopped (n : Nat) (upTo : Option Nat) : Nat := upTo.elim n (min n)

/-- The bytes from `off` on before the first block that the file does not have. -/
def Node.readable (node : Node) (off n : Nat) : Nat :=
  ((List.range n).takeWhile fun i => node.mapped (u32 (off + i) / dufsBlockSize)).length

/-- `fs_read`: the number of bytes. -/
def fsRead (node : Node) (off count : Nat) (e : ReadEnv) : Option Nat :=
  if e.refused then none
  else if node.size ≤ off then some 0
  else
    let count := if node.size < u32 (off + count) then node.size - off else count
    some (stopped (node.readable off count) e.upTo)

/-- What `ext3_inode_size` gives for a file of more bytes than a `uint32_t` can count. -/
def ext3NoSize : Nat := 4294967295

/-- `ext3_read`: the number of bytes. -/
def ext3Read (node : Node) (off count : Nat) (e : ReadEnv) : Option Nat :=
  if e.refused ∨ node.size = ext3NoSize then none
  else if node.size ≤ off ∨ count = 0 then some 0
  else
    let done := stopped (min count (node.size - off)) e.upTo
    if done = 0 then none else some done

/-- The file as a read sees it: zeros where ext3 does not find the block. -/
def Node.seen (node : Node) (kind : FsKind) (e : ReadEnv) : Node :=
  match kind with
  | .dufs => node
  | .ext3 => { node with data := fun p => if e.unfound p then 0 else node.data p }

/-- `vfs_read`: the number of bytes, which are those of `Node.seen` from `off` on. -/
def vfsRead (kind : FsKind) (node : Node) (off count : Nat) (e : ReadEnv) : Option Nat :=
  match kind with
  | .dufs => fsRead node off count e
  | .ext3 => ext3Read node off count e

/-! ## Writes -/

/-- What happens in a write: `refused` if the inode, the memory or the transaction cannot be
had; `upTo` if after so many bytes there is no block, or it cannot be read or written, and
`ensured` if the file has got that block nevertheless; `torn` bytes more if the write of that
block fails part-way; `lost` if the inode or the transaction cannot be written. -/
structure WriteEnv where
  refused : Bool := false
  upTo : Option Nat := none
  ensured : Bool := false
  torn : Nat := 0
  lost : Option Node := none

/-- The bytes of a file after `n` bytes of `src` are stored from `off` on. -/
def storeBytes (data : Buf) (off : Nat) (src : Buf) (n : Nat) : Buf :=
  let fit := min n (4294967296 - off)
  memcpy (memcpy data off src 0 fit) 0 src fit (n - fit)

/-- The file after `n` bytes of `src` are stored from `off` on. -/
def Node.store (node : Node) (off : Nat) (src : Buf) (n : Nat) : Node :=
  if n = 0 then node
  else
    { size := max node.size (u32 (off + n))
      data := storeBytes node.data off src n
      mapped := fun b =>
        node.mapped b || (List.range n).any fun i => u32 (off + i) / dufsBlockSize == b }

/-- `n` more bytes of `src` are in the file from `off` on, and its size is as it was. -/
def Node.tear (node : Node) (off : Nat) (src : Buf) (n : Nat) : Node :=
  { node with data := storeBytes node.data (u32 off) src n }

/-- The file has the block at `off`. -/
def Node.ensure (node : Node) (off : Nat) : Node :=
  { node with mapped := fun b => node.mapped b || u32 off / dufsBlockSize == b }

/-- `fs_write`. -/
def fsWrite (node : Node) (off : Nat) (src : Buf) (count : Nat) (e : WriteEnv) :
    Option Nat × Node :=
  if e.refused then (none, node)
  else
    let written := stopped count e.upTo
    let node := node.store off src written
    let node := node.tear (off + written) (fun i => src (written + i)) (min e.torn (count - written))
    let node := if e.ensured then node.ensure (off + written) else node
    match e.lost with
    | some left => (none, left)
    | none => (some written, node)

/-- `ext3_write`: a transaction that fails leaves nothing. -/
def ext3Write (node : Node) (off : Nat) (src : Buf) (count : Nat) (e : WriteEnv) :
    Option Nat × Node :=
  if e.refused then (none, node)
  else
    let done := stopped count e.upTo
    if done = 0 then (none, node)
    else
      match e.lost with
      | some left => (none, left)
      | none => (some done, node.store off src done)

/-- `vfs_write`. -/
def vfsWrite (kind : FsKind) (node : Node) (off : Nat) (src : Buf) (count : Nat) (e : WriteEnv) :
    Option Nat × Node :=
  match kind with
  | .dufs => fsWrite node off src count e
  | .ext3 => ext3Write node off src count e

/-! ## Truncation -/

/-- The file with another size: the bytes between the two sizes are zeroed by `fs_zero_range`,
which gives the file the blocks for them. -/
def Node.resize (node : Node) (size : Nat) : Node :=
  let lo := min size node.size
  let hi := max size node.size
  { size := size
    data := memset node.data lo 0 (hi - lo)
    mapped := fun b =>
      node.mapped b || (lo < hi && lo / dufsBlockSize ≤ b && b ≤ (hi - 1) / dufsBlockSize) }

/-- `vfs_truncate`; `failed` is what a truncation that fails leaves. -/
def vfsTruncate (node : Node) (size : Nat) (failed : Option Node) : Bool × Node :=
  match failed with
  | some left => (false, left)
  | none => (true, node.resize size)

/-! ## What callers rely on -/

theorem stopped_le (n : Nat) (upTo : Option Nat) : stopped n upTo ≤ n := by
  cases upTo with
  | none => exact Nat.le_refl n
  | some k => exact Nat.min_le_left n k

@[simp] theorem stopped_none (n : Nat) : stopped n none = n := rfl

theorem Node.readable_le (node : Node) (off n : Nat) : node.readable off n ≤ n :=
  calc node.readable off n ≤ (List.range n).length := (List.takeWhile_sublist _).length_le
    _ = n := List.length_range

/-- An ext3 file that cannot be read for its size. -/
def Node.TooLarge (node : Node) (kind : FsKind) : Prop := kind = .ext3 ∧ node.size = ext3NoSize

/-- The read finds the blocks that the file has. -/
def ReadEnv.Finds (e : ReadEnv) (kind : FsKind) : Prop := kind = .ext3 → ∀ p, e.unfound p = false

/-- A write of a block of DUFS fails part-way. -/
def WriteEnv.tears (e : WriteEnv) (kind : FsKind) : Bool := kind == .dufs && e.torn != 0

theorem Node.seen_eq {node : Node} {kind : FsKind} {e : ReadEnv} (h : e.Finds kind) :
    node.seen kind e = node := by
  cases kind with
  | dufs => rfl
  | ext3 =>
    unfold Node.seen
    simp only [h rfl, Bool.false_eq_true, if_false]

@[simp] theorem Node.tear_zero (node : Node) (off : Nat) (src : Buf) : node.tear off src 0 = node := by
  unfold Node.tear storeBytes
  congr 1
  funext p
  rw [memcpy_out (by omega), memcpy_out (by omega)]

/-- A read gives at most what there is, and at most what is asked for. -/
theorem vfsRead_le {kind : FsKind} {node : Node} {off count n : Nat} {e : ReadEnv}
    (h : vfsRead kind node off count e = some n) : n ≤ count := by
  cases kind with
  | dufs =>
    unfold vfsRead fsRead at h
    dsimp only at h
    split at h
    · cases h
    split at h
    · exact Option.some.inj h ▸ Nat.zero_le count
    next hlt =>
    have hle := (stopped_le _ e.upTo).trans (node.readable_le off
      (if node.size < u32 (off + count) then node.size - off else count))
    rw [Option.some.inj h] at hle
    split at hle
    next hwrap =>
      unfold u32 at hwrap
      omega
    · exact hle
  | ext3 =>
    unfold vfsRead ext3Read at h
    dsimp only at h
    split at h
    · cases h
    split at h
    · exact Option.some.inj h ▸ Nat.zero_le count
    split at h
    · cases h
    have hle := stopped_le (min count (node.size - off)) e.upTo
    rw [Option.some.inj h] at hle
    omega

/-- What can be read has a size. -/
theorem vfsRead_sized {kind : FsKind} {node : Node} {off count n : Nat} {e : ReadEnv}
    (h : vfsRead kind node off count e = some n) : ¬ node.TooLarge kind := by
  rintro ⟨rfl, hsize⟩
  unfold vfsRead ext3Read at h
  rw [if_pos (.inr hsize)] at h
  cases h

/-- What a write does: it fails, or `n` bytes are stored, and no others unless it tears. -/
theorem vfsWrite_cases (kind : FsKind) (node : Node) (off : Nat) (src : Buf) (count : Nat)
    (e : WriteEnv) :
    (∃ left, vfsWrite kind node off src count e = (none, left)) ∨
      ∃ n ≤ count, ∃ node', vfsWrite kind node off src count e = (some n, node') ∧
        node'.size = (node.store off src n).size ∧
        (n = count ∨ e.tears kind = false → node'.data = (node.store off src n).data) := by
  cases kind with
  | dufs =>
    unfold vfsWrite fsWrite
    dsimp only
    split
    · exact .inl ⟨node, rfl⟩
    split
    next left _ => exact .inl ⟨left, rfl⟩
    refine .inr ⟨_, stopped_le count e.upTo, _, rfl, ?_, fun hwhole => ?_⟩
    · split <;> rfl
    have hnone : min e.torn (count - stopped count e.upTo) = 0 := by
      rcases hwhole with hfull | htorn
      · omega
      · have : e.torn = 0 := by simpa [WriteEnv.tears] using htorn
        omega
    rw [hnone, Node.tear_zero]
    split <;> rfl
  | ext3 =>
    unfold vfsWrite ext3Write
    dsimp only
    split
    · exact .inl ⟨node, rfl⟩
    split
    · exact .inl ⟨node, rfl⟩
    split
    next left _ => exact .inl ⟨left, rfl⟩
    · exact .inr ⟨_, stopped_le count e.upTo, _, rfl, rfl, fun _ => rfl⟩

/-- A write of so many bytes that does not wrap around. -/
theorem Node.store_data (node : Node) {off n : Nat} (src : Buf) (h : off + n ≤ 4294967296) :
    (node.store off src n).data = memcpy node.data off src 0 n := by
  unfold Node.store
  split
  next hn =>
    funext p
    rw [hn, memcpy_out (by omega)]
  have hfit : min n (4294967296 - off) = n := by omega
  funext p
  simp only [storeBytes, hfit, Nat.sub_self]
  exact memcpy_out (by omega)

theorem Node.store_size (node : Node) {off n : Nat} (src : Buf) (h : off + n < 4294967296)
    (hn : n ≠ 0) : (node.store off src n).size = max node.size (off + n) := by
  unfold Node.store
  rw [if_neg hn, u32_of_lt h]

@[simp] theorem Node.store_zero (node : Node) (off : Nat) (src : Buf) : node.store off src 0 = node :=
  if_pos rfl

@[simp] theorem Node.length_bytes (node : Node) (off n : Nat) : (node.bytes off n).length = n := by
  simp [Node.bytes]

theorem Node.bytes_add (node : Node) (off m n : Nat) :
    node.bytes off (m + n) = node.bytes off m ++ node.bytes (off + m) n := by
  unfold Node.bytes
  rw [List.range_add, List.map_append, List.map_map]
  congr 1
  exact List.map_congr_left fun i _ => by simp [Nat.add_assoc]

theorem Node.bytes_congr {node node' : Node} {off off' n : Nat}
    (h : ∀ i < n, node.data (off + i) = node'.data (off' + i)) : node.bytes off n = node'.bytes off' n :=
  List.map_congr_left fun i hi => h i (List.mem_range.mp hi)

end Drunix.Vfs
