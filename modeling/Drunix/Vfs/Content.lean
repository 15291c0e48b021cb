import Drunix.Vfs.Node

/-!
# A regular file as an array of bytes

What the calls of the VFS do to a file that is as the file systems keep it (`Whole`), in terms
of the list of its bytes: a store overwrites a part of the list, a truncation shortens it or
fills it up with zeros, and a read gives a part of it. `Node.gives` is the number of bytes of a
read in which nothing fails; on DUFS it ends at the first block that the file does not have.
-/

namespace Drunix.Vfs

open Lib

/-! ## Arrays of bytes -/

/-- `bytes` over what the file has from `off` on, with zeros up to there. -/
def overwrite (file : List UInt8) (off : Nat) (bytes : List UInt8) : List UInt8 :=
  if bytes = [] then file
  else file.take off ++ List.replicate (off - file.length) 0 ++ bytes ++ file.drop (off + bytes.length)

/-- The file with `n` bytes: its first ones, and zeros. -/
def resized (file : List UInt8) (n : Nat) : List UInt8 :=
  file.take n ++ List.replicate (n - file.length) 0

/-- What a read of `count` bytes at `off` should deliver. -/
def window (file : List UInt8) (off count : Nat) : List UInt8 := (file.drop off).take count

/-- A file as the file systems keep it: the bytes after its end are 0, and on DUFS it has all
its blocks. -/
structure Whole (kind : FsKind) (node : Node) : Prop where
  fits : node.size < 4294967296
  zero : ∀ p, node.size ≤ p → node.data p = 0
  mapped : kind = .dufs → ∀ p < node.size, node.mapped (p / dufsBlockSize) = true

section Nodes

variable {kind : FsKind} {node node' : Node} {off n m : Nat} {src : Buf}

theorem Node.contents_length (node : Node) : node.contents.length = node.size :=
  node.length_bytes 0 node.size

theorem Node.contents_drop (node : Node) (k : Nat) :
    node.contents.drop k = node.bytes k (node.size - k) := by
  by_cases hk : k ≤ node.size
  · have hsplit := node.bytes_add 0 k (node.size - k)
    rw [Nat.add_sub_cancel' hk, Nat.zero_add] at hsplit
    rw [Node.contents, hsplit, List.drop_left' (node.length_bytes 0 k)]
  · rw [List.drop_eq_nil_of_le (by rw [node.contents_length]; omega),
      Nat.sub_eq_zero_of_le (by omega)]
    rfl

theorem Node.bytes_take (node : Node) (off n k : Nat) :
    (node.bytes off n).take k = node.bytes off (min k n) := by
  unfold Node.bytes
  rw [← List.map_take, List.take_range]

theorem Node.window_eq (node : Node) (off count : Nat) :
    window node.contents off count = node.bytes off (min count (node.size - off)) := by
  rw [window, node.contents_drop, node.bytes_take]

/-- The bytes up to `n`, beyond the end of the file or not. -/
theorem Whole.bytes_start (h : Whole kind node) (n : Nat) :
    node.bytes 0 n = resized node.contents n := by
  rw [resized, node.contents_length, Node.contents, node.bytes_take]
  have hsplit := node.bytes_add 0 (min n node.size) (n - node.size)
  rw [show min n node.size + (n - node.size) = n by omega] at hsplit
  rw [hsplit]
  congr 1
  refine List.eq_replicate_iff.mpr ⟨node.length_bytes _ _, fun b hb => ?_⟩
  obtain ⟨i, hi, rfl⟩ := List.mem_map.mp hb
  have := List.mem_range.mp hi
  exact h.zero _ (by omega)

/-- A truncation is one of the array. -/
theorem Whole.resize_contents (h : Whole kind node) (n : Nat) :
    (node.resize n).contents = resized node.contents n := by
  rw [← h.bytes_start]
  refine Node.bytes_congr fun i hi => ?_
  rw [Nat.zero_add]
  show memset node.data _ 0 _ i = node.data i
  have hi' : i < n := hi
  unfold memset
  split
  next hin => exact (h.zero i (by omega)).symm
  · rfl

theorem Whole.resize (h : Whole kind node) (hn : n < 4294967296) : Whole kind (node.resize n) := by
  refine ⟨hn, fun p hp => ?_, fun hkind p hp => ?_⟩
  · show memset node.data _ 0 _ p = 0
    have hp' : n ≤ p := hp
    unfold memset
    split
    · rfl
    next hout => exact h.zero p (by omega)
  · have hp' : p < n := hp
    show (node.mapped (p / dufsBlockSize) || _) = true
    by_cases hold : p < node.size
    · rw [h.mapped hkind p hold, Bool.true_or]
    · -- a block between the two sizes
      have hlo : min n node.size / dufsBlockSize ≤ p / dufsBlockSize :=
        Nat.div_le_div_right (by omega)
      have hhi : p / dufsBlockSize ≤ (max n node.size - 1) / dufsBlockSize :=
        Nat.div_le_div_right (by omega)
      have hlt : min n node.size < max n node.size := by omega
      simp only [hlo, hhi, hlt, decide_true, Bool.and_self, Bool.or_true]

theorem Node.store_mapped (node : Node) {p : Nat} (hfit : off + n < 4294967296)
    (hp : p < (node.store off src n).size) (hoff : off ≤ node.size)
    (hmapped : ∀ p < node.size, node.mapped (p / dufsBlockSize) = true) :
    (node.store off src n).mapped (p / dufsBlockSize) = true := by
  by_cases hn : n = 0
  · rw [hn, Node.store_zero] at hp ⊢
    exact hmapped p hp
  · rw [Node.store_size _ _ hfit hn] at hp
    unfold Node.store
    rw [if_neg hn]
    by_cases hold : p < node.size
    · simp only [hmapped p hold, Bool.true_or]
    · -- a byte of the store itself
      have hany : (List.range n).any (fun i => u32 (off + i) / dufsBlockSize == p / dufsBlockSize) =
          true := by
        refine List.any_eq_true.mpr ⟨p - off, List.mem_range.mpr (by omega), ?_⟩
        rw [u32_of_lt (by omega), show off + (p - off) = p by omega]
        exact beq_self_eq_true _
      simp only [hany, Bool.or_true]

theorem Whole.store (h : Whole kind node) (src : Buf) (hfit : off + n < 4294967296)
    (hgap : kind = .dufs → off ≤ node.size) : Whole kind (node.store off src n) := by
  refine ⟨?_, fun p hp => ?_, fun hkind p hp =>
    node.store_mapped hfit hp (hgap hkind) (h.mapped hkind)⟩
  · by_cases hn : n = 0
    · rw [hn, Node.store_zero]
      exact h.fits
    · rw [Node.store_size _ _ hfit hn]
      have := h.fits
      omega
  · rw [Node.store_data _ _ (by omega)]
    by_cases hn : n = 0
    · rw [hn, Node.store_zero] at hp
      rw [memcpy_out (by omega)]
      exact h.zero p hp
    · rw [Node.store_size _ _ hfit hn] at hp
      rw [memcpy_out (by omega)]
      exact h.zero p (by omega)

/-- What is written through the VFS without a lost inode and a torn block. -/
theorem Whole.vfsWrite (h : Whole kind node) (src : Buf) {count : Nat} {e : WriteEnv}
    (hlost : e.lost = none) (htorn : e.tears kind = false)
    (hfit : off + count < 4294967296) (hgap : kind = .dufs → off ≤ node.size) :
    Whole kind (vfsWrite kind node off src count e).2 := by
  have hle := stopped_le count e.upTo
  cases kind with
  | dufs =>
    unfold Vfs.vfsWrite fsWrite
    dsimp only
    split
    · exact h
    have hnone : e.torn = 0 := by simpa [WriteEnv.tears] using htorn
    rw [hlost, hnone, Nat.zero_min, Node.tear_zero]
    dsimp only
    have hstore := h.store (n := stopped count e.upTo) src (by omega) hgap
    split
    · refine ⟨hstore.fits, hstore.zero, fun hkind p hp => ?_⟩
      show ((node.store off src _).mapped (p / dufsBlockSize) || _) = true
      rw [hstore.mapped hkind p hp, Bool.true_or]
    · exact hstore
  | ext3 =>
    unfold Vfs.vfsWrite ext3Write
    dsimp only
    split
    · exact h
    split
    · exact h
    rw [hlost]
    exact h.store src (by omega) hgap

end Nodes

/-! ## Reads -/

/-- How many of `n` bytes from `off` on the file system gives. -/
def Node.gives (kind : FsKind) (node : Node) (off n : Nat) : Nat :=
  match kind with
  | .dufs => node.readable off (min n (node.size - off))
  | .ext3 => min n (node.size - off)

section Reads

variable {kind : FsKind} {node : Node} {off m n : Nat}

theorem Node.gives_le (kind : FsKind) (node : Node) (off n : Nat) :
    node.gives kind off n ≤ min n (node.size - off) := by
  cases kind with
  | dufs => exact node.readable_le off _
  | ext3 => exact Nat.le_refl _

theorem Node.readable_add (node : Node) (off m n : Nat) : node.readable off (m + n) =
      if node.readable off m = m then m + node.readable (off + m) n else node.readable off m := by
  unfold Node.readable
  rw [List.range_add, List.takeWhile_append, List.length_range]
  split
  · rw [List.length_append, List.length_range, List.takeWhile_map, List.length_map]
    simp only [Function.comp_def, Nat.add_assoc]
  · rfl

theorem Node.readable_eq_iff (node : Node) (off n : Nat) :
    node.readable off n = n ↔ ∀ i < n, node.mapped (u32 (off + i) / dufsBlockSize) = true := by
  induction n with
  | zero => exact ⟨fun _ i hi => absurd hi (by omega), fun _ => rfl⟩
  | succ n ih =>
    have hle := node.readable_le off n
    have hlast : node.readable (off + n) 1 = 1 ↔
        node.mapped (u32 (off + n) / dufsBlockSize) = true := by
      unfold Node.readable
      rw [List.range_one, List.takeWhile_cons, List.takeWhile_nil, Nat.add_zero]
      cases node.mapped (u32 (off + n) / dufsBlockSize) <;> simp
    rw [node.readable_add]
    split
    next hfull =>
      rw [Nat.add_left_cancel_iff, hlast]
      constructor
      · intro h i hi
        rcases Nat.lt_succ_iff_lt_or_eq.mp hi with hlt | rfl
        · exact ih.mp hfull i hlt
        · exact h
      · exact fun h => h n (Nat.lt_succ_self n)
    next hshort =>
      constructor
      · intro h
        omega
      · exact fun h => absurd (ih.mpr fun i hi => h i (by omega)) hshort

/-- What is given in two parts: the second one if the first is whole. -/
theorem Node.gives_add (kind : FsKind) (node : Node) (off m n : Nat) : node.gives kind off (m + n) =
      if node.gives kind off m = m then m + node.gives kind (off + m) n
      else node.gives kind off m := by
  cases kind with
  | ext3 =>
    show min (m + n) (node.size - off) = if min m (node.size - off) = m then
      m + min n (node.size - (off + m)) else min m (node.size - off)
    split <;> omega
  | dufs =>
    show node.readable off (min (m + n) (node.size - off)) =
      if node.readable off (min m (node.size - off)) = m then
        m + node.readable (off + m) (min n (node.size - (off + m)))
      else node.readable off (min m (node.size - off))
    by_cases hm : m ≤ node.size - off
    · rw [show min (m + n) (node.size - off) = m + min n (node.size - (off + m)) by omega,
        node.readable_add, Nat.min_eq_left hm]
    · have hle := node.readable_le off (min m (node.size - off))
      rw [if_neg (by omega), show min (m + n) (node.size - off) = min m (node.size - off) by omega]

/-- A file gives all of `n` bytes before its end unless there is a hole in them. -/
theorem Node.gives_eq_iff (hfits : node.size < 4294967296) :
    node.gives kind off n = min n (node.size - off) ↔
      (kind = .dufs → ∀ i < min n (node.size - off),
        node.mapped ((off + i) / dufsBlockSize) = true) := by
  cases kind with
  | ext3 => exact ⟨nofun, fun _ => rfl⟩
  | dufs =>
    show node.readable off (min n (node.size - off)) = _ ↔ _
    rw [Node.readable_eq_iff]
    constructor
    · intro h _ i hi
      have := h i hi
      rwa [u32_of_lt (by omega)] at this
    · intro h i hi
      rw [u32_of_lt (by omega)]
      exact h rfl i hi

theorem vfsRead_clean {count : Nat} {e : ReadEnv} (hrefused : e.refused = false)
    (hupTo : e.upTo = none) (hsized : ¬ node.TooLarge kind) (hfit : off + count < 4294967296) :
    vfsRead kind node off count e = some (node.gives kind off count) := by
  cases kind with
  | dufs =>
    unfold vfsRead fsRead
    simp only [hrefused, hupTo, Bool.false_eq_true, if_false, u32_of_lt hfit, stopped_none]
    split
    next hend =>
      show some 0 = some (node.readable off (min count (node.size - off)))
      rw [show min count (node.size - off) = 0 by omega]
      rfl
    next hin =>
      congr 2
      split <;> omega
  | ext3 =>
    unfold vfsRead ext3Read
    have hsize : ¬ node.size = ext3NoSize := fun h => hsized ⟨rfl, h⟩
    simp only [hrefused, hupTo, hsize, Bool.false_eq_true, or_self, if_false, stopped_none]
    split
    next hend =>
      show some 0 = some (min count (node.size - off))
      rw [show min count (node.size - off) = 0 by omega]
    next hin =>
      rw [if_neg (by omega)]
      rfl

end Reads

end Drunix.Vfs
