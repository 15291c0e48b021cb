import Drunix.Vfs.Content
import Drunix.Io.Shared

/-!
# One file, one content

However many descriptors are open on a file, and whichever of them or which path a change is
made through, a read should deliver the bytes that the file has now, and a seek from the end
should start at the size that it has now.

Reads and seeks go by the size in the handle. It is set at `open`, by writes through this very
handle, and by `ftruncate` in the table of the caller; `truncate`, `open` with `O_TRUNC` and
writes through other handles do not set it. A read delivers what it should if and only if the
handle sees the bytes in question (`FileHandle.Sees`); on DUFS there must also be no hole among
them, since `fs_read` ends at a block that the file does not have, and `ext3_read` does not read
a file of 2 ^ 32 - 1 bytes or more. In runs in which every change
of a size is one that all handles of the file are told (`IoOp.Told`), all handles know it, the
calls change the files as if these were arrays of bytes (`IoOp.effect`), and every read delivers
a window of that array (`one_content`). A second descriptor that was opened before the first one
wrote reads nothing (`second_reads_nothing`).
-/

namespace Drunix.Io

open Lib Vfs Function
open Proc (maxFds userIoChunk ebadf einval)

section Contents

variable {kind : FsKind} {node node' : Node} {off m : Nat} {src : Buf}

/-- A store is a store into the array. -/
theorem Stored.contents (h : Stored node off src m node') (hwhole : Whole kind node) :
    node'.contents = overwrite node.contents off ((List.range m).map src) := by
  by_cases hm : m = 0
  · subst hm
    have hsize : node'.size = node.size := h.size
    show node'.bytes 0 node'.size = node.bytes 0 node.size
    rw [hsize]
    exact Node.bytes_congr fun i _ => by rw [h.data, memcpy_out (by omega)]
  · have hsize : node'.size = max node.size (off + m) := h.size.trans (if_neg hm)
    have hne : (List.range m).map src ≠ [] := by simpa using hm
    have hbefore : node'.bytes 0 off = node.bytes 0 off := h.bytes_before (by omega)
    have hsplit := node'.bytes_add 0 (off + m) (node'.size - (off + m))
    rw [show off + m + (node'.size - (off + m)) = node'.size by omega, node'.bytes_add 0 off m, Nat.zero_add,
      Nat.zero_add, h.bytes, hbefore, hwhole.bytes_start] at hsplit
    rw [overwrite, if_neg hne, List.length_map, List.length_range, node.contents_drop]
    refine hsplit.trans (congrArg (HAppend.hAppend _) ?_)
    rw [show node'.size - (off + m) = node.size - (off + m) by omega]
    exact Node.bytes_congr fun i _ => by rw [h.data, memcpy_out (by omega)]

end Contents

/-! ## Reads, to the byte -/

/-- Nothing fails in the read. -/
structure ReadCall.Clean (e : ReadCall) : Prop where
  prepare : e.prepare = true
  copy : ∀ w, (e.chunk w).copy = true
  refused : ∀ w, (e.chunk w).fs.refused = false
  upTo : ∀ w, (e.chunk w).fs.upTo = none
  found : ∀ w p, (e.chunk w).fs.unfound p = false

section Reads

variable {kind : FsKind} {node : Node} {off toRead : Nat} {e : ReadCall}

/-- The loop of a read in which nothing fails, after a part that was given whole. -/
theorem readLoop_clean (hclean : e.Clean) (hsized : ¬ node.TooLarge kind)
    (hfit : off + toRead < 4294967296) :
    ∀ fuel (got : List UInt8), toRead ≤ got.length + fuel → got.length ≤ toRead →
    node.gives kind off got.length = got.length →
    (readLoop kind node off toRead e.chunk fuel got).1 = false ∧
      (readLoop kind node off toRead e.chunk fuel got).2.length = node.gives kind off toRead := by
  intro fuel
  induction fuel with
  | zero =>
    intro got hfuel hle hgives
    have : got.length = toRead := by omega
    exact ⟨rfl, by rw [← this, hgives]; rfl⟩
  | succ fuel ih =>
    intro got hfuel hle hgives
    unfold readLoop
    dsimp only
    split
    next hdone =>
      have : got.length = toRead := by omega
      exact ⟨rfl, by rw [← this, hgives]⟩
    next hlt =>
    rw [u32_of_lt (by omega), vfsRead_clean (hclean.refused _) (hclean.upTo _) hsized (by omega),
      Node.seen_eq fun _ => hclean.found _]
    dsimp only
    have hle' := Node.gives_le kind node (off + got.length)
      (min (toRead - got.length) userIoChunk)
    -- what is left to read starts with this chunk
    have hrest : node.gives kind off toRead = got.length +
        node.gives kind (off + got.length) (toRead - got.length) := by
      conv_lhs => rw [show toRead = got.length + (toRead - got.length) by omega]
      rw [Node.gives_add, if_pos hgives]
    have hnext := Node.gives_add kind node (off + got.length)
      (min (toRead - got.length) userIoChunk)
      (toRead - got.length - min (toRead - got.length) userIoChunk)
    rw [show min (toRead - got.length) userIoChunk + (toRead - got.length -
      min (toRead - got.length) userIoChunk) = toRead - got.length by omega] at hnext
    generalize hk : node.gives kind (off + got.length) (min (toRead - got.length) userIoChunk) = k
      at hle' hnext ⊢
    have hlen : (got ++ node.bytes (off + got.length) k).length = got.length + k := by simp
    have hchunk : min (toRead - got.length) userIoChunk ≠ 0 := by
      unfold userIoChunk
      omega
    split
    next hz =>
      rw [if_neg (by omega)] at hnext
      exact ⟨rfl, by rw [hrest, hnext, hz]; rfl⟩
    rw [hclean.copy]
    simp only [Bool.not_true, Bool.false_eq_true, if_false]
    split
    next hshort =>
      rw [if_neg (by omega)] at hnext
      exact ⟨rfl, by rw [hlen, hrest, hnext]⟩
    next hfull =>
      refine ih _ (by omega) (by omega) ?_
      have hkfull : k = min (toRead - got.length) userIoChunk := by omega
      rw [hlen, Node.gives_add, if_pos hgives, hkfull, hk, hkfull]

/-- A read in which nothing fails delivers what the file system gives, up to the size in the
handle. -/
theorem readFile_clean (fh : FileHandle) (hclean : e.Clean) (hsized : ¬ node.TooLarge kind)
    (count : Nat) :
    ∃ r, r = node.gives kind fh.offset.toNat (min count (fh.size.toNat - fh.offset.toNat)) ∧
      (readFile kind fh node count e).1 = r ∧
      (readFile kind fh node count e).2.1 = node.bytes fh.offset.toNat r := by
  have hzero : min count (fh.size.toNat - fh.offset.toNat) = 0 →
      node.gives kind fh.offset.toNat (min count (fh.size.toNat - fh.offset.toNat)) = 0 := by
    intro hz
    have hle := Node.gives_le kind node fh.offset.toNat
      (min count (fh.size.toNat - fh.offset.toNat))
    omega
  refine ⟨_, rfl, ?_⟩
  unfold readFile
  split
  next hz =>
    rw [hzero (by omega)]
    exact ⟨rfl, rfl⟩
  split
  next hend =>
    have := UInt32.le_iff_toNat_le.mp hend
    rw [hzero (by omega)]
    exact ⟨rfl, rfl⟩
  next hin =>
  have hlt := UInt32.lt_iff_toNat_lt.mp (UInt32.not_le.mp hin)
  have hsize := fh.size.toNat_lt
  rw [if_neg (by rw [hclean.prepare]; decide)]
  have hfit : fh.offset.toNat + min count (fh.size.toNat - fh.offset.toNat) < 4294967296 := by
    omega
  obtain ⟨hearly, hlen⟩ := readLoop_clean hclean hsized hfit _ []
    (Nat.le_of_eq (Nat.zero_add _).symm) (Nat.zero_le _)
    (Nat.le_zero.mp ((Node.gives_le kind node _ 0).trans (Nat.min_le_left _ _)))
  obtain ⟨-, -, hbytes, -⟩ := readLoop_spec kind node e.chunk (Nat.le_of_lt hfit) _ []
    (Nat.le_of_eq (Nat.zero_add _).symm) (Nat.zero_le _)
  have hgot := hbytes (fun w _ _ => hclean.found w) rfl
  generalize readLoop kind node fh.offset.toNat (min count (fh.size.toNat - fh.offset.toNat))
    e.chunk (min count (fh.size.toNat - fh.offset.toNat)) [] = out at hearly hlen hgot ⊢
  obtain ⟨early, got⟩ := out
  obtain rfl : early = false := hearly
  rw [← hlen]
  exact ⟨rfl, hgot⟩

/-- A file that is too large for ext3 delivers nothing. -/
theorem readFile_tooLarge (fh : FileHandle) (count : Nat) (e : ReadCall)
    (hlarge : node.TooLarge kind) : (readFile kind fh node count e).2.1 = [] := by
  unfold readFile
  split
  · rfl
  split
  · rfl
  dsimp only
  split
  · rfl
  have hloop : ∀ fuel, (readLoop kind node fh.offset.toNat
      (min count (fh.size.toNat - fh.offset.toNat)) e.chunk fuel []).2 = [] := by
    intro fuel
    cases fuel with
    | zero => rfl
    | succ fuel =>
      unfold readLoop
      split
      · rfl
      dsimp only
      split
      · rfl
      next hr => exact absurd hlarge (vfsRead_sized hr)
  specialize hloop (min count (fh.size.toNat - fh.offset.toNat))
  split
  next heq =>
    rw [heq] at hloop
    exact hloop
  next heq =>
    rw [heq] at hloop
    exact hloop

end Reads

/-- The bytes that a read of `count` should deliver are below the size in the handle and, on
DUFS, not in a hole; if there are any then the file is one that can be read. -/
def FileHandle.Sees (kind : FsKind) (fh : FileHandle) (node : Node) (count : Nat) : Prop :=
  min count (node.size - fh.offset.toNat) ≤ fh.size.toNat - fh.offset.toNat ∧
    (kind = .dufs → ∀ i < min count (node.size - fh.offset.toNat),
      node.mapped ((fh.offset.toNat + i) / dufsBlockSize) = true) ∧
    (node.TooLarge kind → min count (node.size - fh.offset.toNat) = 0)

section Calls

variable {kind : FsKind} {node : Node} {fh : FileHandle} {s : IoSys} {t fd count : Nat}
  {e : ReadCall}

/-- A read in which nothing fails delivers the bytes of the file if and only if its handle sees
them. -/
theorem read_iff (hfh : s.handle t fd = some fh) (hfits : (s.node fh.ref).size < 4294967296)
    (hclean : e.Clean) :
    (ioCall s (.read t fd count e)).1.got =
        window (s.node fh.ref).contents fh.offset.toNat count ↔
      fh.Sees (s.kind fh.ref.mountId) (s.node fh.ref) count := by
  rw [ioCall_read hfh, Node.window_eq]
  by_cases hlarge : (s.node fh.ref).TooLarge (s.kind fh.ref.mountId)
  · -- nothing is delivered, which is right where nothing is asked for
    rw [readFile_tooLarge fh count e hlarge]
    constructor
    · intro heq
      have hlen := congrArg List.length heq
      rw [Node.length_bytes, List.length_nil] at hlen
      exact ⟨by omega, fun hk => absurd (hk.symm.trans hlarge.1) (by decide), fun _ => hlen.symm⟩
    · rintro ⟨-, -, hzero⟩
      rw [hzero hlarge]
      rfl
  obtain ⟨r, hr, -, hgot⟩ := readFile_clean fh hclean hlarge count
  rw [hgot]
  have hle := Node.gives_le (s.kind fh.ref.mountId) (s.node fh.ref) fh.offset.toNat
    (min count (fh.size.toNat - fh.offset.toNat))
  constructor
  · intro heq
    have hlen := congrArg List.length heq
    rw [Node.length_bytes, Node.length_bytes] at hlen
    have hmin : min (min count (fh.size.toNat - fh.offset.toNat))
        ((s.node fh.ref).size - fh.offset.toNat) =
        min count ((s.node fh.ref).size - fh.offset.toNat) := by omega
    have hfull := (Node.gives_eq_iff hfits).mp (hr.symm.trans (hlen.trans hmin.symm))
    rw [hmin] at hfull
    exact ⟨by omega, hfull, fun h => absurd h hlarge⟩
  · rintro ⟨hsee, hmapped, -⟩
    have hmin : min (min count (fh.size.toNat - fh.offset.toNat))
        ((s.node fh.ref).size - fh.offset.toNat) =
        min count ((s.node fh.ref).size - fh.offset.toNat) := by omega
    rw [← hmin] at hmapped
    rw [hr, (Node.gives_eq_iff hfits).mpr hmapped, hmin]

theorem read_ret (hfh : s.handle t fd = some fh) (hclean : e.Clean)
    (hsized : ¬ (s.node fh.ref).TooLarge (s.kind fh.ref.mountId)) :
    (ioCall s (.read t fd count e)).1.ret = (ioCall s (.read t fd count e)).1.got.length := by
  obtain ⟨r, -, hret, hgot⟩ := readFile_clean fh hclean hsized count
  rw [ioCall_read hfh]
  rw [hret, hgot, Node.length_bytes]

/-- A seek from the end goes by the size of the file if and only if the handle knows it. -/
theorem seek_end_iff (hfh : s.handle t fd = some fh) {offset : Int}
    (hpos : 0 ≤ (s.node fh.ref).size + offset)
    (hmax : (s.node fh.ref).size + offset ≤ 4294967295) :
    (ioCall s (.lseek t fd offset 2)).1.ret = (s.node fh.ref).size + offset ↔
      fh.size.toNat = (s.node fh.ref).size := by
  simp only [ioCall, hfh, seekHandle]
  split
  next hout =>
    constructor
    · intro h
      omega
    · intro h
      omega
  · exact ⟨fun h => by dsimp only at h; omega, fun h => by dsimp only; omega⟩

end Calls

/-! ## Writes to whole files -/

/-- Every handle of the file is among those of `told`. -/
def IoSys.Only (s : IoSys) (ref : FileRef) (told : Nat → Nat → Prop) : Prop :=
  ∀ t fd fh, s.handle t fd = some fh → fh.ref = ref → told t fd

/-- A write that nothing interrupts after its first chunk, and that leaves no hole and no torn
block on DUFS. If it makes the file longer, then no other handle is open on it. -/
structure WriteTold (s : IoSys) (t fd : Nat) (fh : FileHandle) (count : Nat) (e : WriteCall) :
    Prop where
  fits : fh.start.toNat + count < 4294967296
  late : ∀ w, 0 < w → w < count → (e.chunk w).refuses (s.kind fh.ref.mountId) = false
  kept : (e.chunk 0).fs.lost = none
  whole : ∀ w < count, (e.chunk w).fs.tears (s.kind fh.ref.mountId) = false
  gap : s.kind fh.ref.mountId = .dufs → fh.start.toNat ≤ (s.node fh.ref).size
  alone : (s.node fh.ref).size < fh.start.toNat + count →
    s.Only fh.ref fun t' fd' => t' = t ∧ fd' = fd

section Writes

variable {kind : FsKind} {off count : Nat} {src : Buf} {node : Node} {fh : FileHandle}

theorem FileHandle.positioned_size (fh : FileHandle) : fh.positioned.size = fh.size := by
  unfold FileHandle.positioned
  split <;> rfl

theorem FileHandle.advance_size {n : Nat} (h : fh.start.toNat + n < 4294967296) :
    (fh.positioned.advance n).size.toNat = max fh.size.toNat (fh.start.toNat + n) := by
  have hoff := FileHandle.advance_offset h
  have hsize : (fh.positioned.advance n).size =
      if fh.size < (fh.positioned.advance n).offset then (fh.positioned.advance n).offset
      else fh.size := by
    rw [← fh.positioned_size]
    rfl
  rw [hsize]
  split
  next hlt =>
    have := UInt32.lt_iff_toNat_lt.mp hlt
    omega
  next hge =>
    have := UInt32.le_iff_toNat_le.mp (UInt32.not_lt.mp hge)
    omega

theorem WriteChunk.lost_of_refuses {c : WriteChunk} (h : c.refuses kind = false) :
    c.fs.lost = none := by
  unfold WriteChunk.refuses at h
  cases hlost : c.fs.lost with
  | none => rfl
  | some left =>
    rw [hlost] at h
    simp at h

/-- The loop of `write` keeps a file whole. -/
theorem writeLoop_whole (src : Buf) {e : Nat → WriteChunk} (hlost : ∀ w < count, (e w).fs.lost = none)
    (htorn : ∀ w < count, (e w).fs.tears kind = false) (hfit : off + count < 4294967296) : ∀ fuel written (node : Node), written ≤ count →
    Whole kind node → (kind = .dufs → off + written ≤ node.size) →
    Whole kind (writeLoop kind off src count e fuel written node).2.2 := by
  intro fuel
  induction fuel with
  | zero => exact fun _ _ _ hwhole _ => hwhole
  | succ fuel ih =>
    intro written node hle hwhole hgap
    unfold writeLoop
    dsimp only
    split
    · exact hwhole
    next hlt =>
    split
    · exact hwhole
    rw [u32_of_lt (by omega)]
    have hchunk : off + written + min (count - written) userIoChunk < 4294967296 := by omega
    have hnext := hwhole.vfsWrite (fun i => src (written + i)) (hlost written (by omega))
      (htorn written (by omega)) hchunk hgap
    split
    next left hw =>
      rw [hw] at hnext
      exact hnext
    next n node' hw =>
    rw [hw] at hnext
    obtain ⟨hn, hsize, -⟩ := vfsWrite_some hw
    split
    · exact hnext
    next hfull =>
      refine ih (written + n) node' (by omega) hnext fun _ => ?_
      have hpos : n ≠ 0 := by
        unfold userIoChunk at hfull
        omega
      rw [hsize, Node.store_size _ _ (by omega) hpos]
      omega

/-- A write to ext3 stores something or fails. -/
theorem writeFile_ext3_ne_zero {e : WriteCall} (hcount : count ≠ 0) :
    (writeFile .ext3 fh node src count e).1 ≠ 0 := by
  unfold writeFile
  split
  · exact show ebadf ≠ 0 by decide
  split
  · exact show (-1 : Int) ≠ 0 by decide
  dsimp only
  split
  next w _ _ =>
    split <;> omega
  next w node' hloop =>
  obtain ⟨k, rfl⟩ := Nat.exists_eq_succ_of_ne_zero hcount
  unfold writeLoop at hloop
  rw [if_neg (by omega)] at hloop
  dsimp only at hloop
  split at hloop
  · cases hloop
  split at hloop
  · cases hloop
  next n node1 hw =>
  have hn : n ≠ 0 := by
    unfold vfsWrite ext3Write at hw
    dsimp only at hw
    split at hw
    · cases hw
    split at hw
    · cases hw
    next hdone =>
      split at hw
      · cases hw
      · exact Option.some.inj (Prod.mk.inj hw).1 ▸ hdone
  have hle := (vfsWrite_some hw).1
  split at hloop
  · have := (Prod.mk.inj (Prod.mk.inj hloop).2).1
    omega
  have hge := (writeLoop_spec .ext3 fh.positioned.offset.toNat (k + 1) src node e.chunk k
    (0 + n) node1 (by omega) (by omega)).1
  rw [hloop] at hge
  have hge' : 0 + n ≤ w := hge
  omega

theorem writeFile_whole (src : Buf) {s : IoSys} {t fd : Nat} {e : WriteCall}
    (htold : WriteTold s t fd fh count e) (hwhole : Whole (s.kind fh.ref.mountId) (s.node fh.ref)) :
    Whole (s.kind fh.ref.mountId)
      (writeFile (s.kind fh.ref.mountId) fh (s.node fh.ref) src count e).2.2 := by
  have hlost : ∀ w < count, (e.chunk w).fs.lost = none := fun w hw => by
    rcases Nat.eq_zero_or_pos w with rfl | hpos
    · exact htold.kept
    · exact WriteChunk.lost_of_refuses (htold.late w hpos hw)
  have hloop := writeLoop_whole src hlost htold.whole htold.fits count 0 (s.node fh.ref)
    (Nat.zero_le _) hwhole htold.gap
  unfold writeFile
  split
  · exact hwhole
  split
  · exact hwhole
  split
  · exact hwhole
  dsimp only
  rw [show fh.positioned.offset.toNat = fh.start.toNat from rfl]
  split
  next heq =>
    rw [heq] at hloop
    exact hloop
  next heq =>
    rw [heq] at hloop
    exact hloop

/-- What a write does to the handle and the file that know of each other. -/
theorem writeFile_told (src : Buf) {s : IoSys} {t fd : Nat} {e : WriteCall}
    (htold : WriteTold s t fd fh count e) (hwhole : Whole (s.kind fh.ref.mountId) (s.node fh.ref))
    (hsize : fh.size.toNat = (s.node fh.ref).size) :
    let out := writeFile (s.kind fh.ref.mountId) fh (s.node fh.ref) src count e
    out.2.1.ref = fh.ref ∧ out.2.1.size.toNat = out.2.2.size ∧
      Whole (s.kind fh.ref.mountId) out.2.2 ∧
      (fh.start.toNat + count ≤ (s.node fh.ref).size → out.2.2.size = (s.node fh.ref).size) ∧
      out.2.2.contents =
        overwrite (s.node fh.ref).contents fh.start.toNat ((List.range out.1.toNat).map src) := by
  have hkeep := writeFile_whole src htold hwhole
  have hzero : ∀ kind, kind = s.kind fh.ref.mountId → kind = .ext3 → count ≠ 0 →
      (writeFile (s.kind fh.ref.mountId) fh (s.node fh.ref) src count e).1 ≠ 0 := by
    rintro kind hk rfl hcount
    rw [← hk]
    exact writeFile_ext3_ne_zero hcount
  have hout := writeFile_outcome (s.kind fh.ref.mountId) fh (s.node fh.ref) src count e
  generalize writeFile (s.kind fh.ref.mountId) fh (s.node fh.ref) src count e = out
    at hkeep hzero hout ⊢
  obtain ⟨ret, fh', node'⟩ := out
  dsimp only at hkeep hzero hout ⊢
  cases hout with
  | error hneg =>
    rw [show ret.toNat = 0 by omega]
    exact ⟨rfl, hsize, hwhole, fun _ => rfl, rfl⟩
  | nothing => exact ⟨rfl, hsize, hwhole, fun _ => rfl, rfl⟩
  | @returned w _ hlt hrefuses hleft =>
    obtain rfl := left_at_first htold.late hlt hrefuses
    obtain rfl : node' = s.node fh.ref := by
      rcases hleft rfl with h | h
      · exact h
      · rw [htold.kept] at h
        cases h
    exact ⟨FileHandle.positioned_ref, by rw [FileHandle.positioned_size, hsize], hwhole,
      fun _ => rfl, rfl⟩
  | @ended w _ hcount hle hstored =>
    have hfit : fh.start.toNat + w < 4294967296 := by
      have := htold.fits
      omega
    have hst := hstored hfit (.inr htold.whole)
    -- the file ends at the offset unless nothing was stored
    have hend : w = 0 → fh.start.toNat ≤ (s.node fh.ref).size := by
      intro hw
      cases hkind : s.kind fh.ref.mountId with
      | dufs => exact htold.gap hkind
      | ext3 => exact absurd (by rw [hw]; rfl) (hzero _ rfl hkind hcount)
    have hnode : node'.size = max (s.node fh.ref).size (fh.start.toNat + w) := by
      rw [hst.size]
      split
      next hw =>
        omega
      · rfl
    refine ⟨FileHandle.positioned_ref, ?_, hkeep, fun hin => by omega, hst.contents hwhole⟩
    rw [FileHandle.advance_size hfit, hsize, hnode]

end Writes

/-! ## Runs -/

/-- The changes of sizes are such that every handle of the file is told. -/
def IoOp.Told (s : IoSys) : IoOp → Prop
  | .write t fd _ count e => ∀ fh, s.handle t fd = some fh → WriteTold s t fd fh count e
  | .sendfile .. => False
  | .open _ ref writable _ trunc failed => trunc = true → writable = true →
    failed = none ∧ ((s.node ref).size ≠ 0 → s.Only ref fun _ _ => False)
  | .truncate ref length failed =>
    failed = none ∧ ((s.node ref).size ≠ length.toNat → s.Only ref fun _ _ => False)
  | .ftruncate t fd length failed => ∀ fh, s.handle t fd = some fh → fh.writable = true →
    failed = none ∧ ((s.node fh.ref).size ≠ length.toNat → s.Only fh.ref fun t' _ => t' = t)
  | _ => True

/-- What a call does to a file, as an array of bytes. -/
def IoOp.effect (s : IoSys) (op : IoOp) (ref : FileRef) (file : List UInt8) : List UInt8 :=
  match op with
  | .write t fd src _ _ =>
    match s.handle t fd with
    | some fh =>
      if fh.ref = ref then
        overwrite file (if fh.append then file.length else fh.offset.toNat)
          ((List.range (ioCall s op).1.ret.toNat).map src)
      else file
    | none => file
  | .open _ ref' writable _ trunc _ => if trunc ∧ writable ∧ ref' = ref then [] else file
  | .truncate ref' length _ => if ref' = ref then resized file length.toNat else file
  | .ftruncate t fd length _ =>
    match s.handle t fd with
    | some fh => if fh.writable ∧ fh.ref = ref then resized file length.toNat else file
    | none => file
  | _ => file

/-- The files are whole and every handle knows the size of its file. -/
structure Known (s : IoSys) : Prop where
  whole : ∀ ref, Whole (s.kind ref.mountId) (s.node ref)
  size : ∀ t fd fh, s.handle t fd = some fh → fh.size.toNat = (s.node fh.ref).size

section Steps

variable {s s' : IoSys} {t fd : Nat}

/-- The files are the same, and the handles have been there with their sizes. -/
theorem Known.quiet (h : Known s) (hkind : s'.kind = s.kind) (hnode : s'.node = s.node)
    (hhandle : ∀ t fd fh, s'.handle t fd = some fh → ∃ t' fd' fh', s.handle t' fd' = some fh' ∧
      fh.ref = fh'.ref ∧ fh.size = fh'.size) : Known s' := by
  refine ⟨fun ref => by rw [hkind, hnode]; exact h.whole ref, fun t fd fh hfh => ?_⟩
  obtain ⟨t', fd', fh', hfh', href, hsize⟩ := hhandle t fd fh hfh
  rw [hnode, href, hsize]
  exact h.size t' fd' fh' hfh'

/-- A file changes, and the handles on it know its size. -/
theorem Known.changed (h : Known s) {ref : FileRef} {node : Node} (hkind : s'.kind = s.kind)
    (hnode : s'.node = update s.node ref node) (hwhole : Whole (s.kind ref.mountId) node)
    (hhandle : ∀ t fd fh, s'.handle t fd = some fh →
      (fh.ref = ref ∧ fh.size.toNat = node.size) ∨
        (fh.ref = ref → (s.node ref).size = node.size) ∧ s.handle t fd = some fh) : Known s' := by
  refine ⟨fun r => ?_, fun t fd fh hfh => ?_⟩
  · rw [hkind, hnode]
    by_cases hr : r = ref
    · rw [hr, update_self]
      exact hwhole
    · rw [update_of_ne hr]
      exact h.whole r
  · rw [hnode]
    rcases hhandle t fd fh hfh with ⟨hr, hsize⟩ | ⟨hsame, hold⟩
    · rw [hr, update_self, hsize]
    · rw [h.size t fd fh hold]
      by_cases hr : fh.ref = ref
      · rw [hr, update_self, hsame hr]
      · rw [update_of_ne hr]

theorem Known.contents_resize (h : Known s) (ref ref' : FileRef) (n : Nat) :
    (update s.node ref ((s.node ref).resize n) ref').contents =
      if ref = ref' then Vfs.resized (s.node ref').contents n else (s.node ref').contents := by
  split
  next heq => rw [← heq, update_self, (h.whole ref).resize_contents]
  next hne => rw [update_of_ne (Ne.symm hne)]

theorem Known.write (h : Known s) {fh : FileHandle} {src : Buf} {count : Nat} {e : WriteCall}
    (hfh : s.handle t fd = some fh) (htold : WriteTold s t fd fh count e) :
    Known (ioStep s (.write t fd src count e)) ∧
      ∀ ref, ((ioStep s (.write t fd src count e)).node ref).contents =
        (IoOp.write t fd src count e).effect s ref (s.node ref).contents := by
  have hsize := h.size t fd fh hfh
  obtain ⟨href', hsize', hwhole', hsame, hcontents⟩ :=
    writeFile_told src htold (h.whole fh.ref) hsize
  have hstart : fh.start.toNat =
      if fh.append then (s.node fh.ref).contents.length else fh.offset.toNat := by
    rw [Node.contents_length, ← hsize]
    unfold FileHandle.start FileHandle.positioned
    split <;> rfl
  unfold ioStep IoOp.effect
  rw [ioCall_write hfh]
  simp only [hfh]
  generalize writeFile (s.kind fh.ref.mountId) fh (s.node fh.ref) src count e = out
    at href' hsize' hwhole' hsame hcontents ⊢
  refine ⟨h.changed rfl rfl hwhole' fun t1 fd1 fh1 hfh1 => ?_, fun ref => ?_⟩
  · have hset : (s.setEntry t fd (.file out.2.1)).handle t1 fd1 = some fh1 := hfh1
    rcases IoSys.handle_setEntry_some hset with ⟨-, -, heq⟩ | ⟨hother, hold⟩
    · obtain rfl := Entry.file.inj heq
      exact .inl ⟨href', hsize'⟩
    · -- another handle of the file: it does not grow
      refine .inr ⟨fun hr => ?_, hold⟩
      by_cases hin : fh.start.toNat + count ≤ (s.node fh.ref).size
      · exact (hsame hin).symm
      · exact absurd (htold.alone (by omega) t1 fd1 fh1 hold hr) hother
  · show (update s.node fh.ref out.2.2 ref).contents = _
    split
    next hr => rw [← hr, update_self, hcontents, hstart]
    next hr => rw [update_of_ne (Ne.symm hr)]

theorem Known.openFile (h : Known s) {ref : FileRef} {writable append trunc : Bool}
    {failed : Option Node}
    (htold : (IoOp.open t ref writable append trunc failed).Told s) :
    Known (openFile s t ref writable append trunc failed).2 ∧
      ∀ ref', ((openFile s t ref writable append trunc failed).2.node ref').contents =
        if trunc ∧ writable ∧ ref = ref' then [] else (s.node ref').contents := by
  unfold Io.openFile
  cases trunc with
  | false =>
    simp only [Bool.false_eq_true, if_false, false_and]
    split
    · exact ⟨h, fun _ => rfl⟩
    next fd _ =>
      refine ⟨⟨h.whole, fun t1 fd1 fh hfh => ?_⟩, fun _ => rfl⟩
      rcases IoSys.handle_setEntry_some hfh with ⟨-, -, heq⟩ | ⟨-, hold⟩
      · obtain rfl := Entry.file.inj heq
        rw [UInt32.toNat_ofNat']
        exact Nat.mod_eq_of_lt (h.whole ref).fits
      · exact h.size t1 fd1 fh hold
  | true =>
    cases writable with
    | false => exact ⟨h, fun _ => rfl⟩
    | true =>
      obtain ⟨hfailed, hnone⟩ := htold rfl rfl
      have hold : ∀ t1 fd1 fh, s.handle t1 fd1 = some fh → fh.ref = ref → (s.node ref).size = 0 := by
        intro t1 fd1 fh hfh hr
        by_contra hne
        exact hnone hne t1 fd1 fh hfh hr
      have hwhole := (h.whole ref).resize (show 0 < 4294967296 by decide)
      have hcontents : ∀ ref', ((s.setNode ref ((s.node ref).resize 0)).node ref').contents =
          if ref = ref' then [] else (s.node ref').contents := by
        intro ref'
        refine (h.contents_resize ref ref' 0).trans ?_
        simp only [Vfs.resized, List.take_zero, Nat.zero_sub, List.replicate_zero, List.append_nil]
      simp only [hfailed, vfsTruncate, Bool.not_true, Bool.false_eq_true, if_true, if_false, true_and]
      split
      · exact ⟨h.changed rfl rfl hwhole fun t1 fd1 fh hfh =>
          .inr ⟨hold t1 fd1 fh hfh, hfh⟩, hcontents⟩
      next fd _ =>
        refine ⟨h.changed rfl rfl hwhole fun t1 fd1 fh hfh => ?_, hcontents⟩
        rcases IoSys.handle_setEntry_some hfh with ⟨-, -, heq⟩ | ⟨-, hsame⟩
        · obtain rfl := Entry.file.inj heq
          exact .inl ⟨rfl, rfl⟩
        · exact .inr ⟨hold t1 fd1 fh hsame, hsame⟩

theorem Known.truncateFd (h : Known s) {length : UInt32} {failed : Option Node}
    (htold : (IoOp.ftruncate t fd length failed).Told s) :
    Known (ioStep s (.ftruncate t fd length failed)) ∧
      ∀ ref, ((ioStep s (.ftruncate t fd length failed)).node ref).contents =
        (IoOp.ftruncate t fd length failed).effect s ref (s.node ref).contents := by
  have hstep : ioStep s (.ftruncate t fd length failed) = (Io.truncateFd s t fd length failed).2 := rfl
  rw [hstep]
  unfold Io.truncateFd
  cases hfh : s.handle t fd with
  | none =>
    have hsame : ∀ ref, (s.node ref).contents =
        (IoOp.ftruncate t fd length failed).effect s ref (s.node ref).contents := fun ref => by
      simp only [IoOp.effect, hfh]
    split
    next fh hfile =>
      have hlt : ¬ fd < maxFds := by
        intro hlt
        exact absurd (hfh.symm.trans (handle_of_file hfile hlt)) (by simp)
      rw [if_pos (.inl (Nat.le_of_not_lt hlt))]
      exact ⟨h, hsame⟩
    · exact ⟨h, hsame⟩
  | some fh =>
    obtain ⟨hfile, hlt⟩ := IoSys.handle_some hfh
    simp only [IoOp.effect, hfh]
    rw [hfile]
    dsimp only
    cases hw : fh.writable with
    | false =>
      rw [if_pos (.inr rfl)]
      simp only [Bool.false_eq_true, false_and, if_false]
      exact ⟨h, fun _ => trivial⟩
    | true =>
      obtain ⟨hfailed, hnone⟩ := htold fh hfh hw
      rw [if_neg (by simp only [Bool.not_true, Bool.false_eq_true, or_false]; omega), hfailed]
      simp only [vfsTruncate, true_and]
      refine ⟨h.changed rfl rfl ((h.whole fh.ref).resize length.toNat_lt) fun t1 fd1 fh1 hfh1 => ?_,
        fun ref => h.contents_resize fh.ref ref length.toNat⟩
      rcases handle_refreshed hfh1 with ⟨hr, hsize, -⟩ | ⟨hother, hold⟩
      · exact .inl ⟨hr, congrArg UInt32.toNat hsize⟩
      · refine .inr ⟨fun hr => ?_, hold⟩
        -- a handle of another table
        by_contra hne
        exact hother (hnone hne t1 fd1 fh1 hold hr) hr

/-- One call: the handles still know the sizes, and the files have changed as arrays do. -/
theorem Known.step (h : Known s) {op : IoOp} (hop : op.Told s) : Known (ioStep s op) ∧
      ∀ ref, ((ioStep s op).node ref).contents = op.effect s ref (s.node ref).contents := by
  have hquiet : ∀ op : IoOp, op.Quiet → op.byFd = true → (∀ ref file, op.effect s ref file = file) →
      Known (ioStep s op) ∧
        ∀ ref, ((ioStep s op).node ref).contents = op.effect s ref (s.node ref).contents := by
    intro op hq hfd heff
    obtain ⟨hnode, hkind⟩ := IoOp.Quiet.keeps hq
    refine ⟨h.quiet hkind hnode fun t fd fh hfh => ?_, fun ref => by rw [hnode, heff]⟩
    obtain ⟨fh', hfh', hstems⟩ := ioStep_source hfd hfh
    exact ⟨_, _, fh', hfh', hstems.ref, hstems.size hq⟩
  cases op with
  | read | lseek | dup | dup2 | setfl | close | fork =>
    exact hquiet _ trivial rfl fun _ _ => rfl
  | write t fd src count e =>
    cases hfh : s.handle t fd with
    | none =>
      have hsame : ioStep s (.write t fd src count e) = s := by simp only [ioStep, ioCall, hfh]
      rw [hsame]
      exact ⟨h, fun ref => by simp only [IoOp.effect, hfh]⟩
    | some fh => exact h.write hfh (hop fh hfh)
  | sendfile => exact absurd hop id
  | «open» t ref writable append trunc failed => exact h.openFile hop
  | truncate ref length failed =>
    obtain ⟨hfailed, hnone⟩ := hop
    have hstep : ioStep s (.truncate ref length failed) =
        s.setNode ref ((s.node ref).resize length.toNat) := by
      simp only [ioStep, ioCall, truncatePath, vfsTruncate, hfailed]
    rw [hstep]
    refine ⟨h.changed rfl rfl ((h.whole ref).resize length.toNat_lt) fun t1 fd1 fh hfh => ?_,
      fun ref' => h.contents_resize ref ref' length.toNat⟩
    refine .inr ⟨fun hr => ?_, hfh⟩
    by_contra hne
    exact hnone hne t1 fd1 fh hfh hr
  | ftruncate t fd length failed => exact h.truncateFd hop

end Steps

/-- A handle that knows the size of a whole file sees everything. -/
theorem Known.sees {s : IoSys} (h : Known s) {t fd : Nat} {fh : FileHandle}
    (hfh : s.handle t fd = some fh) (hsized : ¬ (s.node fh.ref).TooLarge (s.kind fh.ref.mountId))
    (count : Nat) : fh.Sees (s.kind fh.ref.mountId) (s.node fh.ref) count := by
  refine ⟨?_, fun hkind i hi => (h.whole fh.ref).mapped hkind _ (by omega),
    fun hlarge => absurd hlarge hsized⟩
  rw [h.size t fd fh hfh]
  exact Nat.min_le_right _ _

/-- In every run in which the handles of a file are told of every change of its size, the files
change as arrays of bytes do, every read delivers the window of the array at its offset, and
every seek from the end starts at the end of the array. In any state at all, a read delivers this
if and only if its handle sees the bytes, and a seek from the end does so if and only if its
handle knows the size. -/
theorem one_content (s : IoSys) :
    (∀ s₀ : IoSys, (∀ t fd, s₀.handle t fd = none) →
      (∀ ref, Whole (s₀.kind ref.mountId) (s₀.node ref)) →
      Reach ioStep (fun s op => op.Told s) s₀ s →
      (∀ t fd fh, s.handle t fd = some fh →
        (∀ count e, e.Clean → ¬ (s.node fh.ref).TooLarge (s.kind fh.ref.mountId) →
          (ioCall s (.read t fd count e)).1.got =
              window (s.node fh.ref).contents fh.offset.toNat count ∧
            (ioCall s (.read t fd count e)).1.ret = (ioCall s (.read t fd count e)).1.got.length) ∧
        ∀ offset : Int, 0 ≤ (s.node fh.ref).size + offset →
          (s.node fh.ref).size + offset ≤ 4294967295 →
          (ioCall s (.lseek t fd offset 2)).1.ret = (s.node fh.ref).size + offset) ∧
      ∀ op : IoOp, op.Told s →
        ∀ ref, ((ioStep s op).node ref).contents = op.effect s ref (s.node ref).contents) ∧
    ∀ (t fd : Nat) (fh : FileHandle), s.handle t fd = some fh →
      (s.node fh.ref).size < 4294967296 →
      (∀ count e, e.Clean →
        ((ioCall s (.read t fd count e)).1.got =
            window (s.node fh.ref).contents fh.offset.toNat count ↔
          fh.Sees (s.kind fh.ref.mountId) (s.node fh.ref) count)) ∧
      ∀ offset : Int, 0 ≤ (s.node fh.ref).size + offset →
        (s.node fh.ref).size + offset ≤ 4294967295 →
        ((ioCall s (.lseek t fd offset 2)).1.ret = (s.node fh.ref).size + offset ↔
          fh.size.toNat = (s.node fh.ref).size) := by
  refine ⟨fun s₀ hnone hwhole hrun => ?_, fun t fd fh hfh hfits => ?_⟩
  · have hknown : Known s := hrun.inv Known
      ⟨hwhole, fun t fd fh hfh => absurd ((hnone t fd).symm.trans hfh) (by simp)⟩
      fun _ _ h hop => (h.step hop).1
    refine ⟨fun t fd fh hfh => ⟨fun count e hclean hsized => ?_, fun offset hpos hmax => ?_⟩,
      fun op hop => (hknown.step hop).2⟩
    · exact ⟨(read_iff hfh (hknown.whole fh.ref).fits hclean).mpr (hknown.sees hfh hsized count),
        read_ret hfh hclean hsized⟩
    · exact (seek_end_iff hfh hpos hmax).mpr (hknown.size t fd fh hfh)
  · exact ⟨fun count e hclean => read_iff hfh hfits hclean,
      fun offset hpos hmax => seek_end_iff hfh hpos hmax⟩

theorem whole_empty (kind : FsKind) : Whole kind Node.empty :=
  ⟨by decide, fun _ _ => rfl, fun _ p hp => absurd hp (Nat.not_lt_zero p)⟩

theorem ReadCall.clean_default : ReadCall.Clean {} :=
  ⟨rfl, fun _ => rfl, fun _ => rfl, fun _ => rfl, fun _ _ => rfl⟩

/-- One process writes, and then another one opens the file and reads it. -/
theorem one_content_opened_after :
    ∃ s fh, Reach ioStep (fun s op => op.Told s) emptyFile s ∧ s.handle 1 0 = some fh ∧
      (ioCall s (.read 1 0 5 {})).1.got = window (s.node fh.ref).contents fh.offset.toNat 5 ∧
      (ioCall s (.read 1 0 5 {})).1.got = [7, 7, 7] := by
  have hwrite : (IoOp.write 0 0 (fun _ => 7) 3 {}).Told
      (ioStep emptyFile (.open 0 ⟨1, 12⟩ true false false none)) := by
    rw [show ioStep emptyFile (.open 0 ⟨1, 12⟩ true false false none) =
      emptyFile.setEntry 0 0 (.file ⟨⟨1, 12⟩, true, false, 0, 0⟩) from rfl]
    intro fh hfh
    rw [IoSys.handle_setEntry (by decide)] at hfh
    cases hfh
    refine ⟨by decide, fun _ _ _ => rfl, rfl, fun _ _ => rfl, nofun, ?_⟩
    intro _ t fd fh hfh _
    rcases IoSys.handle_setEntry_some hfh with ⟨ht, hfd, -⟩ | ⟨-, hold⟩
    · exact ⟨ht, hfd⟩
    · exact absurd hold (by simp [IoSys.handle, emptyFile])
  have hopen : ∀ t w s, (IoOp.open t ⟨1, 12⟩ w false false none).Told s := fun _ _ _ => nofun
  have hrun : Reach ioStep (fun s op => op.Told s) emptyFile _ :=
    .step _ (.step _ (.step _ .start (hopen 0 true _)) hwrite) (hopen 1 false _)
  refine ⟨_, ⟨⟨1, 12⟩, false, false, 3, 0⟩, hrun, by decide +kernel, ?_, by decide +kernel⟩
  exact ((((one_content _).1 _ (fun _ _ => rfl) (fun _ => whole_empty _) hrun).1 1 0 _
    (by decide +kernel)).1 5 {} ReadCall.clean_default fun h => absurd h.2 (by decide +kernel)).1

/-- Two processes open a file and one of them writes 3 bytes: the other one reads nothing, and
finds the end of the file at 0. -/
theorem second_reads_nothing :
    ∃ s, Reach ioStep (fun _ _ => True) emptyFile s ∧ (s.node ⟨1, 12⟩).contents = [7, 7, 7] ∧
      s.handle 1 0 = some ⟨⟨1, 12⟩, true, true, 0, 0⟩ ∧
      (ioCall s (.read 1 0 3 {})).1.got = [] ∧ (ioCall s (.lseek 1 0 0 2)).1.ret = 0 :=
  ⟨ioStep openedTwice (.write 0 0 (fun _ => 7) 3 {}),
    .step _ (.step _ (.step _ .start trivial) trivial) trivial,
    by decide +kernel, by decide +kernel, by decide +kernel, by decide +kernel⟩

end Drunix.Io
