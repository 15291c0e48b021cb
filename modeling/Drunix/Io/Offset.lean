import Drunix.Io.Files

/-!
# The offset law

A call of `read`, `write` or `sendfile64` that returns `r` moves the descriptor by `r` bytes,
and those are the bytes that it has transferred; one that returns an error moves nothing
(`ReadLaw`, `WriteLaw`, `SendLaw`).

This is so for calls that nothing interrupts after the first chunk (`offset_law`). The loops
leave by `return` where a chunk fails, with the count of the chunks before it and before the
statement that moves the descriptor: after such a write the next one overwrites what this one
has written (`write_stays_behind`). Four more things are not covered. A write with `O_APPEND`
sets the offset before its first chunk, and does not set it back. Offsets are `uint32_t`, so that
a write which reaches 2 ^ 32 goes on at the start of the file. A read of ext3 that does not find a
block delivers zeros for it. And where DUFS fails in a block, it may have changed bytes of it that
it does not count.
-/

namespace Drunix.Io

open Lib Vfs Function
open Proc (maxFds ebadf einval)

theorem toNat_add_ofNat {a : UInt32} {n : Nat} (h : a.toNat + n < 4294967296) :
    (a + UInt32.ofNat n).toNat = a.toNat + n := by
  rw [UInt32.toNat_add, UInt32.toNat_ofNat']
  omega

/-! ## write -/

/-- What a write should do. -/
structure WriteLaw (fh : FileHandle) (node : Node) (src : Buf) (count : Nat) (ret : Int)
    (fh' : FileHandle) (node' : Node) : Prop where
  error : ret < 0 → fh'.offset = fh.offset ∧ node'.size = node.size
  moved : ∀ r : Nat, ret = r →
    fh'.offset.toNat = (if count = 0 then fh.offset else fh.start).toNat + r
  stored : ∀ r : Nat, ret = r → Stored node fh.start.toNat src r node'

/-- Nothing interrupts the write after its first chunk, and if something does so at the first
chunk then there is no offset to set and no size to lose; no block is torn, and the write does
not reach the end of the offsets. -/
structure WriteClean (kind : FsKind) (fh : FileHandle) (node : Node) (count : Nat) (e : WriteCall) :
    Prop where
  fits : fh.start.toNat + count < 4294967296
  late : ∀ w, 0 < w → w < count → (e.chunk w).refuses kind = false
  first : (e.chunk 0).refuses kind = true → (fh.append = true → fh.offset = fh.size) ∧
    ∀ left, (e.chunk 0).fs.lost = some left → left.size = node.size
  whole : ∀ w < count, (e.chunk w).fs.tears kind = false

theorem FileHandle.positioned_offset {fh : FileHandle} (h : fh.append = true → fh.offset = fh.size) :
    fh.positioned.offset = fh.offset := by
  unfold FileHandle.positioned
  split
  next ha => exact (h ha).symm
  · rfl

theorem FileHandle.advance_offset {fh : FileHandle} {n : Nat}
    (h : fh.start.toNat + n < 4294967296) :
    (fh.positioned.advance n).offset.toNat = fh.start.toNat + n := toNat_add_ofNat h

theorem writeFile_law {kind : FsKind} {fh : FileHandle} {node : Node} (src : Buf) {count : Nat}
    {e : WriteCall} (hclean : WriteClean kind fh node count e) :
    WriteLaw fh node src count (writeFile kind fh node src count e).1
      (writeFile kind fh node src count e).2.1 (writeFile kind fh node src count e).2.2 := by
  have hout := writeFile_outcome kind fh node src count e
  generalize (writeFile kind fh node src count e).1 = ret at hout ⊢
  generalize (writeFile kind fh node src count e).2.1 = fh' at hout ⊢
  generalize (writeFile kind fh node src count e).2.2 = node' at hout ⊢
  cases hout with
  | error hneg =>
    exact ⟨fun _ => ⟨rfl, rfl⟩, fun r h => absurd hneg (by omega), fun r h => absurd hneg (by omega)⟩
  | nothing hz =>
    refine ⟨fun _ => ⟨rfl, rfl⟩, fun r h => ?_, fun r h => ?_⟩
    · rw [if_pos hz, show r = 0 by omega, Nat.add_zero]
    · rw [show r = 0 by omega]
      exact Stored.zero
  | @returned w _ hlt hrefuses hleft =>
    obtain rfl := left_at_first hclean.late hlt hrefuses
    obtain ⟨happend, hlost⟩ := hclean.first hrefuses
    rw [if_pos rfl]
    refine ⟨fun _ => ⟨FileHandle.positioned_offset happend, ?_⟩, fun r h => absurd h (by omega),
      fun r h => absurd h (by omega)⟩
    rcases hleft rfl with h | h
    · rw [h]
    · exact hlost _ h
  | @ended w _ hz hle hstored =>
    have hfit : fh.start.toNat + w < 4294967296 :=
      lt_of_le_of_lt (Nat.add_le_add_left hle _) hclean.fits
    refine ⟨fun h => absurd h (by omega), fun r h => ?_, fun r h => ?_⟩
    · rw [if_neg hz, show r = w by omega]
      exact FileHandle.advance_offset hfit
    · rw [show r = w by omega]
      exact hstored hfit (.inr hclean.whole)

/-! ## read -/

/-- What a read should do. -/
structure ReadLaw (fh : FileHandle) (node : Node) (ret : Int) (got : List UInt8) (fh' : FileHandle) :
    Prop where
  error : ret < 0 → fh'.offset = fh.offset
  moved : ∀ r : Nat, ret = r → fh'.offset.toNat = fh.offset.toNat + r
  got : ∀ r : Nat, ret = r → got = node.bytes fh.offset.toNat r

/-- Nothing interrupts the read after its first chunk, and it finds all blocks. -/
structure ReadClean (kind : FsKind) (count : Nat) (e : ReadCall) : Prop where
  late : ∀ w, 0 < w → w < count → (e.chunk w).refuses kind = false
  found : ∀ w < count, (e.chunk w).fs.Finds kind

theorem readFile_law {kind : FsKind} (fh : FileHandle) (node : Node) {count : Nat} {e : ReadCall}
    (hclean : ReadClean kind count e) :
    ReadLaw fh node (readFile kind fh node count e).1 (readFile kind fh node count e).2.1
      (readFile kind fh node count e).2.2 := by
  have hout := readFile_outcome kind fh node count e
  generalize (readFile kind fh node count e).1 = ret at hout ⊢
  generalize (readFile kind fh node count e).2.1 = got at hout ⊢
  generalize (readFile kind fh node count e).2.2 = fh' at hout ⊢
  cases hout with
  | error => exact ⟨fun _ => rfl, fun r h => absurd h (by omega), fun r h => absurd h (by omega)⟩
  | nothing =>
    refine ⟨fun _ => rfl, fun r h => ?_, fun r h => ?_⟩
    · rw [show r = 0 by omega, Nat.add_zero]
    · rw [show r = 0 by omega]
      rfl
  | returned hlt hrefuses =>
    rw [if_pos (left_at_first hclean.late hlt hrefuses)]
    exact ⟨fun _ => rfl, fun r h => absurd h (by omega), fun r h => absurd h (by omega)⟩
  | ended hle hgot =>
    refine ⟨fun h => absurd h (by omega), fun r h => ?_, fun r h => ?_⟩
    · rw [show r = got.length by omega]
      exact toNat_add_ofNat (lt_of_le_of_lt hle fh.size.toNat_lt)
    · rw [show r = got.length by omega]
      exact hgot hclean.found

/-! ## sendfile64 -/

/-- A chunk that makes `sendfile64` return from inside the loop. -/
def SendChunk.refuses (kind : Nat → FsKind) (inRef : FileRef) (out : Entry) (c : SendChunk) : Bool :=
  c.read.refused || (kind inRef.mountId == .ext3 && c.read.upTo == some 0) ||
    match out with
    | .file o =>
      c.write.refused || c.write.lost.isSome ||
        (kind o.ref.mountId == .ext3 && c.write.upTo == some 0)
    | _ => !c.console

/-- The positions while `sendfile64` runs, from offset `pos` on. The offset of the file that is
written to is set when something is to be written, and not before. -/
structure SendPos (pos : UInt32) (out : Entry) (st : SendState) : Prop where
  readOff : st.readOff.toNat = pos.toNat + st.copied
  console : (∀ o, out ≠ .file o) → st.out = out
  file : ∀ o, out = .file o → ∃ o', st.out = .file o' ∧ o'.ref = o.ref ∧ o'.append = o.append ∧
    o'.start.toNat = o.start.toNat + st.copied ∧
    (o'.offset.toNat = o.start.toNat + st.copied ∨ st.copied = 0 ∧ o'.offset = o.offset)

/-- The files while `sendfile64` runs, and what is on the console. -/
structure SendData (node : FileRef → Node) (inRef : FileRef) (pos : UInt32) (out : Entry)
    (st : SendState) : Prop where
  console : (∀ o, out ≠ .file o) →
    st.node = node ∧ st.shown = (node inRef).bytes pos.toNat st.copied
  frame : ∀ o, out = .file o → ∀ ref, ref ≠ o.ref → st.node ref = node ref
  stored : ∀ o, out = .file o → inRef ≠ o.ref → Stored (node o.ref) o.start.toNat
    (fun i => (node inRef).data (pos.toNat + i)) st.copied (st.node o.ref)
  sizes : st.copied = 0 → ∀ ref, (st.node ref).size = (node ref).size

section Handles

variable {fh : FileHandle} {n : Nat}

theorem FileHandle.positioned_start : fh.positioned.start = fh.start := by
  unfold FileHandle.start FileHandle.positioned
  split <;> rfl

theorem FileHandle.positioned_ref : fh.positioned.ref = fh.ref := by
  unfold FileHandle.positioned
  split <;> rfl

theorem FileHandle.positioned_append : fh.positioned.append = fh.append := by
  unfold FileHandle.positioned
  split <;> rfl

/-- The next write starts where this one ends, with `O_APPEND` or without. -/
theorem FileHandle.advance_start (h : fh.start.toNat + n < 4294967296) :
    (fh.positioned.advance n).start.toNat = fh.start.toNat + n := by
  have hoff := FileHandle.advance_offset h
  by_cases ha : fh.append = true
  · have hpos : fh.positioned = { fh with offset := fh.size } := if_pos ha
    have hstart : fh.start = fh.size := congrArg FileHandle.offset hpos
    have hnext : (fh.positioned.advance n).start = (fh.positioned.advance n).size := by
      rw [hpos]
      exact congrArg FileHandle.offset (if_pos ha)
    rw [hnext]
    rw [hstart] at hoff h ⊢
    rw [hpos] at hoff ⊢
    show (if fh.size < fh.size + UInt32.ofNat n then fh.size + UInt32.ofNat n else fh.size).toNat = _
    split
    · exact hoff
    next hle =>
      have := UInt32.le_iff_toNat_le.mp (UInt32.not_lt.mp hle)
      rw [show (fh.size + UInt32.ofNat n).toNat = fh.size.toNat + n from hoff] at this
      omega
  · have hpos : fh.positioned = fh := if_neg ha
    have hnext : (fh.positioned.advance n).start = (fh.positioned.advance n).offset := by
      rw [hpos]
      exact congrArg FileHandle.offset (if_neg ha)
    rw [hnext, hoff]

end Handles

variable {src : Buf} {o' : FileHandle} {r : Nat}

section Send

variable {kind : Nat → FsKind} {inRef : FileRef} {size : UInt32} {count : Nat} {e : Nat → SendChunk}
  {node : FileRef → Node} {pos : UInt32} {out : Entry} {o : FileHandle} {st : SendState}

/-- The offset of the file that is written to is set. -/
theorem SendPos.positioned (h : SendPos pos (.file o) st)
    (ho' : st.out = .file o') (nodes : FileRef → Node) :
    SendPos pos (.file o) { st with out := .file o'.positioned, node := nodes } := by
  obtain ⟨o1, ho1, href, happend, hstart, -⟩ := h.file o rfl
  obtain rfl : o1 = o' := by simpa using ho1.symm.trans ho'
  refine ⟨h.readOff, fun hno => absurd rfl (hno o), ?_⟩
  rintro _ ⟨⟩
  refine ⟨_, rfl, FileHandle.positioned_ref.trans href, FileHandle.positioned_append.trans happend,
    ?_, .inl hstart⟩
  rw [FileHandle.positioned_start]
  exact hstart

/-- `n` bytes are written. -/
theorem SendPos.written (h : SendPos pos (.file o) st) (ho' : st.out = .file o')
    (nodes : FileRef → Node) {n : Nat} (hread : st.readOff.toNat + n < 4294967296)
    (hfit : o.start.toNat + (st.copied + n) < 4294967296) :
    SendPos pos (.file o)
      { st with
        copied := st.copied + n, readOff := st.readOff + UInt32.ofNat n,
        out := .file (o'.positioned.advance n), node := nodes } := by
  obtain ⟨o1, ho1, href, happend, hstart, -⟩ := h.file o rfl
  obtain rfl : o1 = o' := by simpa using ho1.symm.trans ho'
  refine ⟨?_, fun hno => absurd rfl (hno o), ?_⟩
  · show (st.readOff + UInt32.ofNat n).toNat = pos.toNat + (st.copied + n)
    rw [toNat_add_ofNat hread, h.readOff, Nat.add_assoc]
  · rintro _ ⟨⟩
    have hfit' : o1.start.toNat + n < 4294967296 := by omega
    refine ⟨_, rfl, FileHandle.positioned_ref.trans href,
      FileHandle.positioned_append.trans happend, ?_, .inl ?_⟩
    · rw [FileHandle.advance_start hfit', hstart, Nat.add_assoc]
    · rw [FileHandle.advance_offset hfit', hstart, Nat.add_assoc]

/-- What `n` bytes written do to the files. -/
theorem SendData.written (h : SendData node inRef pos (.file o) st)
    (hpos : SendPos pos (.file o) st) (ho' : st.out = .file o') {count n : Nat} {w : WriteEnv}
    {node' : Node}
    (hw : vfsWrite (kind o'.positioned.ref.mountId) (st.node o'.positioned.ref)
      o'.positioned.offset.toNat (fun i => (st.node inRef).data (st.readOff.toNat + i)) count w =
      (some n, node')) (hwhole : w.tears (kind o.ref.mountId) = false)
    (hfit : o.start.toNat + (st.copied + n) < 4294967296) (readOff : UInt32) (entry : Entry) :
    SendData node inRef pos (.file o)
      { st with
        copied := st.copied + n, readOff := readOff, out := entry,
        node := update st.node o'.positioned.ref node' } := by
  obtain ⟨o1, ho1, href, -, hstart, -⟩ := hpos.file o rfl
  obtain rfl : o1 = o' := by simpa using ho1.symm.trans ho'
  rw [FileHandle.positioned_ref, href] at hw ⊢
  refine ⟨fun hno => absurd rfl (hno o), ?_, ?_, fun hzero ref => ?_⟩
  · rintro _ ⟨⟩ ref hne
    exact (update_of_ne hne ..).trans (h.frame o rfl ref hne)
  · rintro _ ⟨⟩ hne
    show Stored _ _ _ _ (update st.node o.ref node' o.ref)
    rw [update_self]
    have hw' : vfsWrite (kind o.ref.mountId) (st.node o.ref) (u32 (o.start.toNat + st.copied))
        (fun i => (node inRef).data (pos.toNat + (st.copied + i))) count w = (some n, node') := by
      rw [u32_of_lt (by omega), ← hstart]
      rw [h.frame o rfl inRef hne, hpos.readOff] at hw
      simp only [Nat.add_assoc] at hw
      exact hw
    exact (h.stored o rfl hne).chunk hw' (.inr hwhole) hfit
  · -- no byte is written
    obtain ⟨hc, rfl⟩ : st.copied = 0 ∧ n = 0 := Nat.add_eq_zero_iff.mp hzero
    show (update st.node o.ref node' ref).size = _
    by_cases hr : ref = o.ref
    · rw [hr, update_self, (vfsWrite_some hw).2.1, Node.store_zero]
      exact h.sizes hc o.ref
    · rw [update_of_ne hr]
      exact h.sizes hc ref

/-- A write that ends before the largest offset leaves a file that can be read. -/
theorem vfsWrite_sized {kind kind' : FsKind} {node node' : Node} {off count n : Nat} {w : WriteEnv}
    (hw : vfsWrite kind node off src count w = (some n, node')) (hfit : off + n < ext3NoSize)
    (h : ¬ node.TooLarge kind') : ¬ node'.TooLarge kind' := by
  rintro ⟨hk, hsize⟩
  refine h ⟨hk, ?_⟩
  rw [(vfsWrite_some hw).2.1] at hsize
  by_cases hn : n = 0
  · rw [hn, Node.store_zero] at hsize
    exact hsize
  · unfold ext3NoSize at *
    rw [Node.store_size _ _ (by omega) hn] at hsize
    omega

/-- A write to one file, perhaps the same, leaves the other one readable. -/
theorem sized_written {kind : FsKind} {ref inRef : FileRef} {nodes : FileRef → Node} {node' : Node}
    {off n len : Nat} {w : WriteEnv} {kind' : FsKind}
    (hw : vfsWrite kind (nodes ref) off src len w = (some n, node')) (hfit : off + n < ext3NoSize)
    (h : ¬ (nodes inRef).TooLarge kind') : ¬ (update nodes ref node' inRef).TooLarge kind' := by
  by_cases hself : inRef = ref
  · rw [hself] at h ⊢
    rw [update_self]
    exact vfsWrite_sized hw hfit h
  · rwa [update_of_ne hself]

/-- A write that is refused leaves the sizes, if nothing was sent before, but for one that a lost
inode write has changed. -/
theorem SendData.refused (h : SendData node inRef pos (.file o) st) (hz : st.copied = 0) {left : Node}
    {w : WriteEnv} (hleft : left = st.node o.ref ∨ w.lost = some left) (ref : FileRef) :
    (update st.node o.ref left ref).size = (node ref).size ∨
      ref = o.ref ∧ w.lost = some (update st.node o.ref left ref) := by
  by_cases hne : ref = o.ref
  · rw [hne, update_self]
    rcases hleft with rfl | hlost
    · exact .inl (h.sizes hz o.ref)
    · exact .inr ⟨rfl, hlost⟩
  · rw [update_of_ne hne]
    exact .inl (h.sizes hz ref)

section Console

variable (hconsole : ∀ o, out ≠ .file o) {n : Nat}

include hconsole

/-- `n` bytes are shown. -/
theorem SendPos.shown (h : SendPos pos out st) (hread : st.readOff.toNat + n < 4294967296)
    (bytes : List UInt8) :
    SendPos pos out
      { st with copied := st.copied + n, readOff := st.readOff + UInt32.ofNat n, shown := bytes } := by
  refine ⟨?_, h.console, fun o ho => absurd ho (hconsole o)⟩
  show (st.readOff + UInt32.ofNat n).toNat = _
  rw [toNat_add_ofNat hread, h.readOff, Nat.add_assoc]

theorem SendData.shown (h : SendData node inRef pos out st) (hpos : SendPos pos out st) (hn : n ≠ 0)
    (readOff : UInt32) :
    SendData node inRef pos out
      { st with
        copied := st.copied + n, readOff := readOff,
        shown := st.shown ++ (st.node inRef).bytes st.readOff.toNat n } := by
  refine ⟨fun hno => ?_, h.frame, fun o ho => absurd ho (hconsole o),
    fun hzero => absurd hzero (show ¬ st.copied + n = 0 by omega)⟩
  obtain ⟨hnode, hshown⟩ := h.console hno
  refine ⟨hnode, ?_⟩
  show st.shown ++ (st.node inRef).bytes st.readOff.toNat n = _
  rw [hshown, hnode, hpos.readOff, ← Node.bytes_add]

end Console

/-- The loop of `sendfile64`: it returns at a chunk that is refused, or it ends. -/
theorem sendLoop_spec {kind : Nat → FsKind} (size : UInt32) {e : Nat → SendChunk}
    (hfit : ∀ o, out = .file o → o.start.toNat + count < 4294967296)
    (hfound : ∀ w < count, (e w).read.Finds (kind inRef.mountId))
    (hwhole : ∀ o, out = .file o → ∀ w < count, (e w).write.tears (kind o.ref.mountId) = false) :
    ∀ fuel st, count ≤ st.copied + fuel → st.copied ≤ count → SendPos pos out st →
    SendData node inRef pos out st →
    (st.copied < count → ¬ (st.node inRef).TooLarge (kind inRef.mountId)) →
    let r := sendLoop kind inRef size count e fuel st
    r.2.copied ≤ count ∧ SendPos pos out r.2 ∧ (r.1 = false → SendData node inRef pos out r.2) ∧
      (r.1 = true → r.2.copied < count ∧ (e r.2.copied).refuses kind inRef out = true ∧
        (r.2.copied = 0 → ∀ ref, (r.2.node ref).size = (node ref).size ∨
          ∃ o, out = .file o ∧ ref = o.ref ∧ (e 0).write.lost = some (r.2.node ref))) := by
  intro fuel
  induction fuel with
  | zero =>
    intro st _ hle hpos hdata _
    exact ⟨hle, hpos, fun _ => hdata, fun h => absurd h (by simp [sendLoop])⟩
  | succ fuel ih =>
    intro st hfuel hle hpos hdata hsized
    unfold sendLoop
    dsimp only
    split
    · exact ⟨hle, hpos, fun _ => hdata, fun hc => by cases hc⟩
    next hgo =>
    have hlt : st.copied < count := by omega
    have hin : st.readOff.toNat < size.toNat :=
      UInt32.lt_iff_toNat_lt.mp (UInt32.not_le.mp fun h => hgo (.inr h))
    have hsize := size.toNat_lt
    rw [Node.seen_eq (hfound st.copied hlt)]
    split
    next hr =>
      refine ⟨hle, hpos, (fun hc => by cases hc), fun _ => ⟨hlt, ?_, fun hz ref => ?_⟩⟩
      · rcases vfsRead_none hr with hlarge | h | ⟨hk, h⟩
        · exact absurd hlarge (hsized hlt)
        · simp [SendChunk.refuses, h]
        · simp [SendChunk.refuses, hk, h]
      · exact .inl (hdata.sizes hz ref)
    next n hr =>
    have hn := vfsRead_le hr
    split
    · exact ⟨hle, hpos, fun _ => hdata, fun hc => by cases hc⟩
    next hn0 =>
    have hread : ∀ m ≤ n, st.readOff.toNat + m < 4294967296 := by
      intro m hm
      omega
    split
    next o' ho' =>
      obtain ⟨o, rfl⟩ : ∃ o, out = .file o := by
        by_contra hno
        have hout := hpos.console fun o h => hno ⟨o, h⟩
        exact hno ⟨o', hout.symm.trans ho'⟩
      have hfit' := hfit o rfl
      obtain ⟨o1, ho1, href, -, hstart, -⟩ := hpos.file o rfl
      obtain rfl : o1 = o' := by simpa using ho1.symm.trans ho'
      split
      next left hw =>
        obtain ⟨hrefused, hleft⟩ := vfsWrite_none hn0 hw
        rw [FileHandle.positioned_ref, href] at hrefused hleft ⊢
        refine ⟨hle, hpos.positioned ho' _, (fun hc => by cases hc),
          fun _ => ⟨hlt, ?_, fun hz ref => ?_⟩⟩
        · rcases hrefused with h | h | ⟨hk, h⟩ <;> simp [SendChunk.refuses, h]
          simp [hk]
        · dsimp only at hz ⊢
          rw [hz] at hleft
          exact (hdata.refused hz hleft ref).imp_right fun hlost => ⟨o, rfl, hlost⟩
      next w node' hw =>
      have hwn := (vfsWrite_some hw).1
      split
      next hw0 =>
        subst hw0
        exact ⟨hle, hpos.positioned ho' _,
          fun _ => hdata.written hpos ho' hw (hwhole o rfl _ hlt) (by omega) st.readOff
            (.file o1.positioned), fun hc => by cases hc⟩
      next hw0 =>
      have hpos' := hpos.written ho' (update st.node o1.positioned.ref node')
        (hread w hwn) (show o.start.toNat + (st.copied + w) < 4294967296 by omega)
      have hdata' := hdata.written hpos ho' hw (hwhole o rfl _ hlt) (by omega)
        (st.readOff + UInt32.ofNat w) (.file (o1.positioned.advance w))
      have hsized' : st.copied + w < count →
          ¬ (update st.node o1.positioned.ref node' inRef).TooLarge (kind inRef.mountId) :=
        fun _ => sized_written hw (show o1.start.toNat + w < 4294967295 by omega) (hsized hlt)
      split
      · exact ⟨(by omega : st.copied + w ≤ count), hpos', fun _ => hdata',
          fun hc => by cases hc⟩
      exact ih _ (show count ≤ st.copied + w + fuel by omega)
        (show st.copied + w ≤ count by omega) hpos' hdata' hsized'
    next hout =>
    have hconsole : ∀ o, out ≠ .file o := by
      rintro o rfl
      obtain ⟨o', ho', -⟩ := hpos.file o rfl
      exact hout o' ho'
    split
    next hc =>
      refine ⟨hle, hpos, (fun hc => by cases hc), fun _ => ⟨hlt, ?_, fun hz ref => ?_⟩⟩
      · cases out with
        | file o => exact absurd rfl (hconsole o)
        | free | console | other => simp [SendChunk.refuses, hc]
      · exact .inl (hdata.sizes hz ref)
    have hpos' := hpos.shown hconsole (hread n (Nat.le_refl n))
      (st.shown ++ (st.node inRef).bytes st.readOff.toNat n)
    have hdata' := hdata.shown hconsole hpos hn0 (st.readOff + UInt32.ofNat n)
    split
    · exact ⟨(by omega : st.copied + n ≤ count), hpos', fun _ => hdata',
        fun hc => by cases hc⟩
    exact ih _ (show count ≤ st.copied + n + fuel by omega)
      (show st.copied + n ≤ count by omega) hpos' hdata' fun _ => hsized hlt

/-- What `sendfile64` should do, from the file of handle `fh`. -/
structure SendLaw (s : IoSys) (t outFd inFd : Nat) (fh : FileHandle) (ptr : Option SendPtr) (ret : Int)
    (ptr' : Option SendPtr) (shown : List UInt8) (s' : IoSys) : Prop where
  error : ret < 0 → ptr' = ptr ∧ (∀ ref, (s'.node ref).size = (s.node ref).size) ∧
    ∀ fd h, s.files t fd = .file h → ∃ h', s'.files t fd = .file h' ∧ h'.offset = h.offset
  moved : ∀ r : Nat, ret = r → ∃ pos, sendStart fh ptr = some pos ∧
    match ptr' with
    | some p => p.low.toNat = pos.toNat + r
    | none => ∃ h', s'.files t inFd = .file h' ∧ h'.offset.toNat = pos.toNat + r
  out : ∀ r : Nat, ret = r → ∀ o, s.files t outFd = .file o → ∃ o', s'.files t outFd = .file o' ∧
    (o'.offset.toNat = o.start.toNat + r ∨ r = 0 ∧ o'.offset = o.offset)
  stored : ∀ r : Nat, ret = r → ∀ o, s.files t outFd = .file o → fh.ref ≠ o.ref →
    ∃ pos, sendStart fh ptr = some pos ∧ Stored (s.node o.ref) o.start.toNat
      (fun i => (s.node fh.ref).data (pos.toNat + i)) r (s'.node o.ref)
  shown : ∀ r : Nat, ret = r → (∀ o, s.files t outFd ≠ .file o) →
    ∃ pos, sendStart fh ptr = some pos ∧ shown = (s.node fh.ref).bytes pos.toNat r

/-- Nothing interrupts `sendfile64` after its first chunk, as for `read` and `write`; and it has
two descriptors. -/
structure SendClean (s : IoSys) (t outFd inFd : Nat) (fh : FileHandle) (ptr : Option SendPtr)
    (count : Nat) (e : Nat → SendChunk) : Prop where
  apart : inFd ≠ outFd
  fits : ∀ o, s.files t outFd = .file o → o.start.toNat + count < 4294967296
  late : ∀ w, 0 < w → w < count → (e w).refuses s.kind fh.ref (s.files t outFd) = false
  first : (e 0).refuses s.kind fh.ref (s.files t outFd) = true → ∀ o, s.files t outFd = .file o →
    (o.append = true → o.offset = o.size) ∧
      ∀ left, (e 0).write.lost = some left → left.size = (s.node o.ref).size
  ptr : ∀ p, ptr = some p → p.writable = true
  sized : ¬ (s.node fh.ref).TooLarge (s.kind fh.ref.mountId)
  found : ∀ w < count, (e w).read.Finds (s.kind fh.ref.mountId)
  whole : ∀ o, s.files t outFd = .file o →
    ∀ w < count, (e w).write.tears (s.kind o.ref.mountId) = false

/-- Before the first chunk. -/
theorem sendStart_inv (pos : UInt32) (out : Entry) (node : FileRef → Node) (inRef : FileRef) :
    SendPos pos out { copied := 0, readOff := pos, out := out, node := node } ∧
      SendData node inRef pos out { copied := 0, readOff := pos, out := out, node := node } := by
  refine ⟨⟨rfl, fun _ => rfl, ?_⟩, ⟨fun _ => ⟨rfl, rfl⟩, fun _ _ _ _ => rfl,
    fun _ _ _ => Stored.zero, fun _ _ => rfl⟩⟩
  rintro o rfl
  exact ⟨o, rfl, rfl, rfl, rfl, .inr ⟨rfl, rfl⟩⟩

variable {s s' : IoSys} {t outFd inFd : Nat} {fh : FileHandle} {ptr : Option SendPtr}

/-- The table after the loop. -/
theorem SendPos.files_other (st : SendState) {fd : Nat} (h : fd ≠ outFd) :
    ({ s.setEntry t outFd st.out with node := st.node } : IoSys).files t fd = s.files t fd :=
  s.setEntry_ne st.out h

/-- A call that changes nothing and returns an error. -/
theorem SendLaw.unchanged {ret : Int} (hneg : ret < 0) :
    SendLaw s t outFd inFd fh ptr ret ptr [] s :=
  ⟨fun _ => ⟨rfl, fun _ => rfl, fun _ h hfile => ⟨h, hfile, rfl⟩⟩, fun r h => absurd hneg (by omega),
    fun r h => absurd hneg (by omega), fun r h => absurd hneg (by omega),
    fun r h => absurd hneg (by omega)⟩

/-- A loop that is left at its first chunk. -/
theorem SendLaw.returned (hclean : SendClean s t outFd inFd fh ptr count e)
    (hpos : SendPos pos (s.files t outFd) st) (hzero : st.copied = 0)
    (hrefuses : (e 0).refuses s.kind fh.ref (s.files t outFd) = true)
    (hsizes : ∀ ref, (st.node ref).size = (s.node ref).size ∨
      ∃ o, s.files t outFd = .file o ∧ ref = o.ref ∧ (e 0).write.lost = some (st.node ref)) :
    SendLaw s t outFd inFd fh ptr (-1) ptr st.shown
      { s.setEntry t outFd st.out with node := st.node } := by
  refine ⟨fun _ => ⟨rfl, fun ref => ?_, fun fd h hfile => ?_⟩, fun r h => absurd h (by omega),
    fun r h => absurd h (by omega), fun r h => absurd h (by omega), fun r h => absurd h (by omega)⟩
  · rcases hsizes ref with h | ⟨o, ho, rfl, hlost⟩
    · exact h
    · exact (hclean.first hrefuses o ho).2 _ hlost
  · by_cases hfd : fd = outFd
    · subst hfd
      obtain ⟨o', ho', -, -, -, hoff⟩ := hpos.file h hfile
      refine ⟨o', (s.setEntry_self t fd st.out).trans ho', ?_⟩
      have happend := (hclean.first hrefuses h hfile).1
      rcases hoff with hoff | ⟨-, hoff⟩
      · have hstart : h.start = h.offset := FileHandle.positioned_offset happend
        rw [hzero, hstart, Nat.add_zero] at hoff
        exact UInt32.toNat_inj.mp hoff
      · exact hoff
    · exact ⟨h, (SendPos.files_other st hfd).trans hfile, rfl⟩

/-- A loop that ends. -/
theorem SendLaw.ended {ptr' : Option SendPtr} (hstart : sendStart fh ptr = some pos)
    (hpos : SendPos pos (s.files t outFd) st) (hdata : SendData s.node fh.ref pos (s.files t outFd) st)
    (hfile : s'.files t outFd = st.out) (hnode : s'.node = st.node)
    (hmoved : match ptr' with
      | some p => p.low.toNat = pos.toNat + st.copied
      | none => ∃ h', s'.files t inFd = .file h' ∧ h'.offset.toNat = pos.toNat + st.copied) :
    SendLaw s t outFd inFd fh ptr st.copied ptr' st.shown s' := by
  refine ⟨fun h => absurd h (by omega), fun r h => ⟨pos, hstart, ?_⟩, fun r h o ho => ?_,
    fun r h o ho hne => ⟨pos, hstart, ?_⟩, fun r h hno => ⟨pos, hstart, ?_⟩⟩ <;>
    obtain rfl := Int.ofNat_inj.mp h
  · cases ptr' <;> exact hmoved
  · obtain ⟨o', ho', -, -, -, hoff⟩ := hpos.file o ho
    exact ⟨o', hfile.trans ho', hoff⟩
  · rw [hnode]
    exact hdata.stored o ho hne
  · exact (hdata.console hno).2

theorem sendfile64_law (hin : s.files t inFd = .file fh)
    (hclean : SendClean s t outFd inFd fh ptr count e) :
    SendLaw s t outFd inFd fh ptr (sendfile64 s t outFd inFd ptr count e).1
      (sendfile64 s t outFd inFd ptr count e).2.1 (sendfile64 s t outFd inFd ptr count e).2.2.1
      (sendfile64 s t outFd inFd ptr count e).2.2.2 := by
  unfold sendfile64
  simp only [hin]
  split
  · exact SendLaw.unchanged (show ebadf < 0 by decide)
  split
  · exact SendLaw.unchanged (show (-1 : Int) < 0 by decide)
  next pos hstart =>
  obtain ⟨hpos0, hdata0⟩ := sendStart_inv pos (s.files t outFd) s.node fh.ref
  have hspec := sendLoop_spec fh.size hclean.fits hclean.found hclean.whole count _
    (show count ≤ 0 + count by omega) (Nat.zero_le count) hpos0 hdata0 fun _ => hclean.sized
  generalize sendLoop s.kind fh.ref fh.size count e count
    { copied := 0, readOff := pos, out := s.files t outFd, node := s.node } = out at hspec ⊢
  obtain ⟨early, st⟩ := out
  obtain ⟨hle, hpos, hended, hearly⟩ := hspec
  cases early with
  | true =>
    obtain ⟨hlt, hrefuses, hsizes⟩ := hearly rfl
    have hzero : st.copied = 0 := left_at_first hclean.late hlt hrefuses
    rw [hzero] at hrefuses
    simp only [hzero, if_true]
    exact SendLaw.returned hclean hpos hzero hrefuses (hsizes hzero)
  | false =>
    have hdata := hended rfl
    have hother := SendPos.files_other (s := s) (t := t) st hclean.apart
    rw [hin] at hother
    simp only [Bool.false_eq_true, if_false]
    cases ptr with
    | some p =>
      simp only [hclean.ptr p rfl, Bool.not_true, Bool.false_eq_true, if_false]
      exact SendLaw.ended hstart hpos hdata (s.setEntry_self t outFd st.out) rfl hpos.readOff
    | none =>
      rw [hother]
      refine SendLaw.ended hstart hpos hdata ?_ rfl ⟨_, IoSys.setEntry_self .., hpos.readOff⟩
      exact (IoSys.setEntry_ne _ _ (Ne.symm hclean.apart)).trans (s.setEntry_self t outFd st.out)

end Send

/-! ## Calls, one after the other -/

/-- The condition on a call. -/
def IoOp.Clean (s : IoSys) : IoOp → Prop
  | .read t fd count e => ∀ fh, s.handle t fd = some fh → ReadClean (s.kind fh.ref.mountId) count e
  | .write t fd _ count e => ∀ fh, s.handle t fd = some fh →
    WriteClean (s.kind fh.ref.mountId) fh (s.node fh.ref) count e
  | .sendfile t outFd inFd ptr count e => ∀ fh, s.files t inFd = .file fh →
    SendClean s t outFd inFd fh ptr count e
  | _ => True

/-- What a call should do. -/
def IoOp.Obeys (s : IoSys) : IoOp → Prop
  | .read t fd count e => ∀ fh, s.handle t fd = some fh →
    ∃ fh', (ioStep s (.read t fd count e)).handle t fd = some fh' ∧
      ReadLaw fh (s.node fh.ref) (ioCall s (.read t fd count e)).1.ret
        (ioCall s (.read t fd count e)).1.got fh'
  | .write t fd src count e => ∀ fh, s.handle t fd = some fh →
    ∃ fh', (ioStep s (.write t fd src count e)).handle t fd = some fh' ∧
      WriteLaw fh (s.node fh.ref) src count (ioCall s (.write t fd src count e)).1.ret fh'
        ((ioStep s (.write t fd src count e)).node fh.ref)
  | .sendfile t outFd inFd ptr count e => ∀ fh, s.files t inFd = .file fh →
    SendLaw s t outFd inFd fh ptr (sendfile64 s t outFd inFd ptr count e).1
      (sendfile64 s t outFd inFd ptr count e).2.1 (sendfile64 s t outFd inFd ptr count e).2.2.1
      (sendfile64 s t outFd inFd ptr count e).2.2.2
  | _ => True

section Calls

variable {s : IoSys} {t fd : Nat} {fh fh' : FileHandle}

theorem IoOp.Clean.obeys {op : IoOp} (h : op.Clean s) : op.Obeys s := by
  cases op with
  | read t fd count e =>
    intro fh hfh
    refine ⟨(readFile (s.kind fh.ref.mountId) fh (s.node fh.ref) count e).2.2, ?_, ?_⟩
    · rw [ioStep, ioCall_read hfh]
      exact IoSys.handle_setEntry (IoSys.handle_some hfh).2 _
    · rw [ioCall_read hfh]
      exact readFile_law _ _ (h fh hfh)
  | write t fd src count e =>
    intro fh hfh
    refine ⟨(writeFile (s.kind fh.ref.mountId) fh (s.node fh.ref) src count e).2.1, ?_, ?_⟩
    · rw [ioStep, ioCall_write hfh]
      exact IoSys.handle_setEntry (IoSys.handle_some hfh).2 _
    · rw [ioStep, ioCall_write hfh]
      show WriteLaw fh _ src count _ _ (update s.node fh.ref _ fh.ref)
      rw [update_self]
      exact writeFile_law _ (h fh hfh)
  | sendfile t outFd inFd ptr count e =>
    intro fh hfh
    exact sendfile64_law hfh (h fh hfh)
  | lseek | dup | dup2 | setfl | close | fork | «open» | truncate | ftruncate => trivial

end Calls

/-- Reads through one handle, one after the other, all of which succeed: the bytes they
deliver. -/
inductive Reads (kind : FsKind) (node : Node) : FileHandle → List UInt8 → FileHandle → Prop where
  | none (fh : FileHandle) : Reads kind node fh [] fh
  | read {fh fh' : FileHandle} {got : List UInt8} (count : Nat) (e : ReadCall)
      (hclean : ReadClean kind count e) (hret : 0 ≤ (readFile kind fh node count e).1)
      (hrest : Reads kind node (readFile kind fh node count e).2.2 got fh') :
      Reads kind node fh ((readFile kind fh node count e).2.1 ++ got) fh'

/-- Writes through one handle, one after the other, all of which succeed: the bytes that they
say they have written. -/
inductive Writes (kind : FsKind) : FileHandle → Node → List UInt8 → FileHandle → Node → Prop where
  | none (fh : FileHandle) (node : Node) : Writes kind fh node [] fh node
  | write {fh fh' : FileHandle} {node node' : Node} {put : List UInt8} (src : Buf) (count : Nat)
      (e : WriteCall) (hclean : WriteClean kind fh node count e) (r : Nat)
      (hret : (writeFile kind fh node src count e).1 = r)
      (hrest : Writes kind (writeFile kind fh node src count e).2.1
        (writeFile kind fh node src count e).2.2 put fh' node') :
      Writes kind fh node ((List.range r).map src ++ put) fh' node'

section Sequences

variable {kind : FsKind} {fh fh' : FileHandle} {node node' : Node} {moved : List UInt8}

/-- Consecutive reads deliver consecutive bytes. -/
theorem Reads.consecutive (h : Reads kind node fh moved fh') :
    moved = node.bytes fh.offset.toNat moved.length ∧
      fh'.offset.toNat = fh.offset.toNat + moved.length := by
  induction h with
  | none => exact ⟨rfl, rfl⟩
  | @read fh fh' got count e hclean hret hrest ih =>
    have hlaw := readFile_law fh node hclean
    obtain ⟨r, hr⟩ := Int.eq_ofNat_of_zero_le hret
    obtain ⟨hgot, hoff⟩ := ih
    have hfirst := hlaw.got r hr
    have hmoved := hlaw.moved r hr
    rw [hmoved] at hgot hoff
    have hlen : (readFile kind fh node count e).2.1.length = r := by
      rw [hfirst, Node.length_bytes]
    constructor
    · rw [List.length_append, hlen, Node.bytes_add, ← hgot, ← hfirst]
    · rw [hoff, List.length_append, hlen]
      omega

theorem Stored.bytes {off : Nat} (h : Stored node off src r node') :
    node'.bytes off r = (List.range r).map src := by
  refine List.map_congr_left fun i hi => ?_
  rw [h.data, memcpy_add (List.mem_range.mp hi)]

/-- The bytes before those that are stored stay. -/
theorem Stored.bytes_before {off lo n : Nat} (h : Stored node off src r node')
    (hlo : lo + n ≤ off) : node'.bytes lo n = node.bytes lo n :=
  Node.bytes_congr fun i hi => by rw [h.data, memcpy_out (by omega)]

/-- Where the next write starts, after one that returns `r`. -/
theorem WriteClean.start {count : Nat} {e : WriteCall} (hclean : WriteClean kind fh node count e)
    (hret : (writeFile kind fh node src count e).1 = r) :
    (writeFile kind fh node src count e).2.1.start.toNat = fh.start.toNat + r := by
  have hout := writeFile_outcome kind fh node src count e
  generalize (writeFile kind fh node src count e).2.1 = fh' at hout ⊢
  generalize (writeFile kind fh node src count e).2.2 = node' at hout
  rw [hret] at hout
  generalize hr : (r : Int) = ret at hout
  cases hout with
  | error hneg => exact absurd hneg (by omega)
  | nothing hz => rw [show r = 0 by omega, Nat.add_zero]
  | @returned w _ hlt hrefuses hleft =>
    rw [if_pos (left_at_first hclean.late hlt hrefuses)] at hr
    exact absurd hr (by omega)
  | @ended w _ hz hle hstored =>
    rw [show r = w by omega]
    exact FileHandle.advance_start (lt_of_le_of_lt (Nat.add_le_add_left hle _) hclean.fits)

/-- Consecutive writes do not overwrite each other, and change nothing before them. -/
theorem Writes.consecutive (h : Writes kind fh node moved fh' node') :
    node'.bytes fh.start.toNat moved.length = moved ∧
      fh'.start.toNat = fh.start.toNat + moved.length ∧
      ∀ lo n, lo + n ≤ fh.start.toNat → node'.bytes lo n = node.bytes lo n := by
  induction h with
  | none => exact ⟨rfl, rfl, fun _ _ _ => rfl⟩
  | @write fh fh' node node' put src count e hclean r hret hrest ih =>
    obtain ⟨hput, hoff, hbefore⟩ := ih
    have hstored := (writeFile_law src hclean).stored r hret
    have hstart := hclean.start hret
    rw [hstart] at hput hoff hbefore
    have hlen : ((List.range r).map src ++ put).length = r + put.length := by simp
    refine ⟨?_, by rw [hoff, hlen, Nat.add_assoc], fun lo n hlo => ?_⟩
    · rw [hlen, Node.bytes_add, hput, hbefore _ _ le_rfl, hstored.bytes]
    · rw [hbefore lo n (by omega)]
      exact hstored.bytes_before hlo

end Sequences

/-- In every sequence of calls that meet the condition, every call obeys the law; consecutive
reads deliver consecutive bytes of the file, and consecutive writes are one after the other in
it. -/
theorem offset_law (s₀ : IoSys) :
    (∀ s, Reach ioStep (fun s op => op.Clean s) s₀ s → ∀ op : IoOp, op.Clean s → op.Obeys s) ∧
    (∀ kind node fh got fh', Reads kind node fh got fh' →
      got = node.bytes fh.offset.toNat got.length ∧
        fh'.offset.toNat = fh.offset.toNat + got.length) ∧
    ∀ kind fh node put fh' node', Writes kind fh node put fh' node' →
      node'.bytes fh.start.toNat put.length = put ∧
        fh'.start.toNat = fh.start.toNat + put.length ∧
        ∀ lo n, lo + n ≤ fh.start.toNat → node'.bytes lo n = node.bytes lo n :=
  ⟨fun _ _ _ hop => hop.obeys, fun _ _ _ _ _ h => h.consecutive,
    fun _ _ _ _ _ _ h => h.consecutive⟩

/-- A process with one descriptor, at the end of a file of 512 bytes on ext3. -/
def oneFile : IoSys where
  kind := fun _ => .ext3
  node := fun _ => { Node.empty with size := 512 }
  files := fun _ fd =>
    if fd = 0 then .file
      { ref := ⟨1, 12⟩, writable := true, append := false, size := 512, offset := 512 }
    else .free

/-- Two writes of 3 bytes, with no failure. -/
theorem offset_law_two_writes :
    (IoOp.write 0 0 (fun _ => 7) 3 {}).Clean oneFile ∧
      (IoOp.write 0 0 (fun _ => 7) 3 {}).Obeys oneFile ∧
      (ioStep oneFile (.write 0 0 (fun _ => 7) 3 {})).handle 0 0 =
        some { ref := ⟨1, 12⟩, writable := true, append := false, size := 515, offset := 515 } := by
  have hclean : (IoOp.write 0 0 (fun _ => 7) 3 {}).Clean oneFile := by
    intro fh hfh
    obtain rfl := Option.some.inj (hfh.symm.trans (show oneFile.handle 0 0 = some
      { ref := ⟨1, 12⟩, writable := true, append := false, size := 512, offset := 512 } by decide))
    exact ⟨by decide, fun _ _ _ => rfl, nofun, fun _ _ => rfl⟩
  exact ⟨hclean, (offset_law oneFile).1 oneFile .start _ hclean, by decide +kernel⟩

/-- A write of 1024 bytes whose second chunk finds no free block, where blocks have 1024 bytes and
the first chunk ends in the one that the file has: it says that 512 bytes are written and stays
where it was, and the next write goes over them. -/
theorem write_stays_behind :
    let full : WriteCall := { chunk := fun w => if w = 512 then { fs := { upTo := some 0 } } else {} }
    let op : IoOp := .write 0 0 (fun _ => 7) 1024 full
    let s := ioStep oneFile op
    let s' := ioStep s (.write 0 0 (fun _ => 9) 1 {})
    (ioCall oneFile op).1.ret = 512 ∧ s.handle 0 0 = oneFile.handle 0 0 ∧
      (s.node ⟨1, 12⟩).data 512 = 7 ∧ (s'.node ⟨1, 12⟩).data 512 = 9 ∧ ¬ op.Obeys oneFile := by
  have hret : (ioCall oneFile (.write 0 0 (fun _ => 7) 1024
      { chunk := fun w => if w = 512 then { fs := { upTo := some 0 } } else {} })).1.ret = (512 : Nat) := by
    decide +kernel
  have hhandle : (ioStep oneFile (.write 0 0 (fun _ => 7) 1024
      { chunk := fun w => if w = 512 then { fs := { upTo := some 0 } } else {} })).handle 0 0 =
      oneFile.handle 0 0 := by decide +kernel
  refine ⟨hret, hhandle, by decide +kernel, by decide +kernel, fun hobeys => ?_⟩
  have hfh : oneFile.handle 0 0 = some
      { ref := ⟨1, 12⟩, writable := true, append := false, size := 512, offset := 512 } := by decide
  obtain ⟨fh', hfh', hlaw⟩ := hobeys _ hfh
  have hmoved := hlaw.moved 512 hret
  rw [hhandle] at hfh'
  obtain rfl := Option.some.inj (hfh'.symm.trans hfh)
  cases hmoved

end Drunix.Io
