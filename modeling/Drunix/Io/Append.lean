import Drunix.Io.Offset

/-!
# Appending

Descriptors that are open with `O_APPEND` on one file, in any tables: opened one by one, copied
by `dup`, `dup2` and `fcntl`, inherited by `fork`. If all their writes return their full counts,
the file should be what it was, and then the buffers in the order of the calls.

A write with `O_APPEND` starts at the size in its handle, which is that of the file when the
handle was opened or copied, and of what was written through this very handle since. So the
buffers are kept as long as every write is made through a handle that has seen the last one
(`appends_kept`), and a write through another one goes over the buffers in between
(`append_overwrites`).
-/

namespace Drunix.Io

open Lib Vfs Function
open Proc (maxFds)

/-- The calls that change no file. -/
def IoOp.Quiet : IoOp → Prop
  | .read .. | .lseek .. | .dup .. | .dup2 .. | .setfl .. | .close .. | .fork .. => True
  | .open _ _ _ _ trunc _ => trunc = false
  | _ => False

/-- Calls on the file `ref` from `s` on: writes through descriptors with `O_APPEND`, which return
their full counts and put the bytes `put` there, and calls that change no file. The writes meet
`ok`, a condition on the handle, the file and the count. -/
inductive AppendRun (ok : FileHandle → Node → Nat → Prop) (ref : FileRef) (s : IoSys) :
    List UInt8 → IoSys → Prop where
  | start : AppendRun ok ref s [] s
  | quiet {put : List UInt8} {s' : IoSys} (op : IoOp) (hop : op.Quiet)
      (hrun : AppendRun ok ref s put s') : AppendRun ok ref s put (ioStep s' op)
  | write {put : List UInt8} {s' : IoSys} {t fd : Nat} {fh : FileHandle} (src : Buf) (count : Nat)
      (e : WriteCall) (hfh : s'.handle t fd = some fh) (href : fh.ref = ref)
      (happend : fh.append = true) (hfull : (ioCall s' (.write t fd src count e)).1.ret = count)
      (hok : ok fh (s'.node ref) count) (hrun : AppendRun ok ref s put s') :
      AppendRun ok ref s (put ++ (List.range count).map src) (ioStep s' (.write t fd src count e))

/-- The handle knows the size of the file, and there is room. -/
def Appends (fh : FileHandle) (node : Node) (count : Nat) : Prop :=
  fh.size.toNat = node.size ∧ node.size + count < 4294967296

instance (fh : FileHandle) (node : Node) (count : Nat) : Decidable (Appends fh node count) :=
  inferInstanceAs (Decidable (_ ∧ _))

section Append

variable {s : IoSys} {kind : FsKind} {fh : FileHandle} {node node' : Node} {src : Buf} {count : Nat}
  {e : WriteCall}

theorem IoOp.Quiet.keeps {op : IoOp} (h : op.Quiet) :
    (ioStep s op).node = s.node ∧ (ioStep s op).kind = s.kind := by
  cases op with
  | read t fd count e | lseek t fd offset whence | setfl t fd append =>
    simp only [ioStep, ioCall]
    split <;> exact ⟨rfl, rfl⟩
  | dup t oldfd minfd =>
    rw [ioStep_dup]
    rcases fdDuplicateFrom_cases s t oldfd minfd with hnone | ⟨fd, -, hsome⟩
    · rw [hnone]
      exact ⟨rfl, rfl⟩
    · rw [hsome]
      exact ⟨rfl, rfl⟩
  | dup2 t oldfd newfd =>
    simp only [ioStep, ioCall, syscallDup2]
    split
    · exact ⟨rfl, rfl⟩
    split <;> exact ⟨rfl, rfl⟩
  | close t fd =>
    simp only [ioStep, ioCall]
    split <;> exact ⟨rfl, rfl⟩
  | fork t child => exact ⟨rfl, rfl⟩
  | «open» t ref writable append trunc failed =>
    obtain rfl : trunc = false := h
    simp only [ioStep, ioCall, openFile, Bool.false_eq_true, if_false]
    split <;> exact ⟨rfl, rfl⟩
  | write | sendfile | truncate | ftruncate => exact absurd h id

theorem FileHandle.start_append (h : fh.append = true) : fh.start = fh.size :=
  congrArg FileHandle.offset (if_pos h)

/-- A write that returns its full count has stored the buffer. -/
theorem writeFile_full (hcount : count ≠ 0) (hfull : (writeFile kind fh node src count e).1 = count)
    (hfit : fh.start.toNat + count < 4294967296) :
    Stored node fh.start.toNat src count (writeFile kind fh node src count e).2.2 := by
  have hout := writeFile_outcome kind fh node src count e
  generalize (writeFile kind fh node src count e).2.1 = fh' at hout
  generalize (writeFile kind fh node src count e).2.2 = node' at hout ⊢
  rw [hfull] at hout
  generalize hret : (count : Int) = ret at hout
  cases hout with
  | error hneg => exact absurd hneg (by omega)
  | nothing hz => exact absurd hz hcount
  | @returned w _ hlt _ _ =>
    split at hret
    · exact absurd hret (by omega)
    · exact absurd hlt (by omega)
  | @ended w _ _ hle hstored =>
    obtain rfl : w = count := by omega
    exact hstored hfit (.inl rfl)

theorem writeFile_zero : (writeFile kind fh node src 0 e).2.2 = node := by
  unfold writeFile
  split <;> rfl

/-- Bytes that are stored at the end of a file. -/
theorem Stored.contents_append (h : Stored node node.size src count node') :
    node'.contents = node.contents ++ (List.range count).map src := by
  have hsize : node'.size = node.size + count := by
    rw [h.size]
    split
    · omega
    · omega
  unfold Node.contents
  rw [hsize, Node.bytes_add, Nat.zero_add, h.bytes, h.bytes_before (by omega)]

/-- Where stored bytes are an extension of the file, they are at its end. -/
theorem Stored.eq_size {off : Nat} (h : Stored node off src count node') (hcount : count ≠ 0)
    (heq : node'.contents = node.contents ++ (List.range count).map src) : off = node.size := by
  have hlen := congrArg List.length heq
  simp only [Node.contents, Node.length_bytes, List.length_append, List.length_map,
    List.length_range, h.size, if_neg hcount] at hlen
  omega

/-- One write appends its buffer if and only if the handle knows the size of the file. -/
theorem append_iff {t fd : Nat} (hfh : s.handle t fd = some fh) (happend : fh.append = true)
    (hcount : count ≠ 0) (hfull : (ioCall s (.write t fd src count e)).1.ret = count)
    (hfit : fh.size.toNat + count < 4294967296) :
    ((ioStep s (.write t fd src count e)).node fh.ref).contents =
        (s.node fh.ref).contents ++ (List.range count).map src ↔
      fh.size.toNat = (s.node fh.ref).size := by
  rw [ioCall_write hfh] at hfull
  have hstart := FileHandle.start_append happend
  have hstored := writeFile_full hcount hfull (by rw [hstart]; exact hfit)
  rw [hstart] at hstored
  have hnode : (ioStep s (.write t fd src count e)).node fh.ref =
      (writeFile (s.kind fh.ref.mountId) fh (s.node fh.ref) src count e).2.2 := by
    rw [ioStep, ioCall_write hfh]
    exact update_self ..
  rw [hnode]
  constructor
  · exact hstored.eq_size hcount
  · intro heq
    rw [heq] at hstored
    exact hstored.contents_append

/-- A run whose writes all know the size of the file keeps every buffer. -/
theorem AppendRun.contents {ref : FileRef} {put : List UInt8} {s' : IoSys}
    (h : AppendRun Appends ref s put s') : (s'.node ref).contents = (s.node ref).contents ++ put := by
  induction h with
  | start => rw [List.append_nil]
  | quiet op hop _ ih => rw [(IoOp.Quiet.keeps hop).1, ih]
  | @write put s' t fd fh src count e hfh href happend hfull hok _ ih =>
    subst href
    obtain ⟨hsize, hfit⟩ := hok
    rw [← List.append_assoc, ← ih]
    by_cases hcount : count = 0
    · subst hcount
      rw [ioStep, ioCall_write hfh]
      show (update s'.node fh.ref _ fh.ref).contents = _
      rw [update_self, writeFile_zero]
      exact (List.append_nil _).symm
    · exact (append_iff hfh happend hcount hfull (by rw [hsize]; exact hfit)).mpr hsize

end Append

/-- In every run whose writes are made through handles that know the size of the file, the file
is its old contents and then all buffers; and a single write appends its buffer if and only if
its handle knows that size. -/
theorem appends_kept (ref : FileRef) (s : IoSys) :
    (∀ put s', AppendRun Appends ref s put s' →
      (s'.node ref).contents = (s.node ref).contents ++ put) ∧
    ∀ t fd fh src count e, s.handle t fd = some fh → fh.append = true → count ≠ 0 →
      (ioCall s (.write t fd src count e)).1.ret = (count : Int) →
      fh.size.toNat + count < 4294967296 →
      (((ioStep s (.write t fd src count e)).node fh.ref).contents =
          (s.node fh.ref).contents ++ (List.range count).map src ↔
        fh.size.toNat = (s.node fh.ref).size) :=
  ⟨fun _ _ h => h.contents, fun _ _ _ _ _ _ hfh happend hcount hfull hfit =>
    append_iff hfh happend hcount hfull hfit⟩

/-- An empty file on ext3, and no descriptors. -/
def emptyFile : IoSys where
  kind := fun _ => .ext3
  node := fun _ => Node.empty
  files := fun _ _ => .free

/-- Two processes open the file with `O_APPEND`. -/
def openedTwice : IoSys :=
  ioStep (ioStep emptyFile (.open 0 ⟨1, 12⟩ true true false none)) (.open 1 ⟨1, 12⟩ true true false none)

/-- The first write, through one of the descriptors. -/
theorem openedTwice_written {ok : FileHandle → Node → Nat → Prop}
    (hok : ok ⟨⟨1, 12⟩, true, true, 0, 0⟩ (openedTwice.node ⟨1, 12⟩) 1) :
    AppendRun ok ⟨1, 12⟩ emptyFile [1] (ioStep openedTwice (.write 0 0 (fun _ => 1) 1 {})) :=
  .write (fun _ => 1) 1 {} (show _ = some ⟨⟨1, 12⟩, true, true, 0, 0⟩ by decide +kernel) rfl rfl
    (by decide +kernel) hok (.quiet _ rfl (.quiet _ rfl .start))

/-- Two writes through one of the descriptors. -/
theorem appends_kept_one_writer :
    let write (b : UInt8) (s : IoSys) := ioStep s (.write 0 0 (fun _ => b) 1 {})
    AppendRun Appends ⟨1, 12⟩ emptyFile [1, 2] (write 2 (write 1 openedTwice)) ∧
      ((write 2 (write 1 openedTwice)).node ⟨1, 12⟩).contents = [1, 2] := by
  have hrun : AppendRun Appends ⟨1, 12⟩ emptyFile [1, 2]
      (ioStep (ioStep openedTwice (.write 0 0 (fun _ => 1) 1 {})) (.write 0 0 (fun _ => 2) 1 {})) :=
    .write (fun _ => 2) 1 {} (show _ = some ⟨⟨1, 12⟩, true, true, 1, 1⟩ by decide +kernel) rfl rfl
      (by decide +kernel) (by decide +kernel) (openedTwice_written (by decide +kernel))
  exact ⟨hrun, (appends_kept _ _).1 _ _ hrun⟩

/-- One write through each of the descriptors: the second goes over the first. -/
theorem append_overwrites :
    ∃ s', AppendRun (fun _ _ _ => True) ⟨1, 12⟩ emptyFile [1, 2] s' ∧
      (s'.node ⟨1, 12⟩).contents = [2] ∧
      (s'.node ⟨1, 12⟩).contents ≠ (emptyFile.node ⟨1, 12⟩).contents ++ [1, 2] := by
  have hsecond : AppendRun (fun _ _ _ => True) ⟨1, 12⟩ emptyFile [1, 2]
      (ioStep (ioStep openedTwice (.write 0 0 (fun _ => 1) 1 {})) (.write 1 0 (fun _ => 2) 1 {})) :=
    .write (fun _ => 2) 1 {} (show _ = some ⟨⟨1, 12⟩, true, true, 0, 0⟩ by decide +kernel) rfl rfl
      (by decide +kernel) trivial (openedTwice_written trivial)
  exact ⟨_, hsecond, by decide +kernel, by decide +kernel⟩

end Drunix.Io
