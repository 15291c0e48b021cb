import Drunix.Proc.Fd
import Drunix.Vfs.Node

/-!
# Descriptors of regular files

The calls on descriptors of regular files: `read`, `write` and `sendfile64`
(`proc/syscall/fd.c`), `lseek`, `dup`, `dup2` and `fcntl` (`fd_control.c`), `open`
(`vfs/open.c`), `truncate` and `ftruncate` (`vfs/mutation.c`), and the copy of a table that
`fork` makes (`proc/resources.c`).

A handle has the number of its file, and a position and a size of its own. The size is that of
the file at the time of `open`; it follows what is written through the handle, and `ftruncate`
in the same table. Transfers go in chunks of 512 bytes. `writeLoop_spec` and `readLoop_spec`
say what the loops do, and everything about the calls is proved from these two.

Mirroring notes:
- What may fail is an argument of the call, by the number of bytes that are done: the copies
  from and to user memory (`copy`), the file system (`fs`), and the look at the whole buffer
  before the first chunk (`prepare`).
- `open` and `truncate` have the file that their path resolves to.
- What `sendfile64` has put on the console is in its reply (`shown`).
- `Entry.other` stands for the descriptors of neither regular files nor the console. `sendfile64`
  also takes files of procfs and sysfs, which are left out.
- `llseek` is `lseek` with a 64-bit offset; that its result may not be stored is left out.
- The flags `cloexec` and `nonblock` do not matter here.
-/

namespace Drunix.Io

open Lib Vfs Function
open Proc (maxFds userIoChunk ebadf einval)

/-- `vfs_file_ref_t`. -/
structure FileRef where
  mountId : Nat
  inodeNum : Nat
deriving DecidableEq

/-- `file_handle_t`, of a regular file. -/
structure FileHandle where
  ref : FileRef
  writable : Bool
  append : Bool
  size : UInt32
  offset : UInt32
deriving DecidableEq

/-- An entry of `open_files`. -/
inductive Entry where
  | free
  | file (fh : FileHandle)
  | console
  | other
deriving DecidableEq

/-- `open_files`. -/
abbrev Files := Nat → Entry

/-- The mounted file systems, their files, and the descriptor tables. -/
structure IoSys where
  kind : Nat → FsKind
  node : FileRef → Node
  files : Nat → Files

/-- A table gets a new entry. -/
def IoSys.setEntry (s : IoSys) (t fd : Nat) (e : Entry) : IoSys :=
  { s with files := update s.files t (update (s.files t) fd e) }

/-- A file changes. -/
def IoSys.setNode (s : IoSys) (ref : FileRef) (node : Node) : IoSys :=
  { s with node := update s.node ref node }

/-! ## write -/

/-- What happens to one chunk of a write. -/
structure WriteChunk where
  copy : Bool := true
  fs : WriteEnv := {}

/-- What happens to a write. -/
structure WriteCall where
  prepare : Bool := true
  chunk : Nat → WriteChunk := fun _ => {}

/-- The loop of `syscall_write_fd`: whether it is left by `return`, and the bytes written. -/
def writeLoop (kind : FsKind) (off : Nat) (src : Buf) (count : Nat) (e : Nat → WriteChunk) :
    Nat → Nat → Node → Bool × Nat × Node
  | 0, written, node => (false, written, node)
  | fuel + 1, written, node =>
    if count ≤ written then (false, written, node)
    else
      let chunk := min (count - written) userIoChunk
      if !(e written).copy then (true, written, node)
      else
        match vfsWrite kind node (u32 (off + written)) (fun i => src (written + i)) chunk
            (e written).fs with
        | (none, node) => (true, written, node)
        | (some n, node) =>
          if n < chunk then (false, written + n, node)
          else writeLoop kind off src count e fuel (written + n) node

/-- The handle when a write starts. -/
def FileHandle.positioned (fh : FileHandle) : FileHandle :=
  if fh.append then { fh with offset := fh.size } else fh

/-- The handle after `n` bytes are written. -/
def FileHandle.advance (fh : FileHandle) (n : Nat) : FileHandle :=
  let offset := fh.offset + UInt32.ofNat n
  { fh with offset := offset, size := if fh.size < offset then offset else fh.size }

/-- `syscall_write_fd`, for a regular file. -/
def writeFile (kind : FsKind) (fh : FileHandle) (node : Node) (src : Buf) (count : Nat)
    (e : WriteCall) : Int × FileHandle × Node :=
  if !fh.writable then (ebadf, fh, node)
  else if count = 0 then (0, fh, node)
  else if !e.prepare then (-1, fh, node)
  else
    let fh := fh.positioned
    match writeLoop kind fh.offset.toNat src count e.chunk count 0 node with
    | (true, written, node) => (if written = 0 then -1 else written, fh, node)
    | (false, written, node) => (written, fh.advance written, node)

/-! ## read -/

/-- What happens to one chunk of a read. -/
structure ReadChunk where
  fs : ReadEnv := {}
  copy : Bool := true

/-- What happens to a read. -/
structure ReadCall where
  prepare : Bool := true
  chunk : Nat → ReadChunk := fun _ => {}

/-- The loop of `syscall_read_fd`: whether it is left by `return`, and the bytes that the user
has got. -/
def readLoop (kind : FsKind) (node : Node) (off toRead : Nat) (e : Nat → ReadChunk) :
    Nat → List UInt8 → Bool × List UInt8
  | 0, got => (false, got)
  | fuel + 1, got =>
    if toRead ≤ got.length then (false, got)
    else
      let chunk := min (toRead - got.length) userIoChunk
      let pos := u32 (off + got.length)
      match vfsRead kind node pos chunk (e got.length).fs with
      | none => (true, got)
      | some n =>
        if n = 0 then (false, got)
        else if !(e got.length).copy then (true, got)
        else
          let got' := got ++ (node.seen kind (e got.length).fs).bytes pos n
          if n < chunk then (false, got') else readLoop kind node off toRead e fuel got'

/-- `syscall_read_fd`, for a regular file. -/
def readFile (kind : FsKind) (fh : FileHandle) (node : Node) (count : Nat) (e : ReadCall) :
    Int × List UInt8 × FileHandle :=
  if count = 0 then (0, [], fh)
  else if fh.size ≤ fh.offset then (0, [], fh)
  else
    let toRead := min count (fh.size.toNat - fh.offset.toNat)
    if !e.prepare then (-1, [], fh)
    else
      match readLoop kind node fh.offset.toNat toRead e.chunk toRead [] with
      | (true, got) => (if got.length = 0 then -1 else got.length, got, fh)
      | (false, got) =>
        (got.length, got, { fh with offset := fh.offset + UInt32.ofNat got.length })

/-! ## lseek -/

/-- `syscall_seek_handle`, for a regular file. -/
def seekHandle (fh : FileHandle) (offset : Int) (whence : Nat) : Int × FileHandle :=
  let base : Option Int :=
    match whence with
    | 0 => some 0
    | 1 => some fh.offset.toNat
    | 2 => some fh.size.toNat
    | _ => none
  match base with
  | none => (einval, fh)
  | some base =>
    if base + offset < 0 ∨ 4294967295 < base + offset then (-1, fh)
    else (base + offset, { fh with offset := UInt32.ofNat (base + offset).toNat })

/-! ## sendfile64 -/

/-- What happens to one chunk of `sendfile64`. -/
structure SendChunk where
  read : ReadEnv := {}
  write : WriteEnv := {}
  console : Bool := true

/-- The two words at the offset pointer, and whether they can be read and written. -/
structure SendPtr where
  low : UInt32
  high : UInt32
  readable : Bool := true
  writable : Bool := true

/-- What the loop of `syscall_sendfile64` changes, and the bytes that are on the console. -/
structure SendState where
  copied : Nat
  readOff : UInt32
  out : Entry
  node : FileRef → Node
  shown : List UInt8 := []

/-- The loop of `syscall_sendfile64`: whether it is left by `return`, and what it has done. -/
def sendLoop (kind : Nat → FsKind) (inRef : FileRef) (size : UInt32) (count : Nat)
    (e : Nat → SendChunk) : Nat → SendState → Bool × SendState
  | 0, st => (false, st)
  | fuel + 1, st =>
    if count ≤ st.copied ∨ size ≤ st.readOff then (false, st)
    else
      let chunk := min (min (count - st.copied) userIoChunk) (size.toNat - st.readOff.toNat)
      match vfsRead (kind inRef.mountId) (st.node inRef) st.readOff.toNat chunk
          (e st.copied).read with
      | none => (true, st)
      | some n =>
        if n = 0 then (false, st)
        else
          let kbuf := (st.node inRef).seen (kind inRef.mountId) (e st.copied).read
          match st.out with
          | .file out =>
            let out := out.positioned
            match vfsWrite (kind out.ref.mountId) (st.node out.ref) out.offset.toNat
                (fun i => kbuf.data (st.readOff.toNat + i)) n (e st.copied).write with
            | (none, node) => (true, { st with out := .file out, node := update st.node out.ref node })
            | (some written, node) =>
              if written = 0 then
                (false, { st with out := .file out, node := update st.node out.ref node })
              else
                let st :=
                  { st with
                    copied := st.copied + written
                    readOff := st.readOff + UInt32.ofNat written
                    out := .file (out.advance written)
                    node := update st.node out.ref node }
                if written < n ∨ n < chunk then (false, st)
                else sendLoop kind inRef size count e fuel st
          | _ =>
            if !(e st.copied).console then (true, st)
            else
              let st :=
                { st with
                  copied := st.copied + n
                  readOff := st.readOff + UInt32.ofNat n
                  shown := st.shown ++ kbuf.bytes st.readOff.toNat n }
              if n < chunk then (false, st) else sendLoop kind inRef size count e fuel st

/-- The console, and files that are open for writing. -/
def Entry.takesOutput : Entry → Bool
  | .console => true
  | .file fh => fh.writable
  | _ => false

/-- The offset at which `syscall_sendfile64` starts. -/
def sendStart (fh : FileHandle) : Option SendPtr → Option UInt32
  | none => some fh.offset
  | some p => if !p.readable then none else if p.high ≠ 0 then none else some p.low

/-- `syscall_sendfile64` in table `t`, from a regular file to one or to the console: the result,
the words at the offset pointer, the bytes that are on the console, and the system. -/
def sendfile64 (s : IoSys) (t outFd inFd : Nat) (ptr : Option SendPtr) (count : Nat)
    (e : Nat → SendChunk) : Int × Option SendPtr × List UInt8 × IoSys :=
  let out := s.files t outFd
  match s.files t inFd with
  | .file fh =>
    if maxFds ≤ outFd ∨ maxFds ≤ inFd ∨ !out.takesOutput then (ebadf, ptr, [], s)
    else
      match sendStart fh ptr with
      | none => (-1, ptr, [], s)
      | some readOff =>
        let (early, st) := sendLoop s.kind fh.ref fh.size count e count
          { copied := 0, readOff := readOff, out := out, node := s.node }
        let s := { s.setEntry t outFd st.out with node := st.node }
        let ret : Int := if st.copied = 0 then -1 else st.copied
        if early then (ret, ptr, st.shown, s)
        else
          match ptr with
          | some p =>
            if !p.writable then (ret, ptr, st.shown, s)
            else (st.copied, some { p with low := st.readOff, high := 0 }, st.shown, s)
          | none =>
            match s.files t inFd with
            | .file fh =>
              (st.copied, ptr, st.shown, s.setEntry t inFd (.file { fh with offset := st.readOff }))
            | _ => (st.copied, ptr, st.shown, s)
  | _ => (ebadf, ptr, [], s)

/-! ## Tables -/

/-- The lowest free descriptor from `minfd` on. -/
def freeFd (files : Files) (minfd : Nat) : Option Nat :=
  (List.range maxFds).find? fun fd => minfd ≤ fd ∧ files fd = .free

/-- `fd_duplicate_from`. -/
def fdDuplicateFrom (s : IoSys) (t oldfd minfd : Nat) : Option Nat × IoSys :=
  if maxFds ≤ oldfd ∨ maxFds ≤ minfd ∨ s.files t oldfd = .free then (none, s)
  else
    match freeFd (s.files t) minfd with
    | none => (none, s)
    | some fd => (some fd, s.setEntry t fd (s.files t oldfd))

/-- `syscall_case_dup2`. -/
def syscallDup2 (s : IoSys) (t oldfd newfd : Nat) : Int × IoSys :=
  if maxFds ≤ oldfd ∨ maxFds ≤ newfd ∨ s.files t oldfd = .free then (ebadf, s)
  else if oldfd = newfd then (newfd, s)
  else (newfd, s.setEntry t newfd (s.files t oldfd))

/-- `linux_truncate_fd`, the loop over the table of the caller. -/
def refreshSize (ref : FileRef) (length : UInt32) : Entry → Entry
  | .file fh =>
    if fh.ref = ref then
      .file { fh with size := length, offset := if length < fh.offset then length else fh.offset }
    else .file fh
  | e => e

/-- `linux_truncate_fd`; `failed` is what a truncation that fails leaves. -/
def truncateFd (s : IoSys) (t fd : Nat) (length : UInt32) (failed : Option Node) : Int × IoSys :=
  match s.files t fd with
  | .file fh =>
    if maxFds ≤ fd ∨ !fh.writable then (ebadf, s)
    else
      match vfsTruncate (s.node fh.ref) length.toNat failed with
      | (false, node) => (-1, s.setNode fh.ref node)
      | (true, node) =>
        (0,
          { s.setNode fh.ref node with
            files := update s.files t fun i =>
              if i < maxFds then refreshSize fh.ref length (s.files t i) else s.files t i })
  | _ => (ebadf, s)

/-- `linux_truncate_path`. -/
def truncatePath (s : IoSys) (ref : FileRef) (length : UInt32) (failed : Option Node) : Int × IoSys :=
  match vfsTruncate (s.node ref) length.toNat failed with
  | (false, node) => (-1, s.setNode ref node)
  | (true, node) => (0, s.setNode ref node)

/-- `syscall_open_resolved_path`, for a regular file that exists. -/
def openFile (s : IoSys) (t : Nat) (ref : FileRef) (writable append trunc : Bool)
    (failed : Option Node) : Int × IoSys :=
  let install (s : IoSys) (size : UInt32) : Int × IoSys :=
    match freeFd (s.files t) 0 with
    | none => (-1, s)
    | some fd =>
      (fd, s.setEntry t fd (.file
        { ref := ref, writable := writable, append := append, size := size, offset := 0 }))
  if trunc then
    if !writable then (einval, s)
    else
      match vfsTruncate (s.node ref) 0 failed with
      | (false, node) => (-1, s.setNode ref node)
      | (true, node) => install (s.setNode ref node) 0
  else install s (UInt32.ofNat (s.node ref).size)

/-! ## Calls -/

/-- One call of a process with descriptor table `t`. -/
inductive IoOp where
  | read (t fd count : Nat) (e : ReadCall)
  | write (t fd : Nat) (src : Buf) (count : Nat) (e : WriteCall)
  | sendfile (t outFd inFd : Nat) (ptr : Option SendPtr) (count : Nat) (e : Nat → SendChunk)
  | lseek (t fd : Nat) (offset : Int) (whence : Nat)
  | dup (t oldfd minfd : Nat)
  | dup2 (t oldfd newfd : Nat)
  | setfl (t fd : Nat) (append : Bool)
  | close (t fd : Nat)
  | fork (t child : Nat)
  | open (t : Nat) (ref : FileRef) (writable append trunc : Bool) (failed : Option Node)
  | truncate (ref : FileRef) (length : UInt32) (failed : Option Node)
  | ftruncate (t fd : Nat) (length : UInt32) (failed : Option Node)

/-- What a call gives back: its result, and the bytes that a read has delivered, or `sendfile64`
to the console. -/
structure Reply where
  ret : Int
  got : List UInt8 := []

/-- The descriptor, if it is one of a regular file. -/
def IoSys.handle (s : IoSys) (t fd : Nat) : Option FileHandle :=
  match s.files t fd with
  | .file fh => if fd < maxFds then some fh else none
  | _ => none

/-- One call. Calls on descriptors that are not of regular files are left out: they change
nothing here. -/
def ioCall (s : IoSys) : IoOp → Reply × IoSys
  | .read t fd count e =>
    match s.handle t fd with
    | some fh =>
      let (ret, got, fh') := readFile (s.kind fh.ref.mountId) fh (s.node fh.ref) count e
      (⟨ret, got⟩, s.setEntry t fd (.file fh'))
    | none => (⟨-1, []⟩, s)
  | .write t fd src count e =>
    match s.handle t fd with
    | some fh =>
      let (ret, fh', node) := writeFile (s.kind fh.ref.mountId) fh (s.node fh.ref) src count e
      (⟨ret, []⟩, (s.setEntry t fd (.file fh')).setNode fh.ref node)
    | none => (⟨ebadf, []⟩, s)
  | .sendfile t outFd inFd ptr count e =>
    let (ret, _, shown, s) := sendfile64 s t outFd inFd ptr count e
    (⟨ret, shown⟩, s)
  | .lseek t fd offset whence =>
    match s.handle t fd with
    | some fh =>
      let (ret, fh') := seekHandle fh offset whence
      (⟨ret, []⟩, s.setEntry t fd (.file fh'))
    | none => (⟨ebadf, []⟩, s)
  | .dup t oldfd minfd =>
    match fdDuplicateFrom s t oldfd minfd with
    | (none, s) => (⟨-1, []⟩, s)
    | (some fd, s) => (⟨fd, []⟩, s)
  | .dup2 t oldfd newfd => let (ret, s) := syscallDup2 s t oldfd newfd; (⟨ret, []⟩, s)
  | .setfl t fd append =>
    match s.handle t fd with
    | some fh => (⟨0, []⟩, s.setEntry t fd (.file { fh with append := append }))
    | none => (⟨-1, []⟩, s)
  | .close t fd => (⟨0, []⟩, if fd < maxFds then s.setEntry t fd .free else s)
  | .fork t child => (⟨child, []⟩, { s with files := update s.files child (s.files t) })
  | .open t ref writable append trunc failed =>
    let (ret, s) := openFile s t ref writable append trunc failed
    (⟨ret, []⟩, s)
  | .truncate ref length failed => let (ret, s) := truncatePath s ref length failed; (⟨ret, []⟩, s)
  | .ftruncate t fd length failed =>
    let (ret, s) := truncateFd s t fd length failed
    (⟨ret, []⟩, s)

/-- The system after a call. -/
def ioStep (s : IoSys) (op : IoOp) : IoSys := (ioCall s op).2

/-! ## What the loops do -/

/-- A chunk that makes `write` return from inside the loop. -/
def WriteChunk.refuses (kind : FsKind) (c : WriteChunk) : Bool :=
  !c.copy || c.fs.refused || c.fs.lost.isSome || (kind == .ext3 && c.fs.upTo == some 0)

/-- A chunk that makes `read` return from inside the loop. -/
def ReadChunk.refuses (kind : FsKind) (c : ReadChunk) : Bool :=
  !c.copy || c.fs.refused || (kind == .ext3 && c.fs.upTo == some 0)

variable {n t' fd' : Nat} {e : WriteEnv}

section Loops

variable {kind : FsKind} {off count : Nat} {src : Buf} {node : Node}

theorem stopped_eq_zero {upTo : Option Nat} (hn : n ≠ 0) (h : stopped n upTo = 0) :
    upTo = some 0 := by
  cases upTo with
  | none => exact absurd h hn
  | some k =>
    have hk : min n k = 0 := h
    rw [show k = 0 by omega]

/-- A write that fails is one that was refused, and it leaves the file, or what is lost. -/
theorem vfsWrite_none {left : Node} (hcount : count ≠ 0)
    (h : vfsWrite kind node off src count e = (none, left)) :
    (e.refused = true ∨ e.lost.isSome ∨ (kind = .ext3 ∧ e.upTo = some 0)) ∧
      (left = node ∨ e.lost = some left) := by
  cases kind with
  | dufs =>
    unfold vfsWrite fsWrite at h
    dsimp only at h
    split at h
    next hr => exact ⟨.inl hr, .inl (Prod.mk.inj h).2.symm⟩
    split at h
    next l hl =>
      obtain rfl := (Prod.mk.inj h).2
      exact ⟨.inr (.inl (by rw [hl]; rfl)), .inr hl⟩
    · cases h
  | ext3 =>
    unfold vfsWrite ext3Write at h
    dsimp only at h
    split at h
    next hr => exact ⟨.inl hr, .inl (Prod.mk.inj h).2.symm⟩
    split at h
    next hz =>
      exact ⟨.inr (.inr ⟨rfl, stopped_eq_zero hcount hz⟩), .inl (Prod.mk.inj h).2.symm⟩
    split at h
    next l hl =>
      obtain rfl := (Prod.mk.inj h).2
      exact ⟨.inr (.inl (by rw [hl]; rfl)), .inr hl⟩
    · cases h

/-- A write that succeeds has stored so many bytes. -/
theorem vfsWrite_some {node' : Node} (h : vfsWrite kind node off src count e = (some n, node')) :
    n ≤ count ∧ node'.size = (node.store off src n).size ∧
      (n = count ∨ e.tears kind = false → node'.data = (node.store off src n).data) := by
  rcases vfsWrite_cases kind node off src count e with ⟨left, hw⟩ | ⟨m, hm, node'', hw, hsize, hdata⟩
  · exact absurd (Prod.mk.inj (h.symm.trans hw)).1 (by simp)
  · obtain ⟨hn, rfl⟩ := Prod.mk.inj (h.symm.trans hw)
    cases hn
    exact ⟨hm, hsize, hdata⟩

/-- Two stores, one after the other. -/
theorem memcpy_memcpy (data src : Buf) (off m n : Nat) :
    memcpy (memcpy data off src 0 m) (off + m) (fun i => src (m + i)) 0 n =
      memcpy data off src 0 (m + n) := by
  funext p
  unfold memcpy
  split
  next h =>
    rw [if_pos ⟨by omega, by omega⟩]
    exact congrArg src (by omega)
  next h =>
    split
    next h' => rw [if_pos ⟨by omega, by omega⟩]
    next h' => rw [if_neg (by omega)]

/-- The file after the first `m` bytes of `src` are stored, and no others. -/
structure Stored (node : Node) (off : Nat) (src : Buf) (m : Nat) (node' : Node) : Prop where
  data : node'.data = memcpy node.data off src 0 m
  size : node'.size = if m = 0 then node.size else max node.size (off + m)

theorem Stored.zero : Stored node off src 0 node := by
  refine ⟨?_, rfl⟩
  funext p
  rw [memcpy_out (by omega)]

/-- One more chunk. -/
theorem Stored.chunk {node' node'' : Node} {m chunk : Nat} (h : Stored node off src m node')
    (hw : vfsWrite kind node' (u32 (off + m)) (fun i => src (m + i)) chunk e = (some n, node''))
    (hwhole : n = chunk ∨ e.tears kind = false) (hfit : off + (m + n) < 4294967296) :
    Stored node off src (m + n) node'' := by
  obtain ⟨-, hsize, hstore⟩ := vfsWrite_some hw
  have hdata := hstore hwhole
  rw [u32_of_lt (by omega)] at hsize hdata
  constructor
  · rw [hdata, Node.store_data _ _ (by omega), h.data, memcpy_memcpy]
  · rw [hsize]
    by_cases hn : n = 0
    · rw [hn, Node.store_zero, Nat.add_zero]
      exact h.size
    · rw [Node.store_size _ _ (by omega) hn, h.size, if_neg (show ¬ m + n = 0 by omega)]
      split
      next hm => rw [hm]; omega
      next hm => omega

/-- The loop of `write`, from `written` bytes on: it returns at a chunk that is refused, or it
ends, and then the bytes are stored, and no others if it is whole or no block is torn. -/
theorem writeLoop_spec (kind : FsKind) (off count : Nat) (src : Buf) (node : Node)
    (e : Nat → WriteChunk) : ∀ fuel written (node' : Node),
    count ≤ written + fuel → written ≤ count →
    let out := writeLoop kind off src count e fuel written node'
    written ≤ out.2.1 ∧ out.2.1 ≤ count ∧
      (out.1 = true → out.2.1 < count ∧ (e out.2.1).refuses kind = true ∧
        (out.2.1 = written → out.2.2 = node' ∨ (e written).fs.lost = some out.2.2)) ∧
      (out.1 = false → Stored node off src written node' → off + out.2.1 < 4294967296 →
        (out.2.1 = count ∨ ∀ w < count, (e w).fs.tears kind = false) →
        Stored node off src out.2.1 out.2.2) := by
  intro fuel
  induction fuel with
  | zero =>
    intro written node' hfuel hle
    exact ⟨Nat.le_refl _, hle, fun h => absurd h (by simp [writeLoop]), fun _ hs _ _ => hs⟩
  | succ fuel ih =>
    intro written node' hfuel hle
    unfold writeLoop
    dsimp only
    split
    · exact ⟨Nat.le_refl _, hle, nofun, fun _ hs _ _ => hs⟩
    next hlt =>
    have hlt' : written < count := Nat.lt_of_not_le hlt
    have hchunk : min (count - written) userIoChunk ≠ 0 := by
      unfold userIoChunk
      omega
    split
    next hcopy =>
      exact ⟨Nat.le_refl _, hle, fun _ => ⟨hlt', by simp [WriteChunk.refuses, hcopy],
        fun _ => .inl rfl⟩, nofun⟩
    split
    next left hw =>
      obtain ⟨hrefused, hleft⟩ := vfsWrite_none hchunk hw
      refine ⟨Nat.le_refl _, hle, fun _ => ⟨hlt', ?_, fun _ => hleft⟩,
        nofun⟩
      rcases hrefused with h | h | ⟨rfl, h⟩ <;> simp [WriteChunk.refuses, h]
    next n node'' hw =>
    have hn := (vfsWrite_some hw).1
    split
    next hshort =>
      refine ⟨Nat.le_add_right _ _, (by omega : written + n ≤ count), nofun,
        fun _ hs hfit hwhole => hs.chunk hw (.inr ?_) hfit⟩
      have hwhole' : written + n = count ∨ ∀ w < count, (e w).fs.tears kind = false := hwhole
      rcases hwhole' with hfull | hnone
      · omega
      · exact hnone written hlt'
    next hfull =>
      obtain ⟨hge, hle', hearly, hdone⟩ := ih (written + n) node'' (by omega) (by omega)
      refine ⟨by omega, hle', fun h => ?_, fun h hs hfit hwhole => ?_⟩
      · obtain ⟨hlt'', href, -⟩ := hearly h
        exact ⟨hlt'', href, fun heq => by omega⟩
      · exact hdone h (hs.chunk hw (.inl (by omega)) (by omega)) hfit hwhole

/-- A read that fails is one that was refused, or one of a file without a size. -/
theorem vfsRead_none {e : ReadEnv} (h : vfsRead kind node off count e = none) :
    node.TooLarge kind ∨ e.refused = true ∨ (kind = .ext3 ∧ e.upTo = some 0) := by
  cases kind with
  | dufs =>
    unfold vfsRead fsRead at h
    dsimp only at h
    split at h
    next hr => exact .inr (.inl hr)
    split at h
    · cases h
    · cases h
  | ext3 =>
    unfold vfsRead ext3Read at h
    dsimp only at h
    split at h
    next hr => exact hr.symm.imp (fun hsize => ⟨rfl, hsize⟩) .inl
    split at h
    · cases h
    next hin =>
      split at h
      next hz => exact .inr (.inr ⟨rfl, stopped_eq_zero (by omega) hz⟩)
      · cases h

/-- The loop of `read`, with `got` delivered: it returns at a chunk that is refused, or at once, or
it ends; what is delivered are bytes of the file, one after the other, if the blocks are found. -/
theorem readLoop_spec (kind : FsKind) (node : Node) {off toRead : Nat} (e : Nat → ReadChunk)
    (hfit : off + toRead ≤ 4294967296) :
    ∀ fuel (got : List UInt8), toRead ≤ got.length + fuel → got.length ≤ toRead →
    let out := readLoop kind node off toRead e fuel got
    got.length ≤ out.2.length ∧ out.2.length ≤ toRead ∧
      ((∀ w < toRead, (e w).fs.Finds kind) → got = node.bytes off got.length →
        out.2 = node.bytes off out.2.length) ∧
      (out.1 = true → out.2.length < toRead ∧
        ((e out.2.length).refuses kind = true ∨ out.2 = got ∧ node.TooLarge kind)) := by
  intro fuel
  induction fuel with
  | zero =>
    intro got hfuel hle
    exact ⟨Nat.le_refl _, hle, fun _ hgot => hgot, fun h => absurd h (by simp [readLoop])⟩
  | succ fuel ih =>
    intro got hfuel hle
    unfold readLoop
    dsimp only
    split
    · exact ⟨Nat.le_refl _, hle, fun _ hgot => hgot, nofun⟩
    next hlt =>
    have hpos : u32 (off + got.length) = off + got.length := u32_of_lt (by omega)
    rw [hpos]
    split
    next hr =>
      refine ⟨Nat.le_refl _, hle, fun _ hgot => hgot, fun _ => ⟨Nat.lt_of_not_le hlt, ?_⟩⟩
      rcases vfsRead_none hr with hlarge | h | ⟨rfl, h⟩
      · exact .inr ⟨rfl, hlarge⟩
      · exact .inl (by simp [ReadChunk.refuses, h])
      · exact .inl (by simp [ReadChunk.refuses, h])
    next n hr =>
    have hn := vfsRead_le hr
    generalize hnext : got ++ (node.seen kind (e got.length).fs).bytes (off + got.length) n = next
    have hlen : next.length = got.length + n := by rw [← hnext]; simp
    have hmore : (∀ w < toRead, (e w).fs.Finds kind) → got = node.bytes off got.length →
        next = node.bytes off next.length := by
      intro hfinds hgot
      rw [hlen, Node.bytes_add, ← hgot, ← hnext, Node.seen_eq (hfinds got.length (by omega))]
    split
    · exact ⟨Nat.le_refl _, hle, fun _ hgot => hgot, nofun⟩
    split
    next hcopy =>
      exact ⟨Nat.le_refl _, hle, fun _ hgot => hgot, fun _ => ⟨Nat.lt_of_not_le hlt,
        .inl (by simp [ReadChunk.refuses, hcopy])⟩⟩
    split
    · exact ⟨(by omega : got.length ≤ next.length), (by omega : next.length ≤ toRead), hmore, nofun⟩
    obtain ⟨hge, hle', hbytes, hearly⟩ := ih next (by omega) (by omega)
    refine ⟨by omega, hle', fun hfinds hgot => hbytes hfinds (hmore hfinds hgot), fun h => ?_⟩
    obtain ⟨hshort, hwhy⟩ := hearly h
    exact ⟨hshort, .inl (hwhy.resolve_right fun hlarge => vfsRead_sized hr hlarge.2)⟩

end Loops

/-- A loop that is left at a chunk is left at the first one, if no later one is refused. -/
theorem left_at_first {refuses : Nat → Bool} {count w : Nat}
    (hlate : ∀ w, 0 < w → w < count → refuses w = false) (hlt : w < count)
    (hw : refuses w = true) : w = 0 := by
  by_contra hne
  have hno := hlate w (Nat.pos_of_ne_zero hne) hlt
  rw [hw] at hno
  cases hno

/-! ## What the calls do -/

/-- Where a write through the handle starts. -/
def FileHandle.start (fh : FileHandle) : UInt32 := fh.positioned.offset

/-- What `write` does: it changes nothing, it returns at a chunk that is refused, or it ends. -/
inductive WriteOutcome (kind : FsKind) (fh : FileHandle) (node : Node) (src : Buf) (count : Nat)
    (e : WriteCall) : Int → FileHandle → Node → Prop where
  | error {ret : Int} (hneg : ret < 0) : WriteOutcome kind fh node src count e ret fh node
  | nothing (hcount : count = 0) : WriteOutcome kind fh node src count e 0 fh node
  | returned {w : Nat} {node' : Node} (hlt : w < count)
      (hrefuses : (e.chunk w).refuses kind = true)
      (hleft : w = 0 → node' = node ∨ (e.chunk 0).fs.lost = some node') :
      WriteOutcome kind fh node src count e (if w = 0 then -1 else w) fh.positioned node'
  | ended {w : Nat} {node' : Node} (hcount : count ≠ 0) (hle : w ≤ count)
      (hstored : fh.start.toNat + w < 4294967296 →
        (w = count ∨ ∀ w < count, (e.chunk w).fs.tears kind = false) →
        Stored node fh.start.toNat src w node') :
      WriteOutcome kind fh node src count e w (fh.positioned.advance w) node'

theorem writeFile_outcome (kind : FsKind) (fh : FileHandle) (node : Node) (src : Buf) (count : Nat)
    (e : WriteCall) :
    WriteOutcome kind fh node src count e (writeFile kind fh node src count e).1
      (writeFile kind fh node src count e).2.1 (writeFile kind fh node src count e).2.2 := by
  unfold writeFile
  split
  · exact .error (show ebadf < 0 by decide)
  split
  next hz => exact .nothing hz
  next hz =>
  split
  · exact .error (show (-1 : Int) < 0 by decide)
  have hspec := writeLoop_spec kind fh.start.toNat count src node e.chunk count 0 node (by omega)
    (Nat.zero_le _)
  dsimp only
  rw [show fh.positioned.offset.toNat = fh.start.toNat from rfl]
  generalize writeLoop kind fh.start.toNat src count e.chunk count 0 node = out at hspec ⊢
  obtain ⟨early, w, node'⟩ := out
  obtain ⟨-, hle, hearly, hdone⟩ := hspec
  cases early with
  | true =>
    obtain ⟨hlt, hrefuses, hleft⟩ := hearly rfl
    exact .returned hlt hrefuses hleft
  | false => exact .ended hz hle (hdone rfl Stored.zero)

/-- What `read` does: it delivers nothing, it returns at a chunk that is refused, or it ends. -/
inductive ReadOutcome (kind : FsKind) (fh : FileHandle) (node : Node) (count : Nat) (e : ReadCall) :
    Int → List UInt8 → FileHandle → Prop where
  | error : ReadOutcome kind fh node count e (-1) [] fh
  | nothing (hend : count = 0 ∨ fh.size ≤ fh.offset) : ReadOutcome kind fh node count e 0 [] fh
  | returned {got : List UInt8} (hlt : got.length < count)
      (hrefuses : (e.chunk got.length).refuses kind = true)
      (hgot : (∀ w < count, (e.chunk w).fs.Finds kind) →
        got = node.bytes fh.offset.toNat got.length) :
      ReadOutcome kind fh node count e (if got.length = 0 then -1 else got.length) got fh
  | ended {got : List UInt8} (hle : fh.offset.toNat + got.length ≤ fh.size.toNat)
      (hgot : (∀ w < count, (e.chunk w).fs.Finds kind) →
        got = node.bytes fh.offset.toNat got.length) :
      ReadOutcome kind fh node count e got.length got
        { fh with offset := fh.offset + UInt32.ofNat got.length }

theorem readFile_outcome (kind : FsKind) (fh : FileHandle) (node : Node) (count : Nat)
    (e : ReadCall) :
    ReadOutcome kind fh node count e (readFile kind fh node count e).1
      (readFile kind fh node count e).2.1 (readFile kind fh node count e).2.2 := by
  unfold readFile
  split
  next hz => exact .nothing (.inl hz)
  split
  next hend => exact .nothing (.inr hend)
  next hin =>
  have hlt : fh.offset.toNat < fh.size.toNat :=
    UInt32.lt_iff_toNat_lt.mp (UInt32.not_le.mp hin)
  have hfit : fh.offset.toNat + min count (fh.size.toNat - fh.offset.toNat) ≤ 4294967296 := by
    have := fh.size.toNat_lt
    omega
  dsimp only
  split
  · exact .error
  have hspec := readLoop_spec kind node e.chunk hfit
    (min count (fh.size.toNat - fh.offset.toNat)) [] (by simp) (Nat.zero_le _)
  generalize readLoop kind node fh.offset.toNat (min count (fh.size.toNat - fh.offset.toNat))
    e.chunk (min count (fh.size.toNat - fh.offset.toNat)) [] = out at hspec ⊢
  obtain ⟨early, got⟩ := out
  obtain ⟨-, hle, hbytes, hearly⟩ := hspec
  dsimp only at hle hbytes hearly ⊢
  have hgot : (∀ w < count, (e.chunk w).fs.Finds kind) →
      got = node.bytes fh.offset.toNat got.length :=
    fun hfinds => hbytes (fun w hw => hfinds w (by omega)) rfl
  cases early with
  | true =>
    obtain ⟨hr, hrefuses | ⟨rfl, -⟩⟩ := hearly rfl
    · exact .returned (by omega) hrefuses hgot
    · exact .error
  | false => exact .ended (by omega) hgot

section Tables

variable {s : IoSys} {t fd : Nat} {fh : FileHandle}

theorem update₂_self {α : Type} (f : Nat → Nat → α) (t fd : Nat) (x : α) :
    update f t (update (f t) fd x) t fd = x := by
  rw [update_self, update_self]

theorem update₂_ne {α : Type} (f : Nat → Nat → α) {t fd : Nat} (x : α) {t' fd' : Nat}
    (h : ¬ (t' = t ∧ fd' = fd)) : update f t (update (f t) fd x) t' fd' = f t' fd' := by
  by_cases ht : t' = t
  · subst ht
    rw [update_self, update_of_ne fun hfd => h ⟨rfl, hfd⟩]
  · rw [update_of_ne ht]

theorem IoSys.setEntry_self (s : IoSys) (t fd : Nat) (e : Entry) :
    (s.setEntry t fd e).files t fd = e := update₂_self ..

theorem IoSys.setEntry_ne (s : IoSys) {t fd : Nat} (e : Entry) (h : fd' ≠ fd) :
    (s.setEntry t fd e).files t fd' = s.files t fd' := update₂_ne _ _ fun heq => h heq.2

theorem IoSys.handle_some (h : s.handle t fd = some fh) : s.files t fd = .file fh ∧ fd < maxFds := by
  unfold IoSys.handle at h
  split at h
  next fh1 hfile =>
    split at h
    next hlt => exact ⟨hfile.trans (congrArg Entry.file (Option.some.inj h)), hlt⟩
    · cases h
  · cases h

theorem handle_of_file (hfile : s.files t fd = .file fh) (hlt : fd < maxFds) :
    s.handle t fd = some fh := by
  unfold IoSys.handle
  rw [hfile]
  exact if_pos hlt

theorem IoSys.handle_setEntry (hfd : fd < maxFds) (fh' : FileHandle) :
    (s.setEntry t fd (.file fh')).handle t fd = some fh' := by
  unfold IoSys.handle
  rw [s.setEntry_self t fd]
  exact if_pos hfd

/-- The handles depend on the entries alone. -/
theorem IoSys.handle_congr {s' : IoSys} (h : s'.files t' fd' = s.files t fd)
    (hlt : fd' < maxFds ↔ fd < maxFds) : s'.handle t' fd' = s.handle t fd := by
  unfold IoSys.handle
  rw [h]
  simp only [hlt]

theorem IoSys.handle_setEntry_ne (e : Entry) (h : ¬ (t' = t ∧ fd' = fd)) :
    (s.setEntry t fd e).handle t' fd' = s.handle t' fd' :=
  IoSys.handle_congr (update₂_ne _ _ h) Iff.rfl

/-- A handle after an entry was set: it is the new one, or it was there. -/
theorem IoSys.handle_setEntry_some {entry : Entry}
    (h : (s.setEntry t fd entry).handle t' fd' = some fh) :
    (t' = t ∧ fd' = fd ∧ entry = .file fh) ∨
      (¬ (t' = t ∧ fd' = fd) ∧ s.handle t' fd' = some fh) := by
  by_cases heq : t' = t ∧ fd' = fd
  · obtain ⟨rfl, rfl⟩ := heq
    have hfile := (IoSys.handle_some h).1
    rw [IoSys.setEntry_self] at hfile
    exact .inl ⟨rfl, rfl, hfile⟩
  · exact .inr ⟨heq, (IoSys.handle_setEntry_ne entry heq).symm.trans h⟩

theorem ioCall_read (h : s.handle t fd = some fh) (count : Nat) (e : ReadCall) :
    ioCall s (.read t fd count e) =
      (⟨(readFile (s.kind fh.ref.mountId) fh (s.node fh.ref) count e).1,
        (readFile (s.kind fh.ref.mountId) fh (s.node fh.ref) count e).2.1⟩,
        s.setEntry t fd (.file (readFile (s.kind fh.ref.mountId) fh (s.node fh.ref) count e).2.2)) := by
  simp only [ioCall, h]

theorem ioCall_write (h : s.handle t fd = some fh) (src : Buf) (count : Nat) (e : WriteCall) :
    ioCall s (.write t fd src count e) =
      (⟨(writeFile (s.kind fh.ref.mountId) fh (s.node fh.ref) src count e).1, []⟩,
        (s.setEntry t fd (.file
          (writeFile (s.kind fh.ref.mountId) fh (s.node fh.ref) src count e).2.1)).setNode fh.ref
          (writeFile (s.kind fh.ref.mountId) fh (s.node fh.ref) src count e).2.2) := by
  simp only [ioCall, h]

theorem freeFd_some {files : Files} {minfd : Nat} (h : freeFd files minfd = some fd) :
    fd < maxFds :=
  List.mem_range.mp (List.mem_of_find?_eq_some h)

/-- What `fd_duplicate_from` does: a second entry, or nothing. -/
theorem fdDuplicateFrom_cases (s : IoSys) (t oldfd minfd : Nat) :
    fdDuplicateFrom s t oldfd minfd = (none, s) ∨
      ∃ fd, oldfd < maxFds ∧
        fdDuplicateFrom s t oldfd minfd = (some fd, s.setEntry t fd (s.files t oldfd)) := by
  unfold fdDuplicateFrom
  split
  · exact .inl rfl
  next hok =>
    split
    · exact .inl rfl
    next fd _ => exact .inr ⟨fd, by omega, rfl⟩

theorem ioStep_dup (s : IoSys) (t oldfd minfd : Nat) :
    ioStep s (.dup t oldfd minfd) = (fdDuplicateFrom s t oldfd minfd).2 := by
  simp only [ioStep, ioCall]
  split
  next hdup => rw [hdup]
  next hdup => rw [hdup]

end Tables

end Drunix.Io
