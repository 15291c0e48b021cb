import Drunix.Lib.RefCount
import Drunix.Proc.Pipe

/-!
# Descriptor tables

The calls that open, copy and close descriptors (`fd_control.c`, `helpers.c` and
`fd_install_vfs_node` of `vfs/open.c` in `proc/syscall`), the tables they work on
(`proc/resources.c`), and what they count: the open ends of pipes and the references of
window-manager connections (`drivers/wmdev.c`).

`Counted files ends extra` compares the two sides: for every end, its count is the number of
descriptors for it in the tables that exist, and `extra` besides. A call is a chain of small
moves (`Counted.bump`, `Counted.drop`, `Counted.setEntry`, `Counted.create`, `Counted.free`),
and each call of this file keeps `Counted files ends 0` but one: `pipe()` in a table with one
free entry (`Counted.syscallPipe`).

Mirroring notes:
- `FdType.other` stands for the handle types without a count here: files, directories,
  devices, terminals, and pseudo-terminals, whose counts are `Proc.Pty`.
- The fields of a handle besides the type and the two flags are left out.
- `copyOut` and `back` are the outcomes of copying to and from user memory.
- `proc_fd_table_close_all` also empties the entries of the table, which is freed next.
-/

namespace Drunix.Proc

open Lib Mm Function

/-- `MAX_FDS`. -/
def maxFds : Nat := 16

/-- `MAX_PROCS`. -/
def maxProcs : Nat := 8

/-- `MAX_PIPES`. -/
def maxPipes : Nat := 8

/-- `WMDEV_MAX_CONNECTIONS`. -/
def wmdevMaxConnections : Nat := 16

/-- `UINT32_MAX`. -/
def uint32Max : Nat := 0xFFFFFFFF

/-- `-LINUX_EBADF`. -/
def ebadf : Int := -9

/-- `-LINUX_EFAULT`. -/
def efault : Int := -14

/-- `-LINUX_EINVAL`. -/
def einval : Int := -22

/-- `fd_type_t`, with the index that the handle has for it. -/
inductive FdType where
  | none
  | pipeRead (pipeIdx : Nat)
  | pipeWrite (pipeIdx : Nat)
  | wm (connId : Nat)
  | other
deriving DecidableEq

/-- `file_handle_t`. -/
structure FileHandle where
  type : FdType
  cloexec : Bool := false
  nonblock : Bool := false
deriving DecidableEq

/-- `open_files`. -/
abbrev OpenFiles := Nat → FileHandle

/-- `wmdev_conn_t`. -/
structure WmConn where
  inUse : Bool := false
  refs : Nat := 0
deriving DecidableEq

/-- `pipe_table` and `g_conns`. -/
structure FdEnds where
  pipes : Nat → PipeBuf
  conns : Nat → WmConn

/-- The tables and what their handles refer to. -/
structure FdHeap where
  files : RefHeap OpenFiles
  ends : FdEnds

/-! ## pipe.c and wmdev.c -/

def FdEnds.setPipe (e : FdEnds) (i : Nat) (pb : PipeBuf) : FdEnds :=
  { e with pipes := update e.pipes i pb }

def FdEnds.setConn (e : FdEnds) (c : Nat) (conn : WmConn) : FdEnds :=
  { e with conns := update e.conns c conn }

/-- `pipe_alloc`. -/
def pipeAlloc (e : FdEnds) : Option (Nat × FdEnds) :=
  match (List.range maxPipes).find? fun i => !(e.pipes i).inUse with
  | none => none
  | some i => some (i, e.setPipe i (e.pipes i).alloc)

/-- `pipe_free`. -/
def pipeFree (e : FdEnds) (i : Nat) : FdEnds :=
  if i < maxPipes then e.setPipe i { e.pipes i with inUse := false } else e

/-- `pipe_get`. -/
def pipeGet (e : FdEnds) (i : Nat) : Option PipeBuf :=
  if i < maxPipes ∧ (e.pipes i).inUse then some (e.pipes i) else none

/-- `conn_valid`. -/
def connValid (e : FdEnds) (c : Nat) : Bool := c < wmdevMaxConnections && (e.conns c).inUse

/-- `wmdev_open`. -/
def wmdevOpen (e : FdEnds) : Option (Nat × FdEnds) :=
  match (List.range wmdevMaxConnections).find? fun c => !(e.conns c).inUse with
  | none => none
  | some c => some (c, e.setConn c { inUse := true, refs := 1 })

/-- `wmdev_retain`. -/
def wmdevRetain (e : FdEnds) (c : Nat) : FdEnds :=
  if !connValid e c ∨ (e.conns c).refs = uint32Max then e
  else e.setConn c { e.conns c with refs := (e.conns c).refs + 1 }

/-- `wmdev_close`. -/
def wmdevClose (e : FdEnds) (c : Nat) : FdEnds :=
  if !connValid e c then e
  else if 1 < (e.conns c).refs then
    e.setConn c { e.conns c with refs := (e.conns c).refs - 1 }
  else e.setConn c {}

/-! ## References of one handle -/

/-- `fd_bump_open_ref`; also the body of the loop in `proc_fd_table_bump_open_refs` and of the
one in `process_create_file`. -/
def fdBumpOpenRef (e : FdEnds) : FdType → FdEnds
  | .pipeRead i =>
    match pipeGet e i with
    | some pb => e.setPipe i { pb with readOpen := pb.readOpen + 1 }
    | none => e
  | .pipeWrite i =>
    match pipeGet e i with
    | some pb => e.setPipe i { pb with writeOpen := pb.writeOpen + 1 }
    | none => e
  | .wm c => wmdevRetain e c
  | .none | .other => e

/-- An end of pipe `i` is closed: `pb` is the pipe with the end gone. -/
def closeEnd (e : FdEnds) (i : Nat) (pb : PipeBuf) : FdEnds :=
  let e := e.setPipe i pb
  if pb.readOpen = 0 ∧ pb.writeOpen = 0 then pipeFree e i else e

/-- What `fd_close_one`, `proc_fd_table_close_all` and `process_release_inline_open_files` do
with what the handle refers to. -/
def fdDropOpenRef (e : FdEnds) : FdType → FdEnds
  | .pipeRead i =>
    match pipeGet e i with
    | some pb => closeEnd e i { pb with readOpen := pb.readOpen - 1 }
    | none => e
  | .pipeWrite i =>
    match pipeGet e i with
    | some pb => closeEnd e i { pb with writeOpen := pb.writeOpen - 1 }
    | none => e
  | .wm c => wmdevClose e c
  | .none | .other => e

/-! ## Tables -/

/-- `proc_fd_table_bump_open_refs`. -/
def fdTableBumpOpenRefs (e : FdEnds) (fds : OpenFiles) : FdEnds :=
  (List.range maxFds).foldl (fun e i => fdBumpOpenRef e (fds i).type) e

/-- `proc_fd_table_close_all`. -/
def fdTableCloseAll (e : FdEnds) (fds : OpenFiles) : FdEnds :=
  (List.range maxFds).foldl (fun e i => fdDropOpenRef e (fds i).type) e

/-- `proc_fd_table_dup`, into the table at `dup`. -/
def fdTableDup (h : FdHeap) (dup src : Nat) : FdHeap :=
  { files := h.files.create dup (h.files.val src)
    ends := fdTableBumpOpenRefs h.ends (h.files.val src) }

/-- A reference to table `t` is dropped (`proc_resource_put_files`). -/
def fdTablePut (h : FdHeap) (t : Nat) : FdHeap :=
  let files := h.files.dec t
  if files.refs t = 0 then
    { files := files.free t, ends := fdTableCloseAll h.ends (files.val t) }
  else { h with files := files }

def FdHeap.setEntry (h : FdHeap) (t fd : Nat) (fh : FileHandle) : FdHeap :=
  { h with files := h.files.set t (update (h.files.val t) fd fh) }

/-- `fd_alloc`. -/
def fdAlloc (h : FdHeap) (t : Nat) : Option Nat :=
  (List.range maxFds).find? fun i => (h.files.val t i).type = .none

/-- `fd_close_one`. -/
def fdCloseOne (h : FdHeap) (t fd : Nat) : FdHeap :=
  { h.setEntry t fd { type := .none } with
    ends := fdDropOpenRef h.ends (h.files.val t fd).type }

/-- `fd_duplicate_from`. -/
def fdDuplicateFrom (h : FdHeap) (t oldfd minfd : Nat) (cloexec : Bool) : Option Nat × FdHeap :=
  let fds := h.files.val t
  if maxFds ≤ oldfd ∨ maxFds ≤ minfd then (none, h)
  else if (fds oldfd).type = .none then (none, h)
  else
    match (List.range maxFds).find? fun fd => minfd ≤ fd ∧ (fds fd).type = .none with
    | none => (none, h)
    | some fd =>
      let h := h.setEntry t fd { fds oldfd with cloexec := cloexec }
      (some fd, { h with ends := fdBumpOpenRef h.ends (h.files.val t fd).type })

/-! ## Calls -/

/-- `syscall_case_close`. -/
def syscallClose (h : FdHeap) (t fd : Nat) : Int × FdHeap :=
  if maxFds ≤ fd then (-1, h)
  else if (h.files.val t fd).type = .none then (-1, h)
  else (0, fdCloseOne h t fd)

/-- `syscall_case_dup`. -/
def syscallDup (h : FdHeap) (t oldfd : Nat) : Int × FdHeap :=
  match fdDuplicateFrom h t oldfd 0 false with
  | (some fd, h) => (fd, h)
  | (none, h) => (ebadf, h)

/-- `syscall_case_dup2`. -/
def syscallDup2 (h : FdHeap) (t oldfd newfd : Nat) : Int × FdHeap :=
  if maxFds ≤ oldfd ∨ maxFds ≤ newfd then (ebadf, h)
  else if (h.files.val t oldfd).type = .none then (ebadf, h)
  else if oldfd = newfd then (newfd, h)
  else
    let h := if (h.files.val t newfd).type ≠ .none then fdCloseOne h t newfd else h
    let h := h.setEntry t newfd { h.files.val t oldfd with cloexec := false }
    (newfd, { h with ends := fdBumpOpenRef h.ends (h.files.val t newfd).type })

/-- The commands of `fcntl64` that change something. -/
inductive FcntlCmd where
  | dupfd (minfd : Nat)
  | dupfdCloexec (minfd : Nat)
  | setfd (cloexec : Bool)
  | setfl (nonblock : Bool)

/-- `syscall_case_fcntl64`. -/
def syscallFcntl (h : FdHeap) (t fd : Nat) (cmd : FcntlCmd) : Int × FdHeap :=
  if maxFds ≤ fd then (-1, h)
  else if (h.files.val t fd).type = .none then (-1, h)
  else
    match cmd with
    | .dupfd minfd =>
      let (dup, h) := fdDuplicateFrom h t fd minfd false
      (dup.elim (-1) fun n => n, h)
    | .dupfdCloexec minfd =>
      let (dup, h) := fdDuplicateFrom h t fd minfd true
      (dup.elim (-1) fun n => n, h)
    | .setfd cloexec => (0, h.setEntry t fd { h.files.val t fd with cloexec := cloexec })
    | .setfl nonblock => (0, h.setEntry t fd { h.files.val t fd with nonblock := nonblock })

/-- `syscall_case_pipe`. -/
def syscallPipe (h : FdHeap) (t ebx : Nat) (copyOut : Bool) : Int × FdHeap :=
  if ebx = 0 then (efault, h)
  else
    match pipeAlloc h.ends with
    | none => (-1, h)
    | some (pipeIdx, ends) =>
      let h := { h with ends := ends }
      match fdAlloc h t with
      | none => (-1, { h with ends := pipeFree h.ends pipeIdx })
      | some rfd =>
        let h := h.setEntry t rfd { type := .pipeRead pipeIdx }
        match fdAlloc h t with
        -- The write end stays open: only the descriptor of the read end is closed.
        | none => (-1, fdCloseOne h t rfd)
        | some wfd =>
          let h := h.setEntry t wfd { type := .pipeWrite pipeIdx }
          if copyOut then (0, h) else (-1, fdCloseOne (fdCloseOne h t wfd) t rfd)

/-- The loop of `pipe2` over the two descriptors that it read back. -/
def pipe2SetFlags (t : Nat) (cloexec nonblock : Bool) : List Int → FdHeap → Int × FdHeap
  | [], h => (0, h)
  | fd :: rest, h =>
    if fd < 0 ∨ (maxFds : Int) ≤ fd then (-1, h)
    else
      let fh := { h.files.val t fd.toNat with cloexec := cloexec, nonblock := nonblock }
      pipe2SetFlags t cloexec nonblock rest (h.setEntry t fd.toNat fh)

/-- The `flags` of `pipe2`. -/
structure Pipe2Flags where
  unsupported : Bool
  cloexec : Bool
  nonblock : Bool

/-- `syscall_case_pipe2`. -/
def syscallPipe2 (h : FdHeap) (t ebx : Nat) (flags : Pipe2Flags) (copyOut : Bool)
    (back : Option (List Int)) : Int × FdHeap :=
  if flags.unsupported then (einval, h)
  else
    let (rc, h) := syscallPipe h t ebx copyOut
    if rc ≠ 0 then (rc, h)
    else
      match back with
      | none => (-1, h)
      | some fds => pipe2SetFlags t flags.cloexec flags.nonblock (fds.take 2) h

/-- `fd_install_vfs_node`, for `/dev/wm` or for a node without a count. -/
def fdInstallVfsNode (h : FdHeap) (t : Nat) (wm cloexec nonblock : Bool) : Int × FdHeap :=
  match fdAlloc h t with
  | none => (-1, h)
  | some fd =>
    if wm then
      match wmdevOpen h.ends with
      | none => (-1, h.setEntry t fd { type := .none, cloexec := cloexec, nonblock := nonblock })
      | some (conn, ends) =>
        let fh := { type := .wm conn, cloexec := cloexec, nonblock := nonblock }
        (fd, { h.setEntry t fd fh with ends := ends })
    else (fd, h.setEntry t fd { type := .other, cloexec := cloexec, nonblock := nonblock })

/-! ## Counts and descriptors -/

/-- The types that are counted. -/
def FdType.counted : FdType → Bool
  | .pipeRead _ | .pipeWrite _ | .wm _ => true
  | .none | .other => false

/-- The count that the system keeps for a handle type. -/
def FdEnds.opens (e : FdEnds) : FdType → Nat
  | .pipeRead i => if (e.pipes i).inUse then (e.pipes i).readOpen else 0
  | .pipeWrite i => if (e.pipes i).inUse then (e.pipes i).writeOpen else 0
  | .wm c => if (e.conns c).inUse then (e.conns c).refs else 0
  | .none | .other => 0

/-- The number of entries of type `k` in a table. -/
def entriesOf (fds : OpenFiles) (k : FdType) : Nat :=
  count (Finset.range maxFds) fun fd => (fds fd).type == k

/-- The number of descriptors of type `k` in the tables that exist. -/
def descriptors (files : RefHeap OpenFiles) (k : FdType) : Nat :=
  count (files.live ×ˢ Finset.range maxFds) fun p => (files.val p.1 p.2).type == k

/-- What is in use is in range and has a count. -/
structure FdEnds.Ok (e : FdEnds) : Prop where
  pipe : ∀ i, (e.pipes i).inUse = true →
    i < maxPipes ∧ 0 < (e.pipes i).readOpen + (e.pipes i).writeOpen
  conn : ∀ c, (e.conns c).inUse = true → c < wmdevMaxConnections ∧ 0 < (e.conns c).refs
  zero : ∀ c, (e.conns c).inUse = false → (e.conns c).refs = 0

/-- Every count is the number of descriptors, and `extra` besides. -/
structure Counted (files : RefHeap OpenFiles) (e : FdEnds) (extra : FdType → Nat) : Prop where
  ok : e.Ok
  opens : ∀ k, k.counted = true → e.opens k = descriptors files k + extra k

/-! ## One reference -/

section Ends

variable {e : FdEnds} {k k' : FdType} {i c : Nat}

theorem FdEnds.opens_setPipe (e : FdEnds) (i : Nat) (pb : PipeBuf) : (e.setPipe i pb).opens =
      update (update e.opens (.pipeRead i) (if pb.inUse then pb.readOpen else 0))
        (.pipeWrite i) (if pb.inUse then pb.writeOpen else 0) := by
  funext k
  cases k with
  | pipeRead j | pipeWrite j =>
    by_cases hj : j = i
    · subst hj
      simp [setPipe, opens]
    · simp [setPipe, opens, hj]
  | wm | none | other => rfl

/-- A change of one end's count changes only what is kept for that end. -/
theorem FdEnds.opens_setRead (huse : (e.pipes i).inUse = true) (n : Nat) :
    (e.setPipe i { e.pipes i with readOpen := n }).opens = update e.opens (.pipeRead i) n := by
  rw [opens_setPipe, update_comm (by simp)]
  simp only [huse, if_true]
  congr 1
  exact update_eq_self_iff.mpr (if_pos huse).symm

theorem FdEnds.opens_setWrite (huse : (e.pipes i).inUse = true) (n : Nat) :
    (e.setPipe i { e.pipes i with writeOpen := n }).opens = update e.opens (.pipeWrite i) n := by
  rw [opens_setPipe]
  simp only [huse, if_true]
  congr 1
  exact update_eq_self_iff.mpr (if_pos huse).symm

theorem FdEnds.opens_setConn (e : FdEnds) (c : Nat) (conn : WmConn) :
    (e.setConn c conn).opens = update e.opens (.wm c) (if conn.inUse then conn.refs else 0) := by
  funext k
  cases k with
  | wm c' =>
    by_cases hc : c' = c
    · subst hc
      simp [setConn, opens]
    · simp [setConn, opens, hc]
  | pipeRead | pipeWrite | none | other => rfl

theorem FdEnds.Ok.setPipe (he : e.Ok) {pb : PipeBuf}
    (hpb : pb.inUse = true → i < maxPipes ∧ 0 < pb.readOpen + pb.writeOpen) :
    (e.setPipe i pb).Ok where
  pipe j hj := by
    by_cases h : j = i
    · subst h
      simp only [FdEnds.setPipe, update_self] at hj ⊢
      exact hpb hj
    · simp only [FdEnds.setPipe, update_of_ne h] at hj ⊢
      exact he.pipe j hj
  conn := he.conn
  zero := he.zero

theorem FdEnds.Ok.setConn (he : e.Ok) {conn : WmConn}
    (huse : conn.inUse = true → c < wmdevMaxConnections ∧ 0 < conn.refs)
    (hzero : conn.inUse = false → conn.refs = 0) : (e.setConn c conn).Ok where
  pipe := he.pipe
  conn d hd := by
    by_cases h : d = c
    · subst h
      simp only [FdEnds.setConn, update_self] at hd ⊢
      exact huse hd
    · simp only [FdEnds.setConn, update_of_ne h] at hd ⊢
      exact he.conn d hd
  zero d hd := by
    by_cases h : d = c
    · subst h
      simp only [FdEnds.setConn, update_self] at hd ⊢
      exact hzero hd
    · simp only [FdEnds.setConn, update_of_ne h] at hd ⊢
      exact he.zero d hd

/-- A pipe end that is counted belongs to a pipe in use. -/
theorem pipeGet_eq (he : e.Ok) (hpos : 0 < e.opens (.pipeRead i) ∨ 0 < e.opens (.pipeWrite i)) :
    (e.pipes i).inUse = true ∧ i < maxPipes ∧ pipeGet e i = some (e.pipes i) := by
  have huse : (e.pipes i).inUse = true := by
    by_contra hno
    simp [FdEnds.opens, hno] at hpos
  have hi := (he.pipe i huse).1
  exact ⟨huse, hi, if_pos ⟨hi, huse⟩⟩

theorem connValid_eq (he : e.Ok) (hpos : 0 < e.opens (.wm c)) :
    (e.conns c).inUse = true ∧ connValid e c = true := by
  have huse : (e.conns c).inUse = true := by
    by_contra hno
    simp [FdEnds.opens, hno] at hpos
  refine ⟨huse, ?_⟩
  simp [connValid, huse, (he.conn c huse).1]

/-- One more reference to something that has one already. -/
theorem fdBumpOpenRef_spec (he : e.Ok) (hpos : k.counted = true → 0 < e.opens k)
    (hmax : e.opens k < uint32Max) :
    (fdBumpOpenRef e k).Ok ∧
      ∀ k', k'.counted = true → (fdBumpOpenRef e k).opens k' = e.opens k' + tick k k' := by
  cases k with
  | none | other =>
    refine ⟨he, fun k' hk' => ?_⟩
    rw [tick_ne (by rintro rfl; exact absurd hk' (by decide))]
    rfl
  | pipeRead i =>
    obtain ⟨huse, hi, hget⟩ := pipeGet_eq he (.inl (hpos rfl))
    have hcount : e.opens (.pipeRead i) = (e.pipes i).readOpen := if_pos huse
    simp only [fdBumpOpenRef, hget]
    refine ⟨he.setPipe fun _ => ⟨hi, by dsimp only; omega⟩, fun k' _ => ?_⟩
    rw [FdEnds.opens_setRead huse, ← hcount, update_bump]
  | pipeWrite i =>
    obtain ⟨huse, hi, hget⟩ := pipeGet_eq he (.inr (hpos rfl))
    have hcount : e.opens (.pipeWrite i) = (e.pipes i).writeOpen := if_pos huse
    simp only [fdBumpOpenRef, hget]
    refine ⟨he.setPipe fun _ => ⟨hi, by dsimp only; omega⟩, fun k' _ => ?_⟩
    rw [FdEnds.opens_setWrite huse, ← hcount, update_bump]
  | wm c =>
    obtain ⟨huse, hvalid⟩ := connValid_eq he (hpos rfl)
    have hcount : e.opens (.wm c) = (e.conns c).refs := if_pos huse
    have hrefs : (e.conns c).refs ≠ uint32Max := by omega
    simp only [fdBumpOpenRef, wmdevRetain, hvalid, Bool.not_true, Bool.false_eq_true, hrefs,
      or_self, if_false]
    refine ⟨he.setConn (fun _ => ⟨(he.conn c huse).1, by dsimp only; omega⟩)
      (fun h => absurd (huse.symm.trans h) (by simp)), fun k' _ => ?_⟩
    simp only [FdEnds.opens_setConn, huse, if_true]
    rw [← hcount, update_bump]

/-- Pipe `i` has counts `pb` from now on, and is freed if they are zero. -/
theorem closeEnd_spec (he : e.Ok) (hi : i < maxPipes) (pb : PipeBuf) (huse : pb.inUse = true) :
    (closeEnd e i pb).Ok ∧ (closeEnd e i pb).opens = (e.setPipe i pb).opens := by
  unfold closeEnd
  split
  next h0 =>
    have hfree : pipeFree (e.setPipe i pb) i = e.setPipe i { pb with inUse := false } := by
      rw [show pipeFree (e.setPipe i pb) i = _ from if_pos hi]
      simp [FdEnds.setPipe]
    rw [hfree]
    refine ⟨he.setPipe nofun, ?_⟩
    simp [FdEnds.opens_setPipe, huse, h0]
  next h0 => exact ⟨he.setPipe fun _ => ⟨hi, by omega⟩, rfl⟩

/-- One reference fewer. -/
theorem fdDropOpenRef_spec (he : e.Ok) (hpos : k.counted = true → 0 < e.opens k) :
    (fdDropOpenRef e k).Ok ∧
      ∀ k', k'.counted = true → (fdDropOpenRef e k).opens k' + tick k k' = e.opens k' := by
  cases k with
  | none | other =>
    refine ⟨he, fun k' hk' => ?_⟩
    rw [tick_ne (by rintro rfl; exact absurd hk' (by decide))]
    rfl
  | pipeRead i =>
    have hopen := hpos rfl
    obtain ⟨huse, hi, hget⟩ := pipeGet_eq he (.inl hopen)
    have hcount : e.opens (.pipeRead i) = (e.pipes i).readOpen := if_pos huse
    simp only [fdDropOpenRef, hget]
    obtain ⟨hok, hopens⟩ := closeEnd_spec he hi
      { e.pipes i with readOpen := (e.pipes i).readOpen - 1 } huse
    refine ⟨hok, fun k' _ => ?_⟩
    rw [hopens, FdEnds.opens_setRead huse, ← hcount, update_drop hopen]
  | pipeWrite i =>
    have hopen := hpos rfl
    obtain ⟨huse, hi, hget⟩ := pipeGet_eq he (.inr hopen)
    have hcount : e.opens (.pipeWrite i) = (e.pipes i).writeOpen := if_pos huse
    simp only [fdDropOpenRef, hget]
    obtain ⟨hok, hopens⟩ := closeEnd_spec he hi
      { e.pipes i with writeOpen := (e.pipes i).writeOpen - 1 } huse
    refine ⟨hok, fun k' _ => ?_⟩
    rw [hopens, FdEnds.opens_setWrite huse, ← hcount, update_drop hopen]
  | wm c =>
    have hopen := hpos rfl
    obtain ⟨huse, hvalid⟩ := connValid_eq he hopen
    have hcount : e.opens (.wm c) = (e.conns c).refs := if_pos huse
    simp only [fdDropOpenRef, wmdevClose, hvalid, Bool.not_true, Bool.false_eq_true, if_false]
    split
    next hmany =>
      refine ⟨he.setConn (fun _ => ⟨(he.conn c huse).1, by dsimp only; omega⟩)
        (fun h => absurd (huse.symm.trans h) (by simp)), fun k' _ => ?_⟩
      simp only [FdEnds.opens_setConn, huse, if_true]
      rw [← hcount, update_drop hopen]
    next hone =>
      refine ⟨he.setConn (fun hc => by cases hc) (fun _ => rfl), fun k' _ => ?_⟩
      have hlast : e.opens (.wm c) - 1 = 0 := by omega
      simp only [FdEnds.opens_setConn, Bool.false_eq_true, if_false]
      rw [← hlast, update_drop hopen]

end Ends

/-! ## Moves -/

section Moves

variable {files : RefHeap OpenFiles} {e : FdEnds} {extra extra' : FdType → Nat} {k : FdType}
  {t fd : Nat} {f : FileHandle} {fds : OpenFiles}

theorem descriptors_set (ht : t ∈ files.live) (hfd : fd < maxFds) (f : FileHandle) (k : FdType) :
    descriptors (files.set t (update (files.val t) fd f)) k + tick (files.val t fd).type k =
      descriptors files k + tick f.type k := by
  have hmem : (t, fd) ∈ files.live ×ˢ Finset.range maxFds :=
    Finset.mem_product.mpr ⟨ht, Finset.mem_range.mpr hfd⟩
  have hother : ∀ y ∈ files.live ×ˢ Finset.range maxFds, y ≠ (t, fd) →
      ((files.val y.1 y.2).type == k) =
        (((files.set t (update (files.val t) fd f)).val y.1 y.2).type == k) := by
    rintro ⟨t', fd'⟩ - hne
    by_cases ht' : t' = t
    · subst ht'
      have hfd' : fd' ≠ fd := fun h => hne (by rw [h])
      rw [RefHeap.set_val_self, update_of_ne hfd']
    · rw [show (files.set t (update (files.val t) fd f)).val t' = files.val t' from
        update_of_ne ht' ..]
  have hcount := count_update hmem hother
  rw [RefHeap.set_val_self, update_self, ite_beq_eq_tick, ite_beq_eq_tick] at hcount
  exact hcount

theorem descriptors_create (ht : t ∉ files.live) (fds : OpenFiles) (k : FdType) :
    descriptors (files.create t fds) k = descriptors files k + entriesOf fds k := by
  unfold descriptors entriesOf
  rw [show (files.create t fds).live = insert t files.live from rfl, count_insert_product ht]
  dsimp only
  rw [RefHeap.create_val_self]
  congr 1
  apply count_congr
  rintro ⟨t', fd⟩ hmem
  have hne : t' ≠ t := fun h => ht (h ▸ (Finset.mem_product.mp hmem).1)
  rw [files.create_val_ne fds hne]

theorem descriptors_free (ht : t ∈ files.live) (k : FdType) :
    descriptors files k = descriptors (files.free t) k + entriesOf (files.val t) k := by
  unfold descriptors entriesOf
  conv_lhs => rw [← Finset.insert_erase ht]
  rw [count_insert_product (Finset.notMem_erase t files.live)]
  rfl

theorem descriptors_pos (ht : t ∈ files.live) (hfd : fd < maxFds) :
    0 < descriptors files (files.val t fd).type :=
  count_pos (x := (t, fd)) (Finset.mem_product.mpr ⟨ht, Finset.mem_range.mpr hfd⟩) (by simp)

theorem descriptors_le (files : RefHeap OpenFiles) (k : FdType) :
    descriptors files k ≤ files.live.card * maxFds := by
  refine (Finset.card_filter_le _ _).trans ?_
  rw [Finset.card_product, Finset.card_range]

/-- Only the counted types matter. -/
theorem Counted.congr (hc : Counted files e extra)
    (h : ∀ k, k.counted = true → extra' k = extra k) : Counted files e extra' :=
  ⟨hc.ok, fun k hk => by rw [hc.opens k hk, h k hk]⟩

/-- An entry of a type without a count is no reference. -/
theorem Counted.tick_uncounted (hk : k.counted = false) :
    Counted files e (extra + tick k) ↔ Counted files e extra := by
  have h : ∀ k' : FdType, k'.counted = true → (extra + tick k) k' = extra k' := by
    intro k' hk'
    have hne : k' ≠ k := by
      rintro rfl
      exact absurd (hk.symm.trans hk') (by simp)
    rw [Pi.add_apply, tick_ne hne, Nat.add_zero]
  exact ⟨fun hc => hc.congr fun k hk => (h k hk).symm, fun hc => hc.congr h⟩

theorem Counted.bump (hc : Counted files e extra) (hpos : k.counted = true → 0 < e.opens k)
    (hmax : e.opens k < uint32Max) : Counted files (fdBumpOpenRef e k) (extra + tick k) := by
  obtain ⟨hok, hopens⟩ := fdBumpOpenRef_spec hc.ok hpos hmax
  refine ⟨hok, fun k' hk' => ?_⟩
  rw [hopens k' hk', hc.opens k' hk', Pi.add_apply, Nat.add_assoc]

theorem Counted.drop (hc : Counted files e (extra + tick k)) :
    Counted files (fdDropOpenRef e k) extra := by
  have hpos : k.counted = true → 0 < e.opens k := by
    intro hk
    rw [hc.opens k hk, Pi.add_apply, tick_self]
    omega
  obtain ⟨hok, hopens⟩ := fdDropOpenRef_spec hc.ok hpos
  refine ⟨hok, fun k' hk' => ?_⟩
  have h1 := hopens k' hk'
  have h2 := hc.opens k' hk'
  rw [Pi.add_apply] at h2
  omega

/-- An entry takes over a reference, and what it was is a reference on its way. -/
theorem Counted.setEntry (hc : Counted files e (extra + tick f.type)) (ht : t ∈ files.live)
    (hfd : fd < maxFds) :
    Counted (files.set t (update (files.val t) fd f)) e
      (extra + tick (files.val t fd).type) := by
  refine ⟨hc.ok, fun k hk => ?_⟩
  have h1 := descriptors_set ht hfd f k
  have h2 := hc.opens k hk
  rw [Pi.add_apply] at h2 ⊢
  omega

/-- The flags of an entry are no matter. -/
theorem Counted.setFlags (hc : Counted files e extra) (ht : t ∈ files.live) (hfd : fd < maxFds)
    (hfh : f.type = (files.val t fd).type) :
    Counted (files.set t (update (files.val t) fd f)) e extra := by
  refine ⟨hc.ok, fun k hk => ?_⟩
  have h1 := descriptors_set ht hfd f k
  rw [hfh] at h1
  rw [hc.opens k hk]
  omega

theorem Counted.create (hc : Counted files e (extra + entriesOf fds)) (ht : t ∉ files.live) :
    Counted (files.create t fds) e extra := by
  refine ⟨hc.ok, fun k hk => ?_⟩
  rw [hc.opens k hk, descriptors_create ht, Pi.add_apply]
  omega

theorem Counted.free (hc : Counted files e extra) (ht : t ∈ files.live) :
    Counted (files.free t) e (extra + entriesOf (files.val t)) := by
  refine ⟨hc.ok, fun k hk => ?_⟩
  rw [hc.opens k hk, descriptors_free ht, Pi.add_apply]
  omega

/-- `proc_fd_table_close_all` drops one reference per entry. -/
theorem Counted.closeAll (hc : Counted files e (extra + entriesOf fds)) :
    Counted files (fdTableCloseAll e fds) extra := by
  -- After `n` rounds the references of the entries from `n` on are left.
  have hinv := foldl_range_inv (f := fun e i => fdDropOpenRef e (fds i).type) (n := maxFds)
    (fun n e => Counted files e
      (extra + fun k => count (Finset.Ico n maxFds) fun fd => (fds fd).type == k))
    (by rw [← Finset.range_eq_Ico]; exact hc)
    (by
      intro n hn e he
      refine Counted.drop (he.congr fun k _ => ?_)
      simp only [Pi.add_apply, count_Ico_succ hn, ite_beq_eq_tick]
      omega)
  refine hinv.congr fun k _ => ?_
  simp [count]

/-- `proc_fd_table_bump_open_refs` makes one reference per entry. -/
theorem Counted.bumpAll (hc : Counted files e extra)
    (hpos : ∀ fd < maxFds, (fds fd).type.counted = true → 0 < e.opens (fds fd).type)
    (hmax : ∀ k, e.opens k + maxFds ≤ uint32Max) :
    Counted files (fdTableBumpOpenRefs e fds) (extra + entriesOf fds) := by
  refine foldl_range_inv
    (fun n e => Counted files e
      (extra + fun k => count (Finset.range n) fun fd => (fds fd).type == k)) ?_ ?_
  · refine hc.congr fun k _ => ?_
    simp [count]
  · intro n hn e' he'
    have hopens : ∀ k, k.counted = true →
        e'.opens k = e.opens k + count (Finset.range n) fun fd => (fds fd).type == k := by
      intro k hk
      rw [he'.opens k hk, hc.opens k hk, Pi.add_apply]
      omega
    have hle : (fds n).type.counted = true → e'.opens (fds n).type < uint32Max := by
      intro hk
      have hcount : count (Finset.range n) (fun fd => (fds fd).type == (fds n).type) ≤ n :=
        (Finset.card_filter_le _ _).trans (Finset.card_range n).le
      have := hmax (fds n).type
      rw [hopens _ hk]
      omega
    have hlt : e'.opens (fds n).type < uint32Max := by
      cases hk : (fds n).type with
      | none | other => exact Nat.zero_lt_succ _
      | pipeRead i | pipeWrite i | wm i => exact hk ▸ hle (by rw [hk]; rfl)
    refine (he'.bump (fun hk => ?_) hlt).congr fun k _ => ?_
    · have := hpos n hn hk
      rw [hopens _ hk]
      omega
    · simp only [Pi.add_apply, Finset.range_add_one, count_insert Finset.notMem_range_self,
        ite_beq_eq_tick]
      omega

end Moves

/-! ## Calls -/

/-- The same tables with the same counts; their entries may differ. -/
def FdHeap.SameTables (h h' : FdHeap) : Prop := ∃ v, h'.files = { h.files with val := v }

section SameTables

variable (h : FdHeap) (t : Nat)

theorem FdHeap.SameTables.refl : h.SameTables h := ⟨_, rfl⟩

theorem FdHeap.SameTables.live {h h' : FdHeap} (hs : h.SameTables h') :
    h'.files.live = h.files.live := by
  obtain ⟨v, hv⟩ := hs
  rw [hv]

theorem FdHeap.SameTables.trans {h h' h'' : FdHeap} (hs : h.SameTables h')
    (hs' : h'.SameTables h'') : h.SameTables h'' := by
  obtain ⟨v, hv⟩ := hs
  obtain ⟨v', hv'⟩ := hs'
  exact ⟨v', by rw [hv', hv]⟩

theorem fdDuplicateFrom_sameTables (oldfd minfd : Nat) (cloexec : Bool) :
    h.SameTables (fdDuplicateFrom h t oldfd minfd cloexec).2 := by
  unfold fdDuplicateFrom
  dsimp only
  split
  · exact .refl h
  split
  · exact .refl h
  split
  · exact .refl h
  · exact ⟨_, rfl⟩

theorem syscallClose_sameTables (fd : Nat) : h.SameTables (syscallClose h t fd).2 := by
  unfold syscallClose
  split
  · exact .refl h
  split
  · exact .refl h
  · exact ⟨_, rfl⟩

theorem syscallDup_sameTables (oldfd : Nat) : h.SameTables (syscallDup h t oldfd).2 := by
  have hdup := fdDuplicateFrom_sameTables h t oldfd 0 false
  unfold syscallDup
  split
  next heq => rw [heq] at hdup; exact hdup
  next heq => rw [heq] at hdup; exact hdup

theorem syscallDup2_sameTables (oldfd newfd : Nat) :
    h.SameTables (syscallDup2 h t oldfd newfd).2 := by
  unfold syscallDup2
  split
  · exact .refl h
  split
  · exact .refl h
  split
  · exact .refl h
  split
  · exact ⟨_, rfl⟩
  · exact ⟨_, rfl⟩

theorem syscallFcntl_sameTables (fd : Nat) (cmd : FcntlCmd) :
    h.SameTables (syscallFcntl h t fd cmd).2 := by
  unfold syscallFcntl
  split
  · exact .refl h
  split
  · exact .refl h
  cases cmd with
  | dupfd minfd => exact fdDuplicateFrom_sameTables h t fd minfd false
  | dupfdCloexec minfd => exact fdDuplicateFrom_sameTables h t fd minfd true
  | setfd b | setfl b => exact ⟨_, rfl⟩

theorem syscallPipe_sameTables (ebx : Nat) (copyOut : Bool) :
    h.SameTables (syscallPipe h t ebx copyOut).2 := by
  unfold syscallPipe
  split
  · exact .refl h
  split
  · exact .refl h
  dsimp only
  split
  · exact .refl h
  split
  · exact ⟨_, rfl⟩
  split
  · exact ⟨_, rfl⟩
  · exact ⟨_, rfl⟩

theorem pipe2SetFlags_sameTables (cloexec nonblock : Bool) (fds : List Int) :
    h.SameTables (pipe2SetFlags t cloexec nonblock fds h).2 := by
  induction fds generalizing h with
  | nil => exact .refl h
  | cons fd rest ih =>
    unfold pipe2SetFlags
    split
    · exact .refl h
    · exact FdHeap.SameTables.trans ⟨_, rfl⟩ (ih _)

theorem syscallPipe2_sameTables (ebx : Nat) (flags : Pipe2Flags) (copyOut : Bool)
    (back : Option (List Int)) : h.SameTables (syscallPipe2 h t ebx flags copyOut back).2 := by
  have hpipe := syscallPipe_sameTables h t ebx copyOut
  unfold syscallPipe2
  split
  · exact .refl h
  dsimp only
  split
  · exact hpipe
  cases back with
  | none => exact hpipe
  | some fds => exact hpipe.trans (pipe2SetFlags_sameTables _ t _ _ _)

theorem fdInstallVfsNode_sameTables (wm cloexec nonblock : Bool) :
    h.SameTables (fdInstallVfsNode h t wm cloexec nonblock).2 := by
  unfold fdInstallVfsNode
  split
  · exact .refl h
  split
  · split
    · exact ⟨_, rfl⟩
    · exact ⟨_, rfl⟩
  · exact ⟨_, rfl⟩

end SameTables

/-- The table `t` exists, there are no more tables than tasks, and the counts are right. -/
structure FdHeap.Good (h : FdHeap) (t : Nat) : Prop where
  live : t ∈ h.files.live
  few : h.files.live.card ≤ maxProcs
  counted : Counted h.files h.ends 0

section Calls

variable {h : FdHeap} {t fd : Nat} {f : FileHandle} {extra : FdType → Nat} {k : FdType}

/-- No count is near its limit. -/
theorem Counted.room {files : RefHeap OpenFiles} {e : FdEnds} (hc : Counted files e 0)
    (hfew : files.live.card ≤ maxProcs) (k : FdType) : e.opens k + maxFds ≤ uint32Max := by
  have hle := descriptors_le files k
  have hk : e.opens k ≤ descriptors files k := by
    by_cases hk : k.counted = true
    · exact (hc.opens k hk).le
    · cases k with
      | none | other => exact Nat.zero_le _
      | pipeRead i | pipeWrite i | wm i => exact absurd rfl hk
  simp only [maxProcs, maxFds, uint32Max] at *
  omega

/-- A descriptor of the tables is counted. -/
theorem Counted.opens_pos {files : RefHeap OpenFiles} {e : FdEnds} (hc : Counted files e extra)
    (ht : t ∈ files.live) (hfd : fd < maxFds) (hk : (files.val t fd).type.counted = true) :
    0 < e.opens (files.val t fd).type := by
  have := descriptors_pos ht hfd
  rw [hc.opens _ hk]
  omega

theorem fdAlloc_some (hfd : fdAlloc h t = some fd) :
    fd < maxFds ∧ (h.files.val t fd).type = .none := by
  refine ⟨List.mem_range.mp (List.mem_of_find?_eq_some hfd), ?_⟩
  simpa using List.find?_some hfd

theorem Counted.fdCloseOne (hc : Counted h.files h.ends extra) (ht : t ∈ h.files.live)
    (hfd : fd < maxFds) :
    Counted (fdCloseOne h t fd).files (fdCloseOne h t fd).ends extra :=
  (Counted.setEntry ((Counted.tick_uncounted rfl).mpr hc) ht hfd).drop

/-- A free entry takes over a reference. -/
theorem Counted.fill (hc : Counted h.files h.ends (extra + tick f.type)) (ht : t ∈ h.files.live)
    (hfd : fd < maxFds) (hfree : (h.files.val t fd).type = .none) :
    Counted (h.setEntry t fd f).files h.ends extra := by
  have hset := hc.setEntry ht hfd
  rw [hfree] at hset
  exact (Counted.tick_uncounted rfl).mp hset

/-- Entry `fd`, which is free, becomes a copy of entry `oldfd`, and the count follows. -/
theorem FdHeap.Good.copy (hg : h.Good t) {oldfd : Nat} (hold : oldfd < maxFds)
    (hfd : fd < maxFds) (hfree : (h.files.val t fd).type = .none)
    (hfh : f.type = (h.files.val t oldfd).type) :
    Counted (h.setEntry t fd f).files (fdBumpOpenRef h.ends f.type) 0 := by
  have hbump := hg.counted.bump (k := f.type)
    (fun hk => by rw [hfh] at hk ⊢; exact hg.counted.opens_pos hg.live hold hk)
    (by
      have := hg.counted.room hg.few f.type
      omega)
  exact Counted.fill (h := { h with ends := fdBumpOpenRef h.ends f.type }) hbump hg.live hfd hfree

theorem FdHeap.Good.fdDuplicateFrom (hg : h.Good t) (oldfd minfd : Nat) (cloexec : Bool) :
    Counted (fdDuplicateFrom h t oldfd minfd cloexec).2.files
      (fdDuplicateFrom h t oldfd minfd cloexec).2.ends 0 := by
  unfold Proc.fdDuplicateFrom
  dsimp only
  split
  · exact hg.counted
  next hrange =>
  split
  · exact hg.counted
  next hused =>
  cases hfind : (List.range maxFds).find? fun fd =>
      decide (minfd ≤ fd ∧ (h.files.val t fd).type = .none) with
  | none => exact hg.counted
  | some fd =>
    have hfd : fd < maxFds := List.mem_range.mp (List.mem_of_find?_eq_some hfind)
    have hfree : minfd ≤ fd ∧ (h.files.val t fd).type = .none := by
      simpa using List.find?_some hfind
    have hcopy := hg.copy (f := { h.files.val t oldfd with cloexec := cloexec })
      (show oldfd < maxFds by omega) hfd hfree.2 rfl
    dsimp only [FdHeap.setEntry]
    rw [RefHeap.set_val_self, update_self]
    exact hcopy

theorem FdHeap.Good.syscallDup (hg : h.Good t) (oldfd : Nat) :
    Counted (syscallDup h t oldfd).2.files (syscallDup h t oldfd).2.ends 0 := by
  have hdup := hg.fdDuplicateFrom oldfd 0 false
  unfold Proc.syscallDup
  split
  next heq => rw [heq] at hdup; exact hdup
  next heq => rw [heq] at hdup; exact hdup

theorem FdHeap.Good.syscallClose (hg : h.Good t) (fd : Nat) :
    Counted (syscallClose h t fd).2.files (syscallClose h t fd).2.ends 0 := by
  unfold Proc.syscallClose
  split
  · exact hg.counted
  next hfd =>
    split
    · exact hg.counted
    · exact hg.counted.fdCloseOne hg.live (by omega)

theorem FdHeap.Good.syscallDup2 (hg : h.Good t) (oldfd newfd : Nat) :
    Counted (syscallDup2 h t oldfd newfd).2.files (syscallDup2 h t oldfd newfd).2.ends 0 := by
  unfold Proc.syscallDup2
  split
  · exact hg.counted
  next hrange =>
  split
  · exact hg.counted
  next hused =>
  split
  · exact hg.counted
  next hne =>
  -- The new descriptor is free from here on, whether it was open or not.
  obtain ⟨h', hh', hg', hfree⟩ : ∃ h', (if (h.files.val t newfd).type ≠ .none then
      Proc.fdCloseOne h t newfd else h) = h' ∧ h'.Good t ∧
        (h'.files.val t newfd).type = .none := by
    refine ⟨_, rfl, ?_⟩
    split
    · refine ⟨⟨hg.live, hg.few, hg.counted.fdCloseOne hg.live (by omega)⟩, ?_⟩
      simp [Proc.fdCloseOne, FdHeap.setEntry, RefHeap.set_val_self]
    next hfree => exact ⟨hg, by simpa using hfree⟩
  rw [hh']
  have hcopy := hg'.copy (f := { h'.files.val t oldfd with cloexec := false })
    (show oldfd < maxFds by omega) (show newfd < maxFds by omega) hfree rfl
  dsimp only [FdHeap.setEntry]
  rw [RefHeap.set_val_self, update_self]
  exact hcopy

theorem FdHeap.Good.syscallFcntl (hg : h.Good t) (fd : Nat) (cmd : FcntlCmd) :
    Counted (syscallFcntl h t fd cmd).2.files (syscallFcntl h t fd cmd).2.ends 0 := by
  unfold Proc.syscallFcntl
  split
  · exact hg.counted
  next hfd =>
    split
    · exact hg.counted
    cases cmd with
    | dupfd minfd => exact hg.fdDuplicateFrom fd minfd false
    | dupfdCloexec minfd => exact hg.fdDuplicateFrom fd minfd true
    | setfd b | setfl b => exact hg.counted.setFlags hg.live (by omega) rfl

/-! ## pipe and open -/

/-- A new pipe has a reference to each of its ends. -/
theorem Counted.pipeAlloc {files : RefHeap OpenFiles} {e e' : FdEnds} {i : Nat}
    (hc : Counted files e 0) (hi : pipeAlloc e = some (i, e')) :
    Counted files e' (0 + tick (.pipeWrite i) + tick (.pipeRead i)) ∧
      Counted files (pipeFree e' i) 0 := by
  unfold Proc.pipeAlloc at hi
  split at hi
  · cases hi
  next j hfind =>
  obtain ⟨rfl, rfl⟩ : j = i ∧ e.setPipe j (e.pipes j).alloc = e' := by simpa using hi
  have hlt : j < maxPipes := List.mem_range.mp (List.mem_of_find?_eq_some hfind)
  have huse : (e.pipes j).inUse = false := by simpa using List.find?_some hfind
  have hread : descriptors files (.pipeRead j) = 0 := by
    simpa [FdEnds.opens, huse] using (hc.opens (.pipeRead j) rfl).symm
  have hwrite : descriptors files (.pipeWrite j) = 0 := by
    simpa [FdEnds.opens, huse] using (hc.opens (.pipeWrite j) rfl).symm
  have hok : (e.setPipe j (e.pipes j).alloc).Ok := hc.ok.setPipe fun _ => ⟨hlt, Nat.two_pos⟩
  constructor
  · refine ⟨hok, fun k hk => ?_⟩
    rw [FdEnds.opens_setPipe]
    by_cases h1 : k = .pipeRead j
    · subst h1
      simp [PipeBuf.alloc, hread, tick]
    · by_cases h2 : k = .pipeWrite j
      · subst h2
        simp [PipeBuf.alloc, hwrite, tick]
      · simpa [h1, h2, tick] using hc.opens k hk
  · rw [show Proc.pipeFree (e.setPipe j (e.pipes j).alloc) j = _ from if_pos hlt]
    refine ⟨hok.setPipe (by simp), fun k hk => ?_⟩
    rw [FdEnds.opens_setPipe, FdEnds.opens_setPipe]
    by_cases h1 : k = .pipeRead j
    · subst h1
      simp [hread]
    · by_cases h2 : k = .pipeWrite j
      · subst h2
        simp [hwrite]
      · simpa [h1, h2] using hc.opens k hk

/-- A table in which no entry is free once `rfd` is taken had one free entry. -/
theorem entriesOf_none_eq_one {rfd : Nat} (hrfd : fdAlloc h t = some rfd)
    (hfh : f.type ≠ .none) (hfull : fdAlloc (h.setEntry t rfd f) t = none) :
    entriesOf (h.files.val t) .none = 1 := by
  obtain ⟨hlt, hfree⟩ := fdAlloc_some hrfd
  have hval : (h.setEntry t rfd f).files.val t = update (h.files.val t) rfd f :=
    RefHeap.set_val_self ..
  have hzero : entriesOf ((h.setEntry t rfd f).files.val t) .none = 0 := by
    unfold entriesOf
    rw [count_eq_zero]
    intro fd hfd
    have := List.find?_eq_none.mp hfull fd (by simpa using hfd)
    simpa using this
  have hupd := count_update (Finset.mem_range.mpr hlt)
    (q := fun fd => ((h.setEntry t rfd f).files.val t fd).type == FdType.none)
    fun fd _ hne => by rw [hval, update_of_ne hne]
  rw [hval, update_self, hfree] at hupd
  simp only [beq_self_eq_true, if_true, beq_iff_eq, hfh, if_false] at hupd
  rw [hval] at hzero
  unfold entriesOf at hzero ⊢
  omega

/-- `pipe()` keeps the counts if the table does not have exactly one free entry. -/
theorem FdHeap.Good.syscallPipe (hg : h.Good t) (hroom : entriesOf (h.files.val t) .none ≠ 1)
    (ebx : Nat) (copyOut : Bool) :
    Counted (syscallPipe h t ebx copyOut).2.files (syscallPipe h t ebx copyOut).2.ends 0 := by
  unfold Proc.syscallPipe
  split
  · exact hg.counted
  split
  · exact hg.counted
  next pipeIdx ends halloc =>
  obtain ⟨hboth, hundone⟩ := hg.counted.pipeAlloc halloc
  dsimp only
  split
  · exact hundone
  next rfd hrfd =>
  obtain ⟨hrlt, hrfree⟩ := fdAlloc_some hrfd
  have hone := Counted.fill (h := { h with ends := ends })
    (f := { type := .pipeRead pipeIdx }) hboth hg.live hrlt hrfree
  split
  next hfull => exact absurd (entriesOf_none_eq_one hrfd (by simp) hfull) hroom
  next wfd hwfd =>
    obtain ⟨hwlt, hwfree⟩ := fdAlloc_some hwfd
    have hnone := Counted.fill (f := { type := .pipeWrite pipeIdx }) hone hg.live hwlt hwfree
    split
    · exact hnone
    · exact (hnone.fdCloseOne hg.live hwlt).fdCloseOne hg.live hrlt

theorem pipe2SetFlags_counted {cloexec nonblock : Bool} (fds : List Int) (ht : t ∈ h.files.live)
    (hc : Counted h.files h.ends 0) :
    Counted (pipe2SetFlags t cloexec nonblock fds h).2.files
      (pipe2SetFlags t cloexec nonblock fds h).2.ends 0 := by
  induction fds generalizing h with
  | nil => exact hc
  | cons fd rest ih =>
    unfold pipe2SetFlags
    split
    · exact hc
    next hfd => exact ih ht (hc.setFlags ht (by omega) rfl)

theorem FdHeap.Good.syscallPipe2 (hg : h.Good t) (hroom : entriesOf (h.files.val t) .none ≠ 1)
    (ebx : Nat) (flags : Pipe2Flags) (copyOut : Bool) (back : Option (List Int)) :
    Counted (syscallPipe2 h t ebx flags copyOut back).2.files
      (syscallPipe2 h t ebx flags copyOut back).2.ends 0 := by
  have hpipe := hg.syscallPipe hroom ebx copyOut
  unfold Proc.syscallPipe2
  split
  · exact hg.counted
  dsimp only
  split
  · exact hpipe
  cases back with
  | none => exact hpipe
  | some fds =>
    exact pipe2SetFlags_counted _ ((syscallPipe_sameTables h t ebx copyOut).live ▸ hg.live) hpipe

theorem Counted.wmdevOpen {files : RefHeap OpenFiles} {e e' : FdEnds} {c : Nat}
    (hc : Counted files e 0) (ho : wmdevOpen e = some (c, e')) :
    Counted files e' (0 + tick (.wm c)) := by
  unfold Proc.wmdevOpen at ho
  split at ho
  · cases ho
  next d hfind =>
  obtain ⟨rfl, rfl⟩ : d = c ∧ e.setConn d { inUse := true, refs := 1 } = e' := by simpa using ho
  have hlt : d < wmdevMaxConnections := List.mem_range.mp (List.mem_of_find?_eq_some hfind)
  have huse : (e.conns d).inUse = false := by simpa using List.find?_some hfind
  have hzero : descriptors files (.wm d) = 0 := by
    simpa [FdEnds.opens, huse] using (hc.opens (.wm d) rfl).symm
  refine ⟨hc.ok.setConn (fun _ => ⟨hlt, Nat.one_pos⟩) (by simp), fun k hk => ?_⟩
  rw [FdEnds.opens_setConn]
  by_cases h1 : k = .wm d
  · subst h1
    simp [hzero]
  · simpa [h1, tick] using hc.opens k hk

theorem FdHeap.Good.fdInstallVfsNode (hg : h.Good t) (wm cloexec nonblock : Bool) :
    Counted (fdInstallVfsNode h t wm cloexec nonblock).2.files
      (fdInstallVfsNode h t wm cloexec nonblock).2.ends 0 := by
  unfold Proc.fdInstallVfsNode
  split
  · exact hg.counted
  next fd hfd =>
  obtain ⟨hlt, hfree⟩ := fdAlloc_some hfd
  split
  · split
    · exact Counted.fill ((Counted.tick_uncounted rfl).mpr hg.counted) hg.live hlt hfree
    next conn ends hopen =>
      exact Counted.fill (h := { h with ends := ends }) (hg.counted.wmdevOpen hopen) hg.live hlt
        hfree
  · exact Counted.fill ((Counted.tick_uncounted rfl).mpr hg.counted) hg.live hlt hfree

/-! ## Whole tables -/

/-- `proc_fd_table_dup`. -/
theorem FdHeap.Good.fdTableDup (hg : h.Good t) {dup : Nat} (hdup : dup ∉ h.files.live) :
    Counted (fdTableDup h dup t).files (fdTableDup h dup t).ends 0 :=
  (hg.counted.bumpAll (fun _ hfd hk => hg.counted.opens_pos hg.live hfd hk)
    (hg.counted.room hg.few)).create hdup

theorem Counted.fdTablePut (hc : Counted h.files h.ends extra) (ht : t ∈ h.files.live) :
    Counted (fdTablePut h t).files (fdTablePut h t).ends extra := by
  have hdec : Counted (h.files.dec t) h.ends extra := ⟨hc.ok, hc.opens⟩
  unfold Proc.fdTablePut
  dsimp only
  split
  · exact Counted.closeAll (hdec.free ht)
  · exact hdec

end Calls

end Drunix.Proc
