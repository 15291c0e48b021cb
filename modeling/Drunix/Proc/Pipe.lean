import Drunix.Lib.Loop
import Drunix.Lib.Ring
import Drunix.Mm.Fault

/-!
# Pipes

`proc/pipe.c` and the pipe branches of `syscall_write_fd` and `syscall_read_fd`
(`proc/syscall/fd.c`), with the wait queue that readers and writers share. Processes
switch only in `sched_block`, so that a step of the system is one run of a call: from its
start, or from where it slept, to where it sleeps or returns.

`pipe_fifo`: in every run the bytes stored are the bytes delivered followed by those in the
ring, and the bytes that a call stored are as many of its buffer as its result says.

Mirroring notes:
- A call in progress keeps its `pb` pointer, so that a run goes on with the slot whatever
  was closed meanwhile, also after the slot was freed and taken again (`pipe_alloc`).
- The wait in front of the loop over a chunk is the one before its first byte: a chunk has
  at least one byte, and the two are the same code.
- The bytes of a call's buffer are those it had when the call began. Whether its pages can
  be reached may change while the call sleeps (`Env.reachable`), as may `nonblock`, and
  signals may come.
- `log`, `delivered` and `returned` record what happened; nothing depends on them.
-/

namespace Drunix.Proc

open Lib Function
open Mm (userStackTop uaccessRangeOk chunkAddrs translateEach uaccessPrepare mem_chunkAddrs)

/-! ## pipe.c -/

/-- `PIPE_BUF_SIZE`. -/
def pipeBufSize : Nat := 4096

/-- `USER_IO_CHUNK`. -/
def userIoChunk : Nat := 512

/-- `pipe_buf_t`, without the wait queue. -/
structure PipeBuf extends RingBuf UInt8 where
  readOpen : Nat
  writeOpen : Nat
  inUse : Bool

/-- `pipe_alloc`, at the slot it takes. -/
def PipeBuf.alloc (p : PipeBuf) : PipeBuf :=
  { p with
    readIdx := 0, writeIdx := 0, count := 0, readOpen := 1, writeOpen := 1, inUse := true }

/-! ## User memory -/

/-- What a run of a call finds: the flag of its descriptor, whether a signal is pending for
its process, and the addresses for which `uaccess_translate` succeeds. -/
structure Env where
  nonblock : Bool
  signal : Bool
  reachable : Nat → Bool

/-- `uaccess_prepare` succeeds, and with it `uaccess_copy_from_user` and
`uaccess_copy_to_user`, which translate the same addresses once more. -/
def Env.prepares (env : Env) (addr len : Nat) : Bool :=
  (uaccessPrepare (fun addr s => (if env.reachable addr then 0 else -1, s)) addr len ()).1 = 0

/-- Every byte of the range can be reached. -/
structure Env.Buffer (env : Env) (addr len : Nat) : Prop where
  range : uaccessRangeOk addr len = true
  bytes : ∀ i < len, env.reachable (addr + i) = true

/-- What `uaccess_prepare` accepts can be reached to its last byte. -/
def Env.Whole (env : Env) (addr len : Nat) : Prop :=
  env.prepares addr len = true → env.Buffer addr len

/-! ## syscall_write_fd -/

/-- `-LINUX_EAGAIN`. -/
def eagain : Int := -11

/-- The locals of a write call: `copied`, and what the chunk in `kbuf` still has. -/
structure Writer where
  id : Nat
  addr : Nat
  buf : List UInt8
  copied : Nat
  kbuf : List UInt8
deriving DecidableEq

/-- Where a run of a call ends: asleep, with a result, or with a result after
`sched_wake_all`. -/
inductive Stop where
  | block
  | ret (r : Int)
  | wake (r : Int)
deriving DecidableEq

/-- What a run of a write call works on. -/
structure WriteState where
  pipe : PipeBuf
  writer : Writer
  log : List (Nat × UInt8)

/-- `copied ? copied : err`. -/
def copiedOr (copied : Nat) (err : Int) : Int := if copied ≠ 0 then copied else err

/-- The wait for room: `none` if there is. -/
def waitRoom (env : Env) (p : PipeBuf) (copied : Nat) : Option Stop :=
  if p.count = pipeBufSize then
    if env.nonblock then some (.ret (copiedOr copied eagain))
    else if p.readOpen = 0 ∨ env.signal then some (.ret (copiedOr copied (-1)))
    else some .block
  else none

/-- The first byte of the chunk is stored. -/
def storeByte (s : WriteState) (b : UInt8) (rest : List UInt8) : WriteState :=
  { pipe := { s.pipe with toRingBuf := s.pipe.toRingBuf.push pipeBufSize b }
    writer := { s.writer with copied := s.writer.copied + 1, kbuf := rest }
    log := s.log ++ [(s.writer.id, b)] }

/-- The loop over a chunk. -/
def storeLoop (env : Env) : List UInt8 → WriteState → Option Stop × WriteState
  | [], s => (none, s)
  | b :: rest, s =>
    match waitRoom env s.pipe s.writer.copied with
    | some stop => (some stop, s)
    | none => storeLoop env rest (storeByte s b rest)

/-- The loop over the chunks. -/
def writeLoop (env : Env) : Nat → WriteState → Stop × WriteState
  | 0, s => (.wake s.writer.copied, s)
  | fuel + 1, s =>
    let w := s.writer
    if w.copied < w.buf.length then
      let chunk := min (w.buf.length - w.copied) userIoChunk
      if env.prepares (u32 (w.addr + w.copied)) chunk then
        let kbuf := (w.buf.drop w.copied).take chunk
        match storeLoop env kbuf { s with writer := { w with kbuf := kbuf } } with
        | (some stop, s) => (stop, s)
        | (none, s) => writeLoop env fuel s
      else (.ret (copiedOr w.copied (-1)), s)
    else (.wake w.copied, s)

/-- A run of a write call: what `kbuf` still has, then the other chunks. -/
def writeRun (env : Env) (s : WriteState) : Stop × WriteState :=
  match storeLoop env s.writer.kbuf s with
  | (some stop, s) => (stop, s)
  | (none, s) => writeLoop env (s.writer.buf.length + 1) s

/-- The checks before the first byte. -/
def writeRefused (env : Env) (p : PipeBuf) (addr count : Nat) : Bool :=
  p.inUse = false || p.readOpen = 0 || !env.prepares addr count

/-! ## syscall_read_fd -/

/-- The loop that fills `kbuf` from the ring: the bytes, and `read_idx` after them. -/
def fetchChunk (buf : Nat → UInt8) : Nat → Nat → List UInt8 × Nat
  | 0, idx => ([], idx)
  | n + 1, idx =>
    let (kbuf, stop) := fetchChunk buf n ((idx + 1) % pipeBufSize)
    (buf idx :: kbuf, stop)

/-- What a run of a read call works on: the pipe, and the bytes copied to the user. -/
structure ReadState where
  pipe : PipeBuf
  out : List UInt8

/-- The loop over the chunks. -/
def readLoop (env : Env) (addr toRead : Nat) : Nat → Nat → ReadState → Stop × ReadState
  | 0, copied, s => (.ret (copiedOr copied (-1)), s)
  | fuel + 1, copied, s =>
    if copied < toRead then
      let chunk := min (toRead - copied) userIoChunk
      let (kbuf, idx) := fetchChunk s.pipe.buf chunk s.pipe.readIdx
      let pipe := { s.pipe with readIdx := idx }
      if env.prepares (u32 (addr + copied)) chunk then
        readLoop env addr toRead fuel (copied + chunk) ⟨pipe, s.out ++ kbuf⟩
      else (.ret (copiedOr copied (-1)), { s with pipe := pipe })
    else (.wake toRead, { s with pipe := { s.pipe with count := s.pipe.count - toRead } })

/-- A run of a read call. -/
def readRun (env : Env) (addr count : Nat) (p : PipeBuf) : Stop × ReadState :=
  if p.count = 0 then
    if p.writeOpen = 0 then (.ret 0, ⟨p, []⟩)
    else if env.nonblock then (.ret eagain, ⟨p, []⟩)
    else if env.signal then (.ret (-1), ⟨p, []⟩)
    else (.block, ⟨p, []⟩)
  else
    let toRead := if count < p.count then count else p.count
    if env.prepares addr toRead then readLoop env addr toRead (toRead + 1) 0 ⟨p, []⟩
    else (.ret (-1), ⟨p, []⟩)

/-! ## The system -/

/-- What a process is doing with the pipe. -/
inductive Call where
  | reading (addr count : Nat)
  | writing (w : Writer)
deriving DecidableEq

/-- A write call that returned. -/
structure Returned where
  id : Nat
  buf : List UInt8
  result : Int

/-- A pipe slot, who sleeps on its queue, and the calls in progress. -/
structure PipeSys where
  pipe : PipeBuf
  waiters : List Nat
  calls : Nat → Option Call
  nextId : Nat
  /-- each byte stored, with the call that stored it -/
  log : List (Nat × UInt8)
  /-- how many of them are older than the slot's last `pipe_alloc` -/
  before : Nat
  /-- the bytes delivered since then -/
  delivered : List UInt8
  returned : List Returned

inductive PipeOp where
  | write (p addr : Nat) (buf : List UInt8) (env : Env)
  | read (p addr count : Nat) (env : Env)
  /-- a call that does not sleep any more goes on -/
  | resume (p : Nat) (env : Env)
  /-- `sched_make_ready`, by a signal or the exit of the group -/
  | ready (p : Nat)
  /-- a descriptor is duplicated or inherited -/
  | openRead
  | openWrite
  /-- `fd_close_one` on an end -/
  | closeRead
  | closeWrite
  | alloc

/-- A write call after a run. -/
def PipeSys.endWrite (s : PipeSys) (p : Nat) : Stop × WriteState → PipeSys
  | (stop, t) =>
    let s := { s with pipe := t.pipe, log := t.log }
    let finish (r : Int) : PipeSys :=
      { s with
        calls := update s.calls p none
        returned := s.returned ++ [⟨t.writer.id, t.writer.buf, r⟩] }
    match stop with
    | .block =>
      { s with
        waiters := s.waiters ++ [p]
        calls := update s.calls p (some (.writing t.writer)) }
    | .ret r => finish r
    | .wake r => { finish r with waiters := [] }

/-- A read call after a run. -/
def PipeSys.endRead (s : PipeSys) (p addr count : Nat) : Stop × ReadState → PipeSys
  | (stop, t) =>
    let s := { s with pipe := t.pipe, delivered := s.delivered ++ t.out }
    match stop with
    | .block =>
      { s with
        waiters := s.waiters ++ [p]
        calls := update s.calls p (some (.reading addr count)) }
    | .ret _ => { s with calls := update s.calls p none }
    | .wake _ => { s with calls := update s.calls p none, waiters := [] }

/-- What `fd_close_one` does after an end was closed. -/
def PipeSys.closed (s : PipeSys) (pipe : PipeBuf) : PipeSys :=
  { s with
    pipe := { pipe with inUse := pipe.readOpen ≠ 0 ∨ pipe.writeOpen ≠ 0 }
    waiters := [] }

def pipeStep (s : PipeSys) : PipeOp → PipeSys
  | .write p addr buf env =>
    let w : Writer := { id := s.nextId, addr := addr, buf := buf, copied := 0, kbuf := [] }
    let s := { s with nextId := s.nextId + 1 }
    if writeRefused env s.pipe addr buf.length then
      s.endWrite p (.ret (-1), ⟨s.pipe, w, s.log⟩)
    else s.endWrite p (writeRun env ⟨s.pipe, w, s.log⟩)
  | .read p addr count env =>
    if s.pipe.inUse then s.endRead p addr count (readRun env addr count s.pipe) else s
  | .resume p env =>
    match s.calls p with
    | some (.writing w) => s.endWrite p (writeRun env ⟨s.pipe, w, s.log⟩)
    | some (.reading addr count) => s.endRead p addr count (readRun env addr count s.pipe)
    | none => s
  | .ready p => { s with waiters := s.waiters.filter (· ≠ p) }
  | .openRead =>
    if s.pipe.inUse then { s with pipe := { s.pipe with readOpen := s.pipe.readOpen + 1 } } else s
  | .openWrite =>
    if s.pipe.inUse then { s with pipe := { s.pipe with writeOpen := s.pipe.writeOpen + 1 } } else s
  | .closeRead =>
    if s.pipe.inUse then s.closed { s.pipe with readOpen := s.pipe.readOpen - 1 } else s
  | .closeWrite =>
    if s.pipe.inUse then s.closed { s.pipe with writeOpen := s.pipe.writeOpen - 1 } else s
  | .alloc =>
    { s with pipe := s.pipe.alloc, waiters := [], before := s.log.length, delivered := [] }

/-- A process makes one call at a time and goes on when it is awake, sizes are 32-bit words,
and a slot is taken when it is free. -/
def PipeOp.Allowed (s : PipeSys) : PipeOp → Prop
  | .write p _ buf _ => s.calls p = none ∧ buf.length < 4294967296
  | .read p _ _ _ => s.calls p = none
  | .resume p _ => s.calls p ≠ none ∧ p ∉ s.waiters
  | .alloc => s.pipe.inUse = false
  | _ => True

/-- No read is cut short: it can store all the bytes that `uaccess_prepare` lets it deliver. -/
def PipeOp.Delivers (s : PipeSys) : PipeOp → Prop
  | .read _ addr count env => env.Whole addr (min count s.pipe.count)
  | .resume p env => ∀ addr count, s.calls p = some (.reading addr count) →
      env.Whole addr (min count s.pipe.count)
  | _ => True

/-- The slot as it is in `pipe_table` at first. -/
def pipeStart : PipeSys where
  pipe := { buf := fun _ => 0, readIdx := 0, writeIdx := 0, count := 0
            readOpen := 0, writeOpen := 0, inUse := false }
  waiters := []
  calls := fun _ => none
  nextId := 0
  log := []
  before := 0
  delivered := []
  returned := []

/-! ## A run of a write call -/

/-- `kbuf` has the bytes that come next. -/
structure Writer.Ok (w : Writer) : Prop where
  le : w.copied ≤ w.buf.length
  next : w.kbuf <+: w.buf.drop w.copied

/-- `bytes` were stored between two states of a run. -/
structure Stored (s t : WriteState) (bytes : List UInt8) : Prop where
  contents : t.pipe.toRingBuf.contents pipeBufSize = s.pipe.toRingBuf.contents pipeBufSize ++ bytes
  log : t.log = s.log ++ bytes.map fun b => (s.writer.id, b)
  copied : t.writer.copied = s.writer.copied + bytes.length
  taken : s.writer.buf.take t.writer.copied = s.writer.buf.take s.writer.copied ++ bytes
  id : t.writer.id = s.writer.id
  addr : t.writer.addr = s.writer.addr
  buf : t.writer.buf = s.writer.buf
  readOpen : t.pipe.readOpen = s.pipe.readOpen
  writeOpen : t.pipe.writeOpen = s.pipe.writeOpen
  inUse : t.pipe.inUse = s.pipe.inUse

theorem Stored.refl (s : WriteState) : Stored s s [] := by
  constructor <;> simp

variable {env : Env} {p addr : Nat} {s s' : PipeSys} {stop : Stop} {t : WriteState}

theorem Stored.trans {s u : WriteState} {b c : List UInt8} (h : Stored s t b)
    (h' : Stored t u c) : Stored s u (b ++ c) where
  contents := by rw [h'.contents, h.contents, List.append_assoc]
  log := by rw [h'.log, h.log, h.id, List.map_append, List.append_assoc]
  copied := by rw [h'.copied, h.copied, List.length_append, Nat.add_assoc]
  taken := by
    have := h'.taken
    rw [h.buf, h.taken, List.append_assoc] at this
    exact this
  id := h'.id.trans h.id
  addr := h'.addr.trans h.addr
  buf := h'.buf.trans h.buf
  readOpen := h'.readOpen.trans h.readOpen
  writeOpen := h'.writeOpen.trans h.writeOpen
  inUse := h'.inUse.trans h.inUse

variable {log : List (Nat × UInt8)} {bytes : List UInt8} {n id fuel : Nat} {w : Writer}

theorem Stored.count {s : WriteState} (h : Stored s t bytes) :
    t.pipe.count = s.pipe.count + bytes.length := by
  have := congrArg List.length h.contents
  rwa [List.length_append, RingBuf.contents_length, RingBuf.contents_length] at this

/-- The state of a run between two bytes. -/
structure WriteState.Ok (s : WriteState) : Prop where
  ring : s.pipe.toRingBuf.Ok pipeBufSize
  writer : s.writer.Ok

theorem storeByte_spec {s : WriteState} {b : UInt8} {rest : List UInt8} (h : s.Ok)
    (hkbuf : s.writer.kbuf = b :: rest) (hroom : s.pipe.count ≠ pipeBufSize) :
    (storeByte s b rest).Ok ∧ Stored s (storeByte s b rest) [b] := by
  have hlt : s.pipe.count < pipeBufSize := Nat.lt_of_le_of_ne h.ring.le hroom
  obtain ⟨tail, htail⟩ := h.writer.next
  rw [hkbuf, List.cons_append] at htail
  -- the next byte of the buffer is the first one of the chunk
  have hlen : s.writer.copied < s.writer.buf.length := by
    have := congrArg List.length htail
    rw [List.length_cons, List.length_drop] at this
    omega
  have hget : s.writer.buf.get ⟨s.writer.copied, hlen⟩ = b ∧
      s.writer.buf.drop (s.writer.copied + 1) = rest ++ tail := by
    rw [List.drop_eq_getElem_cons hlen, List.cons.injEq] at htail
    exact ⟨htail.1.symm, htail.2.symm⟩
  refine ⟨⟨h.ring.push hlt b, hlen, ⟨tail, hget.2.symm⟩⟩, ?_⟩
  refine ⟨h.ring.contents_push hlt b, rfl, rfl, ?_, rfl, rfl, rfl, rfl, rfl, rfl⟩
  show s.writer.buf.take (s.writer.copied + 1) = _
  rw [List.take_add_one, List.getElem?_eq_getElem hlen]
  rw [List.get_eq_getElem] at hget
  rw [hget.1]
  rfl

/-- The loop over a chunk ends with the chunk, or at a full pipe. -/
theorem storeLoop_spec (env : Env) {kbuf : List UInt8} {s : WriteState} (h : s.Ok)
    (hkbuf : s.writer.kbuf = kbuf) :
    (∃ bytes, Stored s (storeLoop env kbuf s).2 bytes) ∧ (storeLoop env kbuf s).2.Ok ∧
      (match (storeLoop env kbuf s).1 with
        | none => (storeLoop env kbuf s).2.writer.copied = s.writer.copied + kbuf.length
        | some stop => waitRoom env (storeLoop env kbuf s).2.pipe
            (storeLoop env kbuf s).2.writer.copied = some stop) ∧
      (s.pipe.count + kbuf.length ≤ pipeBufSize → (storeLoop env kbuf s).1 = none) := by
  induction kbuf generalizing s with
  | nil => exact ⟨⟨[], Stored.refl s⟩, h, rfl, fun _ => rfl⟩
  | cons b rest ih =>
    unfold storeLoop
    cases hroom : waitRoom env s.pipe s.writer.copied with
    | some stop =>
      refine ⟨⟨[], Stored.refl s⟩, h, hroom, fun hfits => ?_⟩
      -- a wait means that the pipe is full
      unfold waitRoom at hroom
      rw [List.length_cons] at hfits
      rw [if_neg (by omega)] at hroom
      cases hroom
    | none =>
      have hne : s.pipe.count ≠ pipeBufSize := fun hfull => by
        unfold waitRoom at hroom
        rw [if_pos hfull] at hroom
        split at hroom
        · cases hroom
        · split at hroom <;> cases hroom
      obtain ⟨hok, hstored⟩ := storeByte_spec h hkbuf hne
      obtain ⟨⟨bytes, hbytes⟩, hok', hstop, hfit⟩ := ih hok rfl
      refine ⟨⟨_, hstored.trans hbytes⟩, hok', ?_, fun hfits => hfit ?_⟩
      · generalize storeLoop env rest (storeByte s b rest) = r at hstop
        obtain ⟨_ | stop, t⟩ := r
        · rw [List.length_cons, Nat.add_comm rest.length, ← Nat.add_assoc]
          exact hstop
        · exact hstop
      · rw [hstored.count]
        rw [List.length_cons] at hfits
        simp only [List.length_singleton]
        omega

/-- What the end of a run says: a call sleeps at a full pipe with readers, and a result is
the number of bytes stored, or an error if there is none. -/
def WriteState.Ended (t : WriteState) : Stop → Prop
  | .block => t.pipe.count = pipeBufSize ∧ t.pipe.readOpen ≠ 0
  | .ret r => (t.writer.copied ≠ 0 ∧ r = t.writer.copied) ∨ (t.writer.copied = 0 ∧ r < 0)
  | .wake r => t.writer.copied = t.writer.buf.length ∧ r = t.writer.copied

theorem copiedOr_spec (copied : Nat) {err : Int} (herr : err < 0) :
    (copied ≠ 0 ∧ copiedOr copied err = copied) ∨ (copied = 0 ∧ copiedOr copied err < 0) := by
  unfold copiedOr
  by_cases h : copied = 0
  · exact .inr ⟨h, by rw [if_neg (by omega)]; exact herr⟩
  · exact .inl ⟨h, if_pos h⟩

theorem waitRoom_ended (h : waitRoom env t.pipe t.writer.copied = some stop) : t.Ended stop := by
  unfold waitRoom at h
  split at h
  · next hfull =>
    split at h
    · cases h
      exact copiedOr_spec _ (by decide)
    · split at h
      · cases h
        exact copiedOr_spec _ (by decide)
      · next hopen =>
        cases h
        exact ⟨hfull, fun hr => hopen (.inl hr)⟩
  · cases h

/-- What a run of a write call does. -/
structure WriteSpec (s : WriteState) (r : Stop × WriteState) : Prop where
  stored : ∃ bytes, Stored s r.2 bytes
  ok : r.2.Ok
  ended : r.2.Ended r.1

variable {r : Stop × WriteState}

theorem WriteSpec.after {s : WriteState}
    (hst : Stored s t bytes) (h : WriteSpec t r) : WriteSpec s r := by
  obtain ⟨rest, hrest⟩ := h.stored
  exact ⟨⟨_, hst.trans hrest⟩, h.ok, h.ended⟩

/-- The next chunk in `kbuf`. -/
def WriteState.load (s : WriteState) (chunk : Nat) : WriteState :=
  { s with writer :=
      { s.writer with kbuf := (s.writer.buf.drop s.writer.copied).take chunk } }

theorem WriteState.load_ok {s : WriteState} (h : s.Ok) (chunk : Nat) : (s.load chunk).Ok :=
  ⟨h.ring, h.writer.le, List.take_prefix _ _⟩

theorem WriteState.load_stored (s : WriteState) (chunk : Nat) : Stored s (s.load chunk) [] := by
  constructor <;> simp [load]

/-- A round of the loop over the chunks, by what the loop into the ring does. -/
theorem writeLoop_round {s t : WriteState} {chunk : Nat} {stop : Option Stop}
    (hmore : s.writer.copied < s.writer.buf.length)
    (hchunk : min (s.writer.buf.length - s.writer.copied) userIoChunk = chunk)
    (hprep : env.prepares (u32 (s.writer.addr + s.writer.copied)) chunk = true)
    (hst : storeLoop env (s.load chunk).writer.kbuf (s.load chunk) = (stop, t)) :
    writeLoop env (fuel + 1) s = stop.elim (writeLoop env fuel t) fun stop => (stop, t) := by
  subst hchunk
  unfold WriteState.load at hst
  simp only [writeLoop, if_pos hmore, if_pos hprep, hst]
  cases stop <;> rfl

theorem writeLoop_spec {s : WriteState} (h : s.Ok)
    (hfuel : s.writer.buf.length - s.writer.copied < fuel) :
    WriteSpec s (writeLoop env fuel s) := by
  induction fuel generalizing s with
  | zero => omega
  | succ fuel ih =>
    by_cases hmore : s.writer.copied < s.writer.buf.length
    · generalize hchunk : min (s.writer.buf.length - s.writer.copied) userIoChunk = chunk
      by_cases hprep : env.prepares (u32 (s.writer.addr + s.writer.copied)) chunk = true
      · rcases hst : storeLoop env (s.load chunk).writer.kbuf (s.load chunk) with ⟨stop, t⟩
        have hspec := storeLoop_spec env (WriteState.load_ok h chunk) rfl
        have hload := WriteState.load_stored s chunk
        rw [hst] at hspec
        rw [writeLoop_round hmore hchunk hprep hst]
        obtain ⟨⟨bytes, hbytes⟩, hok, hstop, -⟩ := hspec
        cases stop
        · refine WriteSpec.after (hload.trans hbytes) (ih hok ?_)
          rw [hbytes.buf]
          have hpos : 0 < chunk := by
            rw [← hchunk]
            exact Nat.lt_min.mpr ⟨by omega, by decide⟩
          have hcopied : t.writer.copied = s.writer.copied + (s.load chunk).writer.kbuf.length := hstop
          have hlen : (s.load chunk).writer.kbuf.length = chunk := by
            simp only [WriteState.load, List.length_take, List.length_drop]
            omega
          show s.writer.buf.length - t.writer.copied < fuel
          omega
        · exact ⟨⟨_, hload.trans hbytes⟩, hok, waitRoom_ended hstop⟩
      · simp only [writeLoop, hchunk, if_pos hmore, if_neg hprep]
        exact ⟨⟨[], Stored.refl s⟩, h, copiedOr_spec _ (by decide)⟩
    · simp only [writeLoop, if_neg hmore]
      exact ⟨⟨[], Stored.refl s⟩, h, Nat.le_antisymm h.writer.le (Nat.le_of_not_lt hmore), rfl⟩

theorem writeRun_spec {s : WriteState} (h : s.Ok) : WriteSpec s (writeRun env s) := by
  unfold writeRun
  have hspec := storeLoop_spec env h rfl
  generalize storeLoop env s.writer.kbuf s = r at hspec ⊢
  obtain ⟨⟨bytes, hbytes⟩, hok, hstop, -⟩ := hspec
  obtain ⟨_ | stop, t⟩ := r
  · exact WriteSpec.after hbytes (writeLoop_spec hok (Nat.lt_succ_of_le (Nat.sub_le _ _)))
  · exact ⟨⟨_, hbytes⟩, hok, waitRoom_ended hstop⟩

/-! ## A run of a read call -/

theorem fetchChunk_eq (buf : Nat → UInt8) {idx : Nat} (hidx : idx < pipeBufSize) :
    fetchChunk buf n idx = (RingBuf.window pipeBufSize buf idx n, (idx + n) % pipeBufSize) := by
  induction n generalizing idx with
  | zero => rw [fetchChunk, Nat.add_zero, Nat.mod_eq_of_lt hidx]; rfl
  | succ n ih =>
    rw [fetchChunk, ih (Nat.mod_lt _ (by decide)), Nat.add_comm n 1, RingBuf.window_add,
      RingBuf.window_one, RingBuf.window_mod, Nat.mod_add_mod, Nat.mod_eq_of_lt hidx,
      Nat.add_assoc]
    rfl

theorem translateEach_of_reachable (env : Env) {addrs : List Nat}
    (h : ∀ a ∈ addrs, env.reachable a = true) :
    translateEach (fun addr s => (if env.reachable addr then 0 else -1, s)) addrs () = (0, ()) := by
  induction addrs with
  | nil => rfl
  | cons a addrs ih =>
    rw [List.forall_mem_cons] at h
    simp only [translateEach, h.1, if_true]
    exact ih h.2

/-- A buffer can be copied part by part. -/
theorem Env.Buffer.part {len off : Nat} (h : env.Buffer addr len) (hle : off + n ≤ len)
    (hlen : len < 4294967296) : env.prepares (u32 (addr + off)) n = true := by
  obtain ⟨hrange, hbytes⟩ := h
  unfold uaccessRangeOk u32 userStackTop at hrange
  simp only [decide_eq_true_eq] at hrange
  have haddr : n = 0 ∨ u32 (addr + off) = addr + off := by
    unfold u32
    omega
  have hpart : uaccessRangeOk (u32 (addr + off)) n = true := by
    unfold uaccessRangeOk u32 userStackTop
    simp only [decide_eq_true_eq]
    omega
  unfold Env.prepares uaccessPrepare
  rw [hpart, if_neg (by simp), translateEach_of_reachable env fun a ha => ?_]
  · rfl
  · have ha := mem_chunkAddrs ha
    have hbyte := hbytes (a - addr) (by omega)
    rwa [Nat.add_sub_cancel' (by omega)] at hbyte

/-- The loop over the chunks delivers the `left` bytes that come next: no copy fails. -/
theorem readLoop_eq {toRead copied left : Nat} {s : ReadState}
    (hbuf : env.Buffer addr toRead) (hword : toRead < 4294967296)
    (hidx : s.pipe.readIdx < pipeBufSize) (hleft : toRead = copied + left) (hfuel : left < fuel) :
    readLoop env addr toRead fuel copied s =
      (.wake toRead,
        { pipe :=
            { s.pipe with
              readIdx := (s.pipe.readIdx + left) % pipeBufSize
              count := s.pipe.count - toRead }
          out := s.out ++ RingBuf.window pipeBufSize s.pipe.buf s.pipe.readIdx left }) := by
  induction fuel generalizing copied left s with
  | zero => omega
  | succ fuel ih =>
    unfold readLoop
    by_cases hmore : copied < toRead
    · rw [if_pos hmore]
      generalize hchunk : min (toRead - copied) userIoChunk = chunk
      have hpos : 0 < chunk := by
        rw [← hchunk]
        exact Nat.lt_min.mpr ⟨by omega, by decide⟩
      have hcopy : env.prepares (u32 (addr + copied)) chunk = true := hbuf.part (by omega) hword
      obtain ⟨rest, rfl⟩ : ∃ rest, left = chunk + rest := ⟨left - chunk, by omega⟩
      dsimp only
      rw [fetchChunk_eq _ hidx]
      have hrest : toRead = copied + chunk + rest := by omega
      rw [if_pos hcopy, ih (Nat.mod_lt _ (by decide)) hrest (by omega)]
      simp only [RingBuf.window_add, RingBuf.window_mod, Nat.mod_add_mod, List.append_assoc,
        Nat.add_assoc]
    · rw [if_neg hmore]
      obtain rfl : left = 0 := by omega
      rw [Nat.add_zero, Nat.mod_eq_of_lt hidx]
      simp [RingBuf.window]

/-- What a run of a read call does: it delivers bytes from the front, and sleeps at an empty
pipe with writers. -/
structure ReadSpec (p : PipeBuf) (r : Stop × ReadState) : Prop where
  ring : r.2.pipe.toRingBuf.Ok pipeBufSize
  contents : p.toRingBuf.contents pipeBufSize =
    r.2.out ++ r.2.pipe.toRingBuf.contents pipeBufSize
  readOpen : r.2.pipe.readOpen = p.readOpen
  writeOpen : r.2.pipe.writeOpen = p.writeOpen
  inUse : r.2.pipe.inUse = p.inUse
  ended : match r.1 with
    | .block => r.2.pipe = p ∧ p.count = 0 ∧ p.writeOpen ≠ 0
    | .ret _ => r.2.pipe = p
    | .wake _ => True

theorem readRun_spec {count : Nat} {p : PipeBuf} (h : p.toRingBuf.Ok pipeBufSize)
    (hwhole : env.Whole addr (min count p.count)) : ReadSpec p (readRun env addr count p) := by
  have hret : ∀ r, ReadSpec p (.ret r, ⟨p, []⟩) := fun r => ⟨h, rfl, rfl, rfl, rfl, rfl⟩
  unfold readRun
  by_cases hempty : p.count = 0
  · rw [if_pos hempty]
    by_cases hopen : p.writeOpen = 0
    · rw [if_pos hopen]
      exact hret 0
    · rw [if_neg hopen]
      split
      · exact hret eagain
      · split
        · exact hret (-1)
        · exact ⟨h, rfl, rfl, rfl, rfl, rfl, hempty, hopen⟩
  · rw [if_neg hempty]
    dsimp only
    have htoRead : (if count < p.count then count else p.count) = min count p.count := by
      split <;> omega
    rw [htoRead]
    generalize min count p.count = toRead at hwhole htoRead
    have hle : toRead ≤ p.count := by
      rw [← htoRead]
      split <;> omega
    split
    · next hprep =>
      have hcap : p.count ≤ 4096 := h.le
      rw [readLoop_eq (hwhole hprep) (by omega) h.lt (Nat.zero_add toRead).symm
        (Nat.lt_succ_self toRead)]
      exact ⟨h.skip hle, RingBuf.contents_skip hle, rfl, rfl, rfl, trivial⟩
    · exact hret (-1)

/-! ## The invariant -/

/-- The bytes that a call stored. -/
def bytesOf (id : Nat) (log : List (Nat × UInt8)) : List UInt8 :=
  (log.filter fun x => x.1 = id).map Prod.snd

theorem bytesOf_append (id : Nat) (log : List (Nat × UInt8)) (bytes : List UInt8) :
    bytesOf id (log ++ bytes.map fun b => (id, b)) = bytesOf id log ++ bytes := by
  unfold bytesOf
  rw [List.filter_append, List.map_append]
  congr 1
  induction bytes with
  | nil => rfl
  | cons b bytes ih => simpa using ih

theorem bytesOf_append_ne {id' : Nat} (h : id' ≠ id) (log : List (Nat × UInt8))
    (bytes : List UInt8) : bytesOf id (log ++ bytes.map fun b => (id', b)) = bytesOf id log := by
  unfold bytesOf
  rw [List.filter_append, List.map_append]
  have : (bytes.map fun b => (id', b)).filter (fun x => x.1 = id) = [] :=
    List.filter_eq_nil_iff.mpr fun x hx => by
      obtain ⟨b, -, rfl⟩ := List.mem_map.mp hx
      simpa using h
  rw [this, List.map_nil, List.append_nil]

/-- A call with an id of its own, and what it stored so far. -/
structure Mine (s : PipeSys) (p : Nat) (w : Writer) : Prop where
  ok : w.Ok
  lt : w.id < s.nextId
  bytes : bytesOf w.id s.log = w.buf.take w.copied
  calls : ∀ q v, q ≠ p → s.calls q = some (.writing v) → v.id ≠ w.id
  returned : ∀ e ∈ s.returned, e.id ≠ w.id

/-- What a call stored is what its result says. -/
def Returned.Kept (e : Returned) (log : List (Nat × UInt8)) : Prop :=
  (0 ≤ e.result → bytesOf e.id log = e.buf.take e.result.toNat ∧ e.result ≤ e.buf.length) ∧
    (e.result < 0 → bytesOf e.id log = [])

/-- What was stored since the slot was taken is what was delivered and what the ring has. -/
structure Fifo (s : PipeSys) : Prop where
  ring : s.pipe.toRingBuf.Ok pipeBufSize
  le : s.before ≤ s.log.length
  bytes : (s.log.drop s.before).map Prod.snd =
    s.delivered ++ s.pipe.toRingBuf.contents pipeBufSize

structure PipeInv (s : PipeSys) : Prop where
  fifo : Fifo s
  ids : ∀ x ∈ s.log, x.1 < s.nextId
  mine : ∀ p w, s.calls p = some (.writing w) → Mine s p w
  returned : ∀ e ∈ s.returned, e.id < s.nextId ∧ e.Kept s.log

theorem Returned.kept_of_ended {r : Int}
    (hended : t.Ended stop) (hstop : stop = .ret r ∨ stop = .wake r) (hle : t.writer.Ok)
    (hbytes : bytesOf t.writer.id log = t.writer.buf.take t.writer.copied) :
    Returned.Kept ⟨t.writer.id, t.writer.buf, r⟩ log := by
  have hle := hle.le
  have hr : r = t.writer.copied ∨ (t.writer.copied = 0 ∧ r < 0) := by
    rcases hstop with rfl | rfl
    · exact hended.imp_left And.right
    · exact .inl hended.2
  unfold Returned.Kept
  dsimp only
  rw [hbytes]
  rcases hr with rfl | ⟨hzero, hneg⟩
  · exact ⟨fun _ => ⟨by rw [Int.toNat_natCast], by omega⟩, fun hneg => by omega⟩
  · exact ⟨fun hpos => by omega, fun _ => by rw [hzero, List.take_zero]⟩

/-- How a run of a write call ends for the system. -/
inductive WriteEnd (s s' : PipeSys) (p : Nat) (t : WriteState) : Stop → Prop where
  | block (hcalls : s'.calls = update s.calls p (some (.writing t.writer)))
      (hreturned : s'.returned = s.returned) (hwaiters : s'.waiters = s.waiters ++ [p]) :
      WriteEnd s s' p t .block
  | ret (r : Int) (hcalls : s'.calls = update s.calls p none)
      (hreturned : s'.returned = s.returned ++ [⟨t.writer.id, t.writer.buf, r⟩])
      (hwaiters : s'.waiters = s.waiters) : WriteEnd s s' p t (.ret r)
  | wake (r : Int) (hcalls : s'.calls = update s.calls p none)
      (hreturned : s'.returned = s.returned ++ [⟨t.writer.id, t.writer.buf, r⟩])
      (hwaiters : s'.waiters = []) : WriteEnd s s' p t (.wake r)

theorem endWrite_end (s : PipeSys) (p : Nat) (stop : Stop) (t : WriteState) :
    WriteEnd s (s.endWrite p (stop, t)) p t stop := by
  cases stop with
  | block => exact .block rfl rfl rfl
  | ret r => exact .ret r rfl rfl rfl
  | wake r => exact .wake r rfl rfl rfl

theorem WriteEnd.calls_of_ne {q : Nat}
    (h : WriteEnd s s' p t stop) (hq : q ≠ p) : s'.calls q = s.calls q := by
  cases h with
  | block hcalls | ret _ hcalls | wake _ hcalls => rw [hcalls, update_of_ne hq]

/-- Only a call that sleeps is still there. -/
theorem WriteEnd.self {c : Call} (h : WriteEnd s s' p t stop) (hc : s'.calls p = some c) :
    c = .writing t.writer ∧ s'.returned = s.returned := by
  cases h with
  | block hcalls hreturned =>
    rw [hcalls, update_self] at hc
    exact ⟨(Option.some.inj hc).symm, hreturned⟩
  | ret _ hcalls | wake _ hcalls =>
    rw [hcalls, update_self] at hc
    cases hc

theorem WriteEnd.mem_returned {e : Returned} (h : WriteEnd s s' p t stop) (he : e ∈ s'.returned) :
    e ∈ s.returned ∨
      ∃ r, e = ⟨t.writer.id, t.writer.buf, r⟩ ∧ (stop = .ret r ∨ stop = .wake r) := by
  cases h with
  | block _ hsame => exact .inl (hsame ▸ he)
  | ret r _ hnew | wake r _ hnew =>
    rw [hnew, List.mem_append, List.mem_singleton] at he
    exact he.imp_right fun he => ⟨r, he, by simp⟩

theorem endWrite_kept (s : PipeSys) (p : Nat) (stop : Stop) (t : WriteState) :
    let s' := s.endWrite p (stop, t)
    s'.pipe = t.pipe ∧ s'.log = t.log ∧ s'.before = s.before ∧ s'.delivered = s.delivered ∧
      s'.nextId = s.nextId := by
  cases stop <;> exact ⟨rfl, rfl, rfl, rfl, rfl⟩

theorem Fifo.endWrite (h : Fifo s)
    (hspec : WriteSpec ⟨s.pipe, w, s.log⟩ r) : Fifo (s.endWrite p r) := by
  obtain ⟨stop, t⟩ := r
  obtain ⟨⟨bytes, hst⟩, hok, -⟩ := hspec
  have hlog : t.log = s.log ++ bytes.map fun b => (w.id, b) := hst.log
  obtain ⟨hpipe, hlog', hbefore, hdelivered, -⟩ := endWrite_kept s p stop t
  refine ⟨hpipe ▸ hok.ring, ?_, ?_⟩
  · rw [hbefore, hlog', hlog, List.length_append]
    exact Nat.le_trans h.le (Nat.le_add_right _ _)
  · rw [hbefore, hlog', hlog, hdelivered, hpipe, hst.contents, List.drop_append_of_le_length h.le,
      List.map_append, h.bytes, List.map_map, List.append_assoc]
    simp [Function.comp_def]

/-- A run of a write call keeps the invariant. -/
theorem PipeInv.endWrite
    (h : PipeInv s) (hmine : Mine s p w) (hspec : WriteSpec ⟨s.pipe, w, s.log⟩ r) :
    PipeInv (s.endWrite p r) := by
  have hfifo := h.fifo.endWrite (p := p) hspec
  obtain ⟨stop, t⟩ := r
  obtain ⟨⟨bytes, hst⟩, hok, hended⟩ := hspec
  have hid : t.writer.id = w.id := hst.id
  have hlog : t.log = s.log ++ bytes.map fun b => (w.id, b) := hst.log
  have hbytes : bytesOf t.writer.id t.log = t.writer.buf.take t.writer.copied := by
    rw [hid, hlog, bytesOf_append, hmine.bytes, hst.buf]
    exact hst.taken.symm
  have hother : ∀ id, id ≠ w.id → bytesOf id t.log = bytesOf id s.log := fun id hne => by
    rw [hlog, bytesOf_append_ne (Ne.symm hne)]
  obtain ⟨hpipe, hlog', -, -, hnext⟩ := endWrite_kept s p stop t
  have hend := endWrite_end s p stop t
  generalize s.endWrite p (stop, t) = s' at *
  refine ⟨hfifo, fun x hx => ?_, fun q v hq => ?_, fun e he => ?_⟩
  · rw [hlog', hlog] at hx
    rw [hnext]
    rcases List.mem_append.mp hx with hx | hx
    · exact h.ids x hx
    · obtain ⟨b, -, rfl⟩ := List.mem_map.mp hx
      exact hmine.lt
  · by_cases hqp : q = p
    · -- the call itself, asleep
      subst hqp
      obtain ⟨hv, hreturned⟩ := hend.self hq
      obtain rfl : v = t.writer := by cases hv; rfl
      refine ⟨hok.writer, by rw [hid, hnext]; exact hmine.lt, hlog' ▸ hbytes, ?_, ?_⟩
      · intro q' v' hq' hcall
        rw [hend.calls_of_ne hq'] at hcall
        rw [hid]
        exact hmine.calls q' v' hq' hcall
      · rw [hreturned, hid]
        exact hmine.returned
    · rw [hend.calls_of_ne hqp] at hq
      have hv := h.mine q v hq
      have hne := hmine.calls q v hqp hq
      refine ⟨hv.ok, hnext ▸ hv.lt, by rw [hlog', hother _ hne]; exact hv.bytes, ?_, ?_⟩
      · intro q' v' hq' hcall
        by_cases hqp' : q' = p
        · subst hqp'
          cases (hend.self hcall).1
          rw [hid]
          exact Ne.symm hne
        · rw [hend.calls_of_ne hqp'] at hcall
          exact hv.calls q' v' hq' hcall
      · intro e he
        rcases hend.mem_returned he with he | ⟨r, rfl, -⟩
        · exact hv.returned e he
        · exact fun heq => hne (heq.symm.trans hid)
  · rw [hnext, hlog']
    rcases hend.mem_returned he with he | ⟨r, rfl, hstop⟩
    · obtain ⟨hlt, hkept⟩ := h.returned e he
      unfold Returned.Kept at *
      rw [hother e.id (hmine.returned e he)]
      exact ⟨hlt, hkept⟩
    · exact ⟨hid ▸ hmine.lt, Returned.kept_of_ended hended hstop hok.writer hbytes⟩

/-- A step that stores nothing. -/
theorem PipeInv.quiet (h : PipeInv s) (hfifo : Fifo s') (hlog : s'.log = s.log)
    (hnext : s'.nextId = s.nextId) (hreturned : s'.returned = s.returned)
    (hcalls : ∀ q v, s'.calls q = some (.writing v) → s.calls q = some (.writing v)) :
    PipeInv s' := by
  refine ⟨hfifo, by rw [hlog, hnext]; exact h.ids, fun q v hq => ?_, ?_⟩
  · have hv := h.mine q v (hcalls q v hq)
    refine ⟨hv.ok, hnext ▸ hv.lt, hlog ▸ hv.bytes, ?_, hreturned ▸ hv.returned⟩
    exact fun q' v' hq' hcall => hv.calls q' v' hq' (hcalls q' v' hcall)
  · rw [hreturned, hnext, hlog]
    exact h.returned

/-- A run of a read call keeps the invariant. -/
theorem PipeInv.endRead {count : Nat} {r : Stop × ReadState}
    (h : PipeInv s) (hspec : ReadSpec s.pipe r) : PipeInv (s.endRead p addr count r) := by
  obtain ⟨stop, t⟩ := r
  have hbytes : (s.log.drop s.before).map Prod.snd =
      s.delivered ++ t.out ++ t.pipe.toRingBuf.contents pipeBufSize := by
    rw [h.fifo.bytes, hspec.contents, List.append_assoc]
  have hcalls : ∀ q v c, (∀ w, c ≠ some (Call.writing w)) →
      update s.calls p c q = some (.writing v) → s.calls q = some (.writing v) :=
    fun q v c hc hq => by
      by_cases hqp : q = p
      · rw [hqp, update_self] at hq
        exact absurd hq (hc v)
      · rwa [update_of_ne hqp] at hq
  cases stop with
  | block =>
    exact h.quiet ⟨hspec.ring, h.fifo.le, hbytes⟩ rfl rfl rfl fun q v => hcalls q v _ (by simp)
  | ret r | wake r =>
    exact h.quiet ⟨hspec.ring, h.fifo.le, hbytes⟩ rfl rfl rfl fun q v => hcalls q v _ (by simp)

theorem PipeInv.start : PipeInv pipeStart := by
  refine ⟨⟨⟨by decide, by decide, rfl⟩, Nat.le_refl 0, rfl⟩, ?_, ?_, ?_⟩ <;> simp [pipeStart]

theorem bytesOf_fresh (h : ∀ x ∈ log, x.1 < id) : bytesOf id log = [] := by
  unfold bytesOf
  rw [List.filter_eq_nil_iff.mpr fun x hx => by simpa using Nat.ne_of_lt (h x hx), List.map_nil]

/-- A new call has an id of its own. -/
theorem PipeInv.fresh (h : PipeInv s) (p addr : Nat) (buf : List UInt8) :
    PipeInv { s with nextId := s.nextId + 1 } ∧
      Mine { s with nextId := s.nextId + 1 } p ⟨s.nextId, addr, buf, 0, []⟩ := by
  refine ⟨⟨⟨h.fifo.ring, h.fifo.le, h.fifo.bytes⟩, ?_, ?_, ?_⟩, ?_, ?_, ?_, ?_, ?_⟩
  · exact fun x hx => Nat.lt_succ_of_lt (h.ids x hx)
  · intro q v hq
    have hv := h.mine q v hq
    exact ⟨hv.ok, Nat.lt_succ_of_lt hv.lt, hv.bytes, hv.calls, hv.returned⟩
  · intro e he
    exact ⟨Nat.lt_succ_of_lt (h.returned e he).1, (h.returned e he).2⟩
  · exact ⟨Nat.zero_le _, List.nil_prefix⟩
  · exact Nat.lt_succ_self _
  · exact bytesOf_fresh h.ids
  · exact fun q v _ hq => Nat.ne_of_lt (h.mine q v hq).lt
  · exact fun e he => Nat.ne_of_lt (h.returned e he).1

theorem PipeInv.step {op : PipeOp} (h : PipeInv s) (hop : op.Delivers s) :
    PipeInv (pipeStep s op) := by
  have hsame : ∀ readOpen writeOpen inUse waiters, PipeInv
      { s with pipe := ⟨s.pipe.toRingBuf, readOpen, writeOpen, inUse⟩, waiters := waiters } :=
    fun _ _ _ _ =>
      h.quiet ⟨h.fifo.ring, h.fifo.le, h.fifo.bytes⟩ rfl rfl rfl fun _ _ hq => hq
  cases op with
  | write p addr buf env =>
    obtain ⟨hinv, hmine⟩ := h.fresh p addr buf
    unfold pipeStep
    dsimp only
    split
    · refine hinv.endWrite hmine ⟨⟨[], Stored.refl _⟩, ⟨h.fifo.ring, hmine.ok⟩, ?_⟩
      exact .inr ⟨rfl, by decide⟩
    · exact hinv.endWrite hmine (writeRun_spec ⟨h.fifo.ring, hmine.ok⟩)
  | read p addr count env =>
    unfold pipeStep
    dsimp only
    split
    · exact h.endRead (readRun_spec h.fifo.ring hop)
    · exact h
  | resume p env =>
    unfold pipeStep
    dsimp only
    split
    · next w hw =>
      have hmine := h.mine p w hw
      exact h.endWrite hmine (writeRun_spec ⟨h.fifo.ring, hmine.ok⟩)
    · next addr count hcall =>
      exact h.endRead (readRun_spec h.fifo.ring (hop addr count hcall))
    · exact h
  | ready p => exact hsame _ _ _ _
  | openRead | openWrite | closeRead | closeWrite =>
    unfold pipeStep
    dsimp only
    split
    · exact hsame _ _ _ _
    · exact h
  | alloc =>
    refine h.quiet ⟨⟨Nat.zero_le _, show 0 < pipeBufSize by decide, rfl⟩, Nat.le_refl _, ?_⟩
      rfl rfl rfl fun _ _ hq => hq
    show (s.log.drop s.log.length).map Prod.snd = []
    rw [List.drop_length, List.map_nil]

/-- In every run of readers and writers in which no read is cut short: the bytes stored since the slot was taken are the
bytes delivered followed by the `count` bytes from `read_idx` on; a write call that returned
`r ≥ 0` stored the first `r` bytes of its buffer, and one that failed stored nothing. -/
theorem pipe_fifo {s : PipeSys}
    (h : Reach pipeStep (fun s op => op.Allowed s ∧ op.Delivers s) pipeStart s) :
    (s.log.drop s.before).map Prod.snd =
        s.delivered ++ RingBuf.window pipeBufSize s.pipe.buf s.pipe.readIdx s.pipe.count ∧
      (∀ e ∈ s.returned,
        (0 ≤ e.result → e.result ≤ e.buf.length ∧
          bytesOf e.id s.log = e.buf.take e.result.toNat) ∧
        (e.result < 0 → bytesOf e.id s.log = [])) ∧
      s.pipe.count ≤ pipeBufSize ∧
      (s.pipe.readIdx + s.pipe.count) % pipeBufSize = s.pipe.writeIdx := by
  have hinv := h.inv PipeInv PipeInv.start fun _ _ hs hop => hs.step hop.2
  refine ⟨hinv.fifo.bytes, fun e he => ?_, hinv.fifo.ring.le, hinv.fifo.ring.write⟩
  obtain ⟨-, hpos, hneg⟩ := hinv.returned e he
  exact ⟨fun hr => (hpos hr).symm, hneg⟩

/-- A run with everything in reach, no signal and no `O_NONBLOCK`. -/
def plainEnv : Env := { nonblock := false, signal := false, reachable := fun _ => true }

theorem plainEnv_whole {len : Nat} : plainEnv.Whole addr len := fun hprep =>
  { range := by
      unfold Env.prepares uaccessPrepare at hprep
      by_contra hrange
      rw [Bool.not_eq_true] at hrange
      simp [hrange] at hprep
    bytes := fun _ _ => rfl }

/-- Two bytes written, one read. -/
def twoWritten : PipeSys :=
  pipeStep (pipeStep (pipeStep pipeStart .alloc) (.write 1 0x1000 [7, 8] plainEnv))
    (.read 2 0x1000 1 plainEnv)

theorem pipe_fifo_two_written :
    twoWritten.delivered = [7] ∧
      (twoWritten.log.drop twoWritten.before).map Prod.snd =
        twoWritten.delivered ++ RingBuf.window pipeBufSize twoWritten.pipe.buf
          twoWritten.pipe.readIdx twoWritten.pipe.count :=
  ⟨by decide, (pipe_fifo (.step (PipeOp.read 2 0x1000 1 plainEnv)
    (.step (PipeOp.write 1 0x1000 [7, 8] plainEnv) (.step PipeOp.alloc .start ⟨rfl, trivial⟩)
      ⟨⟨rfl, by decide⟩, trivial⟩) ⟨rfl, plainEnv_whole⟩)).1⟩

/-- A process whose heap, after `brk`, ends inside its first page. -/
def shortHeap : Env :=
  { plainEnv with reachable := fun addr => 0x804A000 ≤ addr ∧ addr < 0x804A100 }

/-- 1024 bytes are written, and a process reads them into such a heap. -/
def cutShort : PipeSys :=
  pipeStep (pipeStep (pipeStep pipeStart .alloc)
    (.write 1 0x1000 (List.replicate 1024 7) plainEnv)) (.read 2 0x804A000 1024 shortHeap)

/-- `uaccess_prepare` looks at the first byte of the page only. The copy of the second chunk
fails, with `read_idx` behind that chunk and `count` as it was: with the 512 bytes delivered the
pipe has more than were written. -/
theorem cut_short_read :
    Reach pipeStep PipeOp.Allowed pipeStart cutShort ∧
      shortHeap.prepares 0x804A000 1024 = true ∧ cutShort.delivered.length = 512 ∧
      cutShort.pipe.readIdx = 1024 ∧ cutShort.pipe.writeIdx = 1024 ∧ cutShort.pipe.count = 1024 ∧
      (cutShort.pipe.readIdx + cutShort.pipe.count) % pipeBufSize ≠ cutShort.pipe.writeIdx := by
  refine ⟨?_, by decide +kernel⟩
  have hwritten : Reach pipeStep PipeOp.Allowed pipeStart (pipeStep (pipeStep pipeStart .alloc)
      (.write 1 0x1000 (List.replicate 1024 7) plainEnv)) :=
    .step (PipeOp.write 1 0x1000 (List.replicate 1024 7) plainEnv)
      (.step PipeOp.alloc .start rfl) ⟨rfl, by rw [List.length_replicate]; decide⟩
  exact .step (PipeOp.read 2 0x804A000 1024 shortHeap) hwritten
    (show _ = none by decide +kernel)

end Drunix.Proc
