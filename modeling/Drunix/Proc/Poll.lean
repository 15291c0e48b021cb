import Drunix.Drivers.Tty
import Drunix.Proc.Fd
import Drunix.Proc.PipeWake
import Drunix.Proc.Pty

/-!
# Readiness and O_NONBLOCK

`linux_poll_revents` (`proc/syscall/fd_control.c`) against the calls whose readiness it
reports, `syscall_read_fd` and `syscall_write_fd` (`fd.c`), over every kind of descriptor.

`readiness_law_iff` says in which states of the object the answers agree, and where a
descriptor with O_NONBLOCK never sleeps. They do not agree for the write end of a full pipe
and for a full terminal ring, which `poll` always takes for writable, for files at their end
and other objects whose reads never wait, and for terminals with nothing to read but an
interrupt, an empty line or VMIN 0; and only pipes look at O_NONBLOCK, so that a read of an
empty input queue or of a network device without a frame sleeps.

Mirroring notes:
- A call is a run up to the place where it sleeps. `spins` is the loop around `arch_idle_wait`.
- Transfers that never wait (files, block devices, procfs, windows, and the `read` and `write`
  of a character device once it does not sleep) end as the device or file system says: `done`
  comes with the call.
- `pipe_get` and the pools of terminals give NULL for an object that is not in use.
- FD_TYPE_PTY_MASTER and FD_TYPE_PTY_SLAVE are one kind with a flag: their branches differ in
  the rings only. The bytes of the rings are left out, as in `Proc/Pty`.
- A descriptor is readable unless it was opened O_WRONLY.
-/

namespace Drunix.Proc

open Lib Drivers

/-! ## Descriptors -/

/-- `chardev_ops_t`: which operations there are. `read` comes with the sizes for which it
sleeps as the device is (`evt_ring_read` for a record and more while the ring is empty,
`net0_read` while there is no frame), `read_char` with whether it has a character. -/
structure CharDev where
  read : Option (Nat → Bool)
  readChar : Option Bool
  write : Bool

/-- A read of `count` bytes sleeps in `read`. -/
def CharDev.sleeps (d : CharDev) (count : Nat) : Bool :=
  d.read.any fun sleeps => sleeps (min count userIoChunk)

/-- A read waits in the loop around `read_char`. -/
def CharDev.spins (d : CharDev) : Bool := d.read.isNone && d.readChar == some false

/-- The kind of a descriptor and the object behind it. -/
inductive FdObject where
  | file (offset size : Nat)
  | blockdev (offset size : Nat)
  | procfile
  | dir
  | chardev (dev : Option CharDev)
  | pipeRead (p : PipeBuf)
  | pipeWrite (p : PipeBuf)
  | tty (t : Option Tty)
  | pty (master : Bool) (p : Pty)
  | wm (event serverMsg : Bool)

/-- `file_handle_t`. -/
structure PollHandle where
  object : FdObject
  readable : Bool
  writable : Bool

/-- How a call goes. -/
inductive Run where
  | ret (r : Int)
  | sleeps
  | spins
deriving DecidableEq

def Stop.run : Stop → Run
  | .block => .sleeps
  | .ret r => .ret r
  | .wake r => .ret r

/-- A transfer that never waits: the bytes, or an error before the first. -/
def transfer : Option Nat → Run
  | none => .ret (-1)
  | some n => .ret n

/-! ## Terminal rings -/

/-- `PTY_RING_BYTES`. -/
def ptyRingBytes : Nat := 1024

/-- `pty_ring_read`. -/
def ptyRingRead (r : PtyRing) (count : Nat) : Run :=
  if count = 0 then .ret 0
  else if r.count = 0 then if r.closed then .ret 0 else .sleeps
  else .ret ↑(min count r.count)

/-- `pty_ring_write`: the inner loop stores what there is room for. -/
def ptyRingWrite (r : PtyRing) (count : Nat) : Run × PtyRing :=
  let n := min count (ptyRingBytes - r.count)
  let r := { r with head := (r.head + n) % ptyRingBytes, count := r.count + n }
  if n = count then (.ret count, r) else if r.closed then (.ret n, r) else (.sleeps, r)

/-- The loop of `syscall_write_fd` over the chunks for a terminal. -/
def ptyWriteLoop (env : Env) (addr count : Nat) : Nat → PtyRing → Nat → Run
  | 0, _, written => .ret written
  | fuel + 1, r, written =>
    if written < count then
      let chunk := min (count - written) userIoChunk
      if env.prepares (u32 (addr + written)) chunk then
        match ptyRingWrite r chunk with
        | (.ret n, r) =>
          if n ≤ 0 then .ret (copiedOr written (-1))
          else if n < chunk then .ret (written + n)
          else ptyWriteLoop env addr count fuel r (written + chunk)
        | (stop, _) => stop
      else .ret (copiedOr written (-1))
    else .ret written

/-- The ring that an end reads. -/
def Pty.input (p : Pty) (master : Bool) : PtyRing := if master then p.toMaster else p.toSlave

/-- The ring that it writes. -/
def Pty.output (p : Pty) (master : Bool) : PtyRing := if master then p.toSlave else p.toMaster

/-- A write to a terminal. -/
def ptyWrite (env : Env) (p : Pty) (master : Bool) (addr count : Nat) : Run :=
  if count = 0 then .ret 0
  else if !env.prepares addr count || !p.inUse then .ret (-1)
  else ptyWriteLoop env addr count (count + 1) (p.output master) 0

/-- A read from a terminal. -/
def ptyRead (env : Env) (p : Pty) (master : Bool) (addr count : Nat) : Run :=
  if !env.prepares addr (min count userIoChunk) || !p.inUse then .ret (-1)
  else ptyRingRead (p.input master) (min count userIoChunk)

/-! ## The calls -/

/-- The result of a round of `tty_read`. -/
def ttyRun : ReadEnd → Run
  | .fails => .ret (-1)
  | .bytes l => .ret l.length
  | .blocks => .sleeps

/-- `syscall_read_fd`, for at least a byte. -/
def readFd (env : Env) (done : Option Nat) (h : PollHandle) (addr count : Nat) : Run :=
  match h.object with
  | .blockdev offset size => if offset ≥ size then .ret 0 else transfer done
  | .wm _ _ =>
    if env.prepares addr (min count userIoChunk) then transfer done else .ret (-1)
  | .tty t =>
    let chunk := min count ttyRawBufSize
    if !env.prepares addr chunk then .ret (-1)
    else
      match t with
      | none => .ret (-1)
      | some t => ttyRun (ttyRead t chunk env.signal).1
  | .chardev none => .ret (-1)
  | .chardev (some dev) =>
    match dev.read with
    | some sleeps =>
      if !env.prepares addr (min count userIoChunk) then .ret (-1)
      else if sleeps (min count userIoChunk) then .sleeps
      else transfer done
    | none =>
      match dev.readChar with
      | none => .ret (-1)
      | some char =>
        if !env.prepares addr 1 then .ret (-1) else if char then .ret 1 else .spins
  | .pty master p => ptyRead env p master addr count
  | .pipeRead p => if p.inUse then (readRun env addr count p).1.run else .ret (-1)
  | .file offset size =>
    if offset ≥ size then .ret 0
    else if env.prepares addr (min count (size - offset)) then transfer done else .ret (-1)
  | .procfile => transfer done
  | .dir => .ret (-1)
  | .pipeWrite _ => .ret (-1)

/-- A write call at its start. -/
def startWrite (p : PipeBuf) (addr : Nat) (buf : List UInt8) : WriteState :=
  { pipe := p, writer := { id := 0, addr, buf, copied := 0, kbuf := [] }, log := [] }

/-- `syscall_write_fd`. -/
def writeFd (env : Env) (done : Option Nat) (h : PollHandle) (addr : Nat) (buf : List UInt8) : Run :=
  match h.object with
  | .blockdev _ _ => .ret (-1)
  | .wm _ _ =>
    if buf.length > userIoChunk ∨ !env.prepares addr buf.length then .ret (-1) else transfer done
  | .tty _ =>
    if !h.writable || !env.prepares addr buf.length then .ret (-1) else .ret buf.length
  | .pty master p => ptyWrite env p master addr buf.length
  | .pipeWrite p =>
    if writeRefused env p addr buf.length then .ret (-1)
    else (writeRun env (startWrite p addr buf)).1.run
  | .chardev none => .ret (-1)
  | .chardev (some dev) =>
    if !dev.write then .ret (-1)
    else if buf.length = 0 then .ret 0
    else if env.prepares addr (min buf.length userIoChunk) then transfer done else .ret (-1)
  | .file _ _ =>
    if !h.writable then .ret ebadf
    else if buf.length = 0 then .ret 0
    else if env.prepares addr buf.length then transfer done else .ret (-1)
  | .procfile => .ret (-1)
  | .dir => .ret (-1)
  | .pipeRead _ => .ret (-1)

/-- `linux_poll_revents`: POLLOUT. -/
def pollOut (h : PollHandle) : Bool :=
  match h.object with
  | .pipeWrite _ => true
  | .wm _ _ => true
  | _ => h.writable

/-- `linux_poll_revents`: POLLIN. -/
def pollIn (h : PollHandle) : Bool :=
  match h.object with
  | .file offset size => offset < size
  | .blockdev offset size => offset < size
  | .procfile => true
  | .pipeRead p => p.inUse && (decide (p.count > 0) || p.writeOpen == 0)
  | .tty none => false
  | .tty (some t) => ttyReadAvailable t > 0
  | .pty master p => p.inUse && (decide ((p.input master).count > 0) || (p.input master).closed)
  | .wm event serverMsg => event || serverMsg
  | .dir => false
  | .chardev _ => false
  | .pipeWrite _ => false

/-! ## The law -/

/-- The same call through a descriptor without O_NONBLOCK, with no signal pending. -/
def Env.waiting (env : Env) : Env := { env with nonblock := false, signal := false }

/-- `poll` tells whether a one-byte call returns, and a call with O_NONBLOCK does not sleep but
gives EAGAIN where a one-byte call would. -/
structure ReadinessLaw (env : Env) (done : Option Nat) (h : PollHandle) (addr : Nat)
    (buf : List UInt8) : Prop where
  pollin : h.readable = true →
    (pollIn h = true ↔ ∃ r, readFd env.waiting done h addr 1 = .ret r)
  pollout : h.writable = true →
    (pollOut h = true ↔ ∃ r, writeFd env.waiting done h addr (buf.take 1) = .ret r)
  nonblockRead : env.nonblock = true → readFd env done h addr buf.length ≠ .sleeps ∧
    (readFd env done h addr buf.length = .ret eagain ↔ readFd env.waiting done h addr 1 = .sleeps)
  nonblockWrite : env.nonblock = true → writeFd env done h addr buf ≠ .sleeps ∧
    (writeFd env done h addr buf = .ret eagain ↔
      writeFd env.waiting done h addr (buf.take 1) = .sleeps)

/-- What the object keeps: no ring has more than fits. -/
def FdObject.Ok : FdObject → Prop
  | .pipeRead p => p.toRingBuf.Ok pipeBufSize
  | .pipeWrite p => p.toRingBuf.Ok pipeBufSize
  | .pty master p => (p.output master).count ≤ ptyRingBytes
  | _ => True

/-- `tty_read` returns. -/
def TtyReturns (t : Tty) : Prop :=
  t.interrupted = true ∨
    if t.termios.canonical then t.canonReady = true
    else t.rawHead ≠ t.rawTail ∨ t.termios.cCc vmin = 0

/-- The objects for which POLLIN is right. -/
def FdObject.InAgrees : FdObject → Prop
  | .file offset size => offset < size
  | .blockdev offset size => offset < size
  | .procfile => True
  | .dir => False
  | .chardev dev => ∃ d, dev = some d ∧ (d.sleeps 1 = true ∨ d.spins = true)
  | .pipeRead p => p.inUse = true
  | .pipeWrite _ => False
  | .tty t => ∃ t', t = some t' ∧ (TtyReturns t' → ttyReadAvailable t' > 0)
  | .pty _ p => p.inUse = true
  | .wm event serverMsg => event = true ∨ serverMsg = true

/-- What has to hold of an object other than a pipe for a read of `count` bytes with O_NONBLOCK
to be right. -/
def FdObject.ReadsAtOnce (count : Nat) : FdObject → Prop
  | .chardev dev => ∀ d, dev = some d → d.sleeps count = false ∧ d.sleeps 1 = false
  | .tty t => ∀ t', t = some t' → TtyReturns t'
  | .pty master p => p.inUse = true → (p.input master).count ≠ 0 ∨ (p.input master).closed = true
  | _ => True

/-- Likewise for a write of `count` bytes. -/
def FdObject.WritesAtOnce (count : Nat) : FdObject → Prop
  | .pty master p => p.inUse = true →
    (p.output master).count + count ≤ ptyRingBytes ∨ (p.output master).closed = true
  | _ => True

/-- The objects for which POLLOUT is right. -/
def FdObject.OutAgrees : FdObject → Prop
  | .pipeWrite p => p.inUse = true → p.readOpen ≠ 0 → p.count ≠ pipeBufSize
  | object => object.WritesAtOnce 1

/-! ## The calls that may sleep -/

/-- The call returns, and not EAGAIN. -/
def Run.Answers (x : Run) : Prop := ∃ r, x = .ret r ∧ r ≠ eagain

/-- It does so where `ready`, and else ends as `wait`. -/
def Run.Splits (x : Run) (ready : Prop) (wait : Run) : Prop :=
  (ready → x.Answers) ∧ (¬ ready → x = wait)

section Answers

variable {x wait : Run} {ready : Prop}

theorem Run.Answers.returns (h : x.Answers) : ∃ r, x = .ret r := h.imp fun _ => And.left

theorem Run.Answers.awake (h : x.Answers) : x ≠ .sleeps ∧ x ≠ .ret eagain := by
  obtain ⟨r, rfl, hr⟩ := h
  exact ⟨nofun, fun he => hr (Run.ret.inj he)⟩

theorem Run.Answers.splits (h : x.Answers) (hready : ready) : x.Splits ready wait :=
  ⟨fun _ => h, fun hno => absurd hready hno⟩

theorem splits_wait (hno : ¬ ready) : wait.Splits ready wait := ⟨(absurd · hno), fun _ => rfl⟩

theorem Run.Splits.returns_iff (h : x.Splits ready wait) (hwait : ∀ r, wait ≠ .ret r) :
    (∃ r, x = .ret r) ↔ ready := by
  refine ⟨fun ⟨r, hr⟩ => ?_, fun hready => (h.1 hready).returns⟩
  by_contra hno
  exact hwait r ((h.2 hno).symm.trans hr)

theorem answers_nat (n : Nat) : (Run.ret n).Answers := ⟨n, rfl, by unfold eagain; omega⟩

theorem answers_error : (Run.ret (-1)).Answers := ⟨-1, rfl, by decide⟩

theorem transfer_answers (done : Option Nat) : (transfer done).Answers := by
  cases done with
  | none => exact answers_error
  | some n => exact answers_nat n

theorem copiedOr_answers (copied : Nat) : (Run.ret (copiedOr copied (-1))).Answers := by
  unfold copiedOr
  split
  · exact answers_nat copied
  · exact answers_error

end Answers

/-- The buffer of a call is not empty and can be reached. -/
structure Reaches (env : Env) (addr count : Nat) : Prop where
  pos : 0 < count
  word : count < 4294967296
  buffer : env.Buffer addr count

section Calls

variable {env : Env} {addr count : Nat} {p : PipeBuf} {buf : List UInt8}

section

variable (h : Reaches env addr count)

include h

theorem Reaches.lt : addr < 0xC0000000 := by
  have hrange := h.buffer.range
  simp only [Mm.uaccessRangeOk, decide_eq_true_eq] at hrange
  exact (hrange.resolve_left (Nat.ne_of_gt h.pos)).1

theorem Reaches.le {n : Nat} (hn : n ≤ count) : env.prepares addr n = true := by
  have hpart := h.buffer.part (show 0 + n ≤ count by omega) h.word
  have hlt := h.lt
  rwa [Nat.add_zero, u32_of_lt (by omega)] at hpart

theorem Reaches.prepares : env.prepares addr count = true := h.le le_rfl

/-- So does the front of it. -/
theorem Reaches.front {n : Nat} (hpos : 0 < n) (hn : n ≤ count) : Reaches env addr n := by
  obtain ⟨-, hword, hrange, hbytes⟩ := h
  have hrange' : Mm.uaccessRangeOk addr n = true := by
    unfold Mm.uaccessRangeOk Mm.userStackTop u32 at *
    simp only [decide_eq_true_eq] at *
    omega
  exact ⟨hpos, by omega, hrange', fun i hi => hbytes i (by omega)⟩

theorem Reaches.one : Reaches env.waiting addr 1 :=
  have hone := h.front Nat.one_pos h.pos
  ⟨Nat.one_pos, by decide, hone.buffer.range, hone.buffer.bytes⟩

/-- A write to a terminal sleeps if it is not closed and the bytes do not fit. The induction is
on the chunks. -/
theorem ptyWriteLoop_splits {fuel : Nat} {r : PtyRing} {written : Nat}
    (hr : r.count ≤ ptyRingBytes) (hle : written ≤ count) (hfuel : count - written < fuel) :
    (ptyWriteLoop env addr count fuel r written).Splits
      (r.count + (count - written) ≤ ptyRingBytes ∨ r.closed = true) .sleeps := by
  induction fuel generalizing r written with
  | zero => omega
  | succ fuel ih =>
    unfold ptyWriteLoop
    by_cases hmore : written < count
    · rw [if_pos hmore]
      generalize hchunk : min (count - written) userIoChunk = chunk
      have hpos : 0 < chunk := by
        rw [← hchunk]
        exact Nat.lt_min.mpr ⟨by omega, by decide⟩
      have hpart : written + chunk ≤ count := by omega
      rw [if_pos (h.buffer.part hpart h.word)]
      unfold ptyRingWrite
      by_cases hfits : min chunk (ptyRingBytes - r.count) = chunk
      · -- the chunk is stored whole
        rw [if_pos hfits]
        dsimp only
        rw [if_neg (by omega), if_neg (by omega), hfits,
          show r.count + (count - written) = r.count + chunk + (count - (written + chunk)) by omega]
        exact ih (by dsimp only; omega) hpart (by omega)
      · rw [if_neg hfits]
        have hover : ¬ r.count + (count - written) ≤ ptyRingBytes := by omega
        cases hclosed : r.closed with
        | true =>
          refine Run.Answers.splits ?_ (.inr rfl)
          rw [if_pos rfl]
          dsimp only
          split
          · exact copiedOr_answers written
          · rw [if_pos (by omega)]
            exact_mod_cast answers_nat (written + min chunk (ptyRingBytes - r.count))
        | false => exact splits_wait fun hor => hor.elim hover nofun
    · rw [if_neg hmore]
      exact (answers_nat written).splits (.inl (by omega))

theorem ptyWrite_splits {t : Pty} {master : Bool} (hr : (t.output master).count ≤ ptyRingBytes) :
    (ptyWrite env t master addr count).Splits (t.inUse = true →
      (t.output master).count + count ≤ ptyRingBytes ∨ (t.output master).closed = true) .sleeps := by
  unfold ptyWrite
  rw [if_neg (Nat.ne_of_gt h.pos), h.prepares]
  cases t.inUse with
  | false => exact answers_error.splits nofun
  | true =>
    have hloop := ptyWriteLoop_splits h hr (Nat.zero_le count) (Nat.lt_succ_self count)
    exact ⟨fun hor => hloop.1 (hor rfl), fun hno => hloop.2 fun hor => hno fun _ => hor⟩

theorem ptyRead_splits {t : Pty} {master : Bool} : (ptyRead env t master addr count).Splits
      (t.inUse = true → (t.input master).count ≠ 0 ∨ (t.input master).closed = true) .sleeps := by
  have hchunk : min count userIoChunk ≠ 0 := by
    have := h.pos
    unfold userIoChunk
    omega
  unfold ptyRead
  rw [h.le (Nat.min_le_left ..)]
  cases t.inUse with
  | false => exact answers_error.splits nofun
  | true =>
    simp only [Bool.not_true, Bool.or_self, Bool.false_eq_true, if_false, true_implies]
    unfold ptyRingRead
    rw [if_neg hchunk]
    by_cases h0 : (t.input master).count = 0
    · rw [if_pos h0]
      cases hclosed : (t.input master).closed with
      | true => exact (answers_nat 0).splits (.inr rfl)
      | false => exact splits_wait (by simp [h0])
    · rw [if_neg h0]
      exact (answers_nat _).splits (.inl h0)

omit h

theorem ttyRead_splits (t : Tty) (signal : Bool) (hc : 0 < count) :
    (ttyRun (ttyRead t count signal).1).Splits (TtyReturns t)
      (if signal then .ret (-1) else .sleeps) := by
  have hfails : (ttyRun .fails).Answers := answers_error
  have hbytes : ∀ l, (ttyRun (.bytes l)).Answers := fun l => answers_nat l.length
  unfold ttyRead ttyReadWasInterrupted
  rw [if_neg (by omega)]
  unfold TtyReturns
  cases signal with
  | true => exact ⟨fun _ => hfails, fun _ => rfl⟩
  | false =>
    cases hint : t.interrupted with
    | true => exact hfails.splits (.inl rfl)
    | false =>
      cases hcanon : t.termios.canonical with
      | true =>
        cases hready : t.canonReady with
        | true => simpa [Run.Splits, hcanon, hready] using hbytes _
        | false => simp [Run.Splits, hcanon, hready, ttyRun]
      | false =>
        by_cases hraw : t.rawHead = t.rawTail
        · by_cases hvmin : t.termios.cCc vmin = 0
          · simpa [Run.Splits, hcanon, hraw, hvmin] using hbytes []
          · simp [Run.Splits, hcanon, hraw, hvmin, ttyRun]
        · simpa [Run.Splits, hcanon, hraw] using hbytes _

include h

theorem readRun_answers (hok : p.toRingBuf.Ok pipeBufSize)
    (hfull : p.count ≠ 0) : (readRun env addr count p).1.run.Answers := by
  unfold readRun
  rw [if_neg hfull]
  generalize htoRead : (if count < p.count then count else p.count) = toRead
  have hle : toRead ≤ count := by
    rw [← htoRead]
    split <;> omega
  have hpos : 0 < toRead := by
    have := h.pos
    rw [← htoRead]
    split <;> omega
  have hfront := h.front hpos hle
  rw [if_pos hfront.prepares, readLoop_eq hfront.buffer hfront.word hok.lt
    (Nat.zero_add toRead).symm (Nat.lt_succ_self toRead)]
  exact answers_nat toRead

end

theorem startWrite_ok (hok : p.toRingBuf.Ok pipeBufSize) : (startWrite p addr buf).Ok :=
  ⟨hok, Nat.zero_le _, List.nil_prefix⟩

theorem writeLoop_ends {fuel : Nat} {s : WriteState} (h : s.Ok) :
    waitRoom env (writeLoop env fuel s).2.pipe (writeLoop env fuel s).2.writer.copied =
        some (writeLoop env fuel s).1 ∨
      (writeLoop env fuel s).1.run.Answers := by
  induction fuel generalizing s with
  | zero => exact .inr (answers_nat _)
  | succ fuel ih =>
    by_cases hmore : s.writer.copied < s.writer.buf.length
    · generalize hchunk : min (s.writer.buf.length - s.writer.copied) userIoChunk = chunk
      by_cases hprep : env.prepares (u32 (s.writer.addr + s.writer.copied)) chunk = true
      · rcases hst : storeLoop env (s.load chunk).writer.kbuf (s.load chunk) with ⟨stop, t⟩
        have hspec := storeLoop_spec env (WriteState.load_ok h chunk) rfl
        rw [hst] at hspec
        obtain ⟨-, hok, hstop, -⟩ := hspec
        rw [writeLoop_round hmore hchunk hprep hst]
        cases stop
        · exact ih hok
        · exact .inl hstop
      · simp only [writeLoop, hchunk, if_pos hmore, if_neg hprep]
        exact .inr (copiedOr_answers _)
    · simp only [writeLoop, if_neg hmore]
      exact .inr (answers_nat _)

/-- A run of a write call ends at a full pipe, or it answers. -/
theorem writeRun_ends (hok : p.toRingBuf.Ok pipeBufSize) {r : Stop × WriteState}
    (hr : writeRun env (startWrite p addr buf) = r) :
    waitRoom env r.2.pipe r.2.writer.copied = some r.1 ∨ r.1.run.Answers :=
  hr ▸ writeLoop_ends (startWrite_ok hok)

/-- A call that finds the pipe full stops there. -/
theorem writeRun_full (h : Reaches env addr buf.length) {stop : Stop}
    (hfull : waitRoom env p 0 = some stop) : (writeRun env (startWrite p addr buf)).1 = stop := by
  obtain ⟨b, rest, rfl⟩ := List.exists_cons_of_length_pos h.pos
  have hchunk : min (b :: rest).length userIoChunk = (min (b :: rest).length userIoChunk - 1) + 1 := by
    have : 0 < min (b :: rest).length userIoChunk := Nat.lt_min.mpr ⟨h.pos, by decide⟩
    omega
  have hpart := h.buffer.part
    (show 0 + min (b :: rest).length userIoChunk ≤ _ by omega) h.word
  show (writeLoop env ((b :: rest).length + 1) (startWrite p addr (b :: rest))).1 = stop
  unfold writeLoop
  dsimp only [startWrite]
  rw [if_pos h.pos, Nat.sub_zero, if_pos hpart, hchunk, List.drop_zero, List.take_succ_cons]
  unfold storeLoop
  rw [hfull]

/-- A write to a pipe with O_NONBLOCK answers if there is room. -/
theorem writeRun_nonblock (hok : p.toRingBuf.Ok pipeBufSize) (hn : env.nonblock = true)
    (hroom : p.count ≠ pipeBufSize) : (writeRun env (startWrite p addr buf)).1.run.Answers := by
  obtain ⟨⟨bytes, hst⟩, -, -⟩ :=
    writeRun_spec (startWrite_ok hok : (startWrite p addr buf).Ok)
  refine (writeRun_ends hok rfl).elim (fun hwait => ?_) id
  generalize writeRun env (startWrite p addr buf) = r at hst hwait
  unfold waitRoom at hwait
  split at hwait
  next hfull =>
    rw [← Option.some.inj hwait]
    -- something was stored, for the pipe is full only now
    have hne : r.2.writer.copied ≠ 0 := by
      intro h0
      have hlen : 0 + bytes.length = 0 := hst.copied.symm.trans h0
      have hcount : r.2.pipe.count = p.count + bytes.length := hst.count
      exact hroom (by omega)
    unfold copiedOr
    rw [if_pos hne]
    exact answers_nat _
  · cases hwait

end Calls

/-! ## Reads -/

section Law

variable {env : Env} {done : Option Nat} {h : PollHandle} {addr count : Nat} {buf : List UInt8}

/-- A read of `count` bytes does not have to wait. -/
def FdObject.Readable (count : Nat) : FdObject → Prop
  | .chardev dev => ∀ d, dev = some d → d.sleeps count = false ∧ d.spins = false
  | .pipeRead p => p.inUse = true → p.count ≠ 0 ∨ p.writeOpen = 0
  | object => object.ReadsAtOnce count

/-- What becomes of a read that has to. -/
def FdObject.waits (env : Env) : FdObject → Run
  | .chardev dev => if dev.any (·.spins) then .spins else .sleeps
  | .pipeRead _ =>
    if env.nonblock then .ret eagain else if env.signal then .ret (-1) else .sleeps
  | .tty _ => if env.signal then .ret (-1) else .sleeps
  | _ => .sleeps

theorem readFd_splits (done : Option Nat) (hok : h.object.Ok) (hb : Reaches env addr count) :
    (readFd env done h addr count).Splits (h.object.Readable count) (h.object.waits env) := by
  have hle : ∀ n ≤ count, env.prepares addr n = true := fun n => hb.le
  have hdone := transfer_answers done
  obtain ⟨object, readable, writable⟩ := h
  unfold readFd
  cases object with
  | file offset size =>
    refine Run.Answers.splits ?_ trivial
    dsimp only
    split
    · exact answers_nat 0
    · rwa [if_pos (hle _ (Nat.min_le_left ..))]
  | blockdev offset size =>
    refine Run.Answers.splits ?_ trivial
    dsimp only
    split
    · exact answers_nat 0
    · exact hdone
  | procfile => exact hdone.splits trivial
  | dir | pipeWrite p => exact answers_error.splits trivial
  | chardev dev =>
    have hone : (Run.ret 1).Answers := answers_nat 1
    have hchunk := hle _ (Nat.min_le_left count userIoChunk)
    obtain _ | ⟨_ | sleeps, readChar, write⟩ := dev
    · exact answers_error.splits (by simp [FdObject.Readable])
    · obtain _ | _ | _ := readChar <;>
        simp [Run.Splits, FdObject.Readable, FdObject.waits, CharDev.sleeps, CharDev.spins,
          hle 1 hb.pos, answers_error, hone]
    · cases hs : sleeps (min count userIoChunk) <;>
        simp [Run.Splits, FdObject.Readable, FdObject.waits, CharDev.sleeps, CharDev.spins, hs,
          hchunk, hdone]
  | pipeRead p =>
    cases huse : p.inUse with
    | false => simp [Run.Splits, FdObject.Readable, huse, answers_error]
    | true =>
      by_cases hempty : p.count = 0
      · by_cases hclosed : p.writeOpen = 0
        · simpa [Run.Splits, FdObject.Readable, readRun, huse, hempty, hclosed, Stop.run] using
            answers_nat 0
        · simp only [Run.Splits, FdObject.Readable, FdObject.waits, readRun, huse, hempty, hclosed]
          cases env.nonblock <;> cases env.signal <;> simp [Stop.run]
      · simpa [Run.Splits, FdObject.Readable, huse, hempty] using readRun_answers hb hok hempty
  | tty t =>
    dsimp only
    rw [hle _ (Nat.min_le_left ..)]
    cases t with
    | none => exact answers_error.splits fun t' ht => nomatch ht
    | some t =>
      have hread := ttyRead_splits t env.signal
        (show 0 < min count ttyRawBufSize from Nat.lt_min.mpr ⟨hb.pos, by decide⟩)
      exact ⟨fun hr => hread.1 (hr t rfl),
        fun hr => hread.2 fun ht => hr fun t' he => Option.some.inj he ▸ ht⟩
  | pty master p => exact ptyRead_splits hb
  | wm event serverMsg =>
    refine Run.Answers.splits ?_ trivial
    rwa [if_pos (hle _ (Nat.min_le_left ..))]

/-- The states in which POLLIN is the state of the object. -/
theorem pollIn_iff : (pollIn h = true ↔ h.object.Readable 1) ↔ h.object.InAgrees := by
  obtain ⟨object, readable, writable⟩ := h
  unfold pollIn FdObject.InAgrees FdObject.Readable
  cases object with
  | chardev dev =>
    cases dev with
    | none => simp
    | some d => simp [or_iff_not_imp_left]
  | pipeRead p => cases huse : p.inUse <;> simp [huse, Nat.pos_iff_ne_zero]
  | tty t =>
    cases t with
    | none => simp [FdObject.ReadsAtOnce]
    | some t =>
      have hdata : ttyReadAvailable t > 0 → TtyReturns t := by
        unfold ttyReadAvailable TtyReturns
        intro h
        right
        split at h
        next hc =>
          rw [if_pos hc]
          split at h
          next hready => exact hready
          · cases h
        next hc =>
          rw [if_neg hc]
          exact .inl fun he => by rw [he, if_pos le_rfl, Nat.sub_self] at h; omega
      simp only [FdObject.ReadsAtOnce, decide_eq_true_eq, Option.some.injEq, forall_eq',
        exists_eq_left']
      exact ⟨fun hiff => hiff.mpr, fun himp => ⟨hdata, himp⟩⟩
  | pty master p => cases huse : p.inUse <;>
      simp [FdObject.ReadsAtOnce, huse, Nat.pos_iff_ne_zero]
  | _ => simp [FdObject.ReadsAtOnce]

theorem pollin_law_iff (hok : h.object.Ok) (hb : Reaches env.waiting addr 1) :
    (pollIn h = true ↔ ∃ r, readFd env.waiting done h addr 1 = .ret r) ↔ h.object.InAgrees := by
  rw [(readFd_splits done hok hb).returns_iff fun r => ?_, pollIn_iff]
  cases h.object with
  | chardev dev =>
    simp only [FdObject.waits]
    split <;> simp
  | _ => simp [FdObject.waits, Env.waiting]

/-- A call to a device must sleep neither for its own size nor for a byte. -/
theorem nonblock_chardev_iff {dev : Option CharDev} {x x1 : Run}
    (hx : x.Splits ((FdObject.chardev dev).Readable count) ((FdObject.chardev dev).waits env))
    (hx1 : x1.Splits ((FdObject.chardev dev).Readable 1)
      ((FdObject.chardev dev).waits env.waiting)) :
    (x ≠ .sleeps ∧ (x = .ret eagain ↔ x1 = .sleeps)) ↔
      (FdObject.chardev dev).ReadsAtOnce count := by
  have hboth : ∀ {y y1 : Run}, y.Answers → y1.Answers →
      y ≠ .sleeps ∧ (y = .ret eagain ↔ y1 = .sleeps) := fun hy hy1 =>
    ⟨hy.awake.1, iff_of_false hy.awake.2 hy1.awake.1⟩
  cases dev with
  | none => exact iff_of_true (hboth (hx.1 (by simp [FdObject.Readable]))
      (hx1.1 (by simp [FdObject.Readable]))) (by simp [FdObject.ReadsAtOnce])
  | some d =>
    simp only [FdObject.Readable, FdObject.waits, FdObject.ReadsAtOnce, Option.some.injEq,
      forall_eq', Option.any_some] at hx hx1 ⊢
    cases hspins : d.spins with
    | true =>
      -- without `read` nothing sleeps
      have hsleeps : ∀ n, d.sleeps n = false := by
        simp only [CharDev.spins, Bool.and_eq_true, Option.isNone_iff_eq_none] at hspins
        simp [CharDev.sleeps, hspins.1]
      rw [hx.2 (by simp [hspins]), hx1.2 (by simp [hspins])]
      simp [hspins, hsleeps]
    | false =>
      simp only [hspins, and_true] at hx hx1
      cases hs : d.sleeps count with
      | true => exact iff_of_false (fun hc => hc.1 (hx.2 (by simp [hs]))) (by simp)
      | false =>
        cases hs1 : d.sleeps 1 with
        | true =>
          exact iff_of_false (fun hc => (hx.1 hs).awake.2 (hc.2.mpr (hx1.2 (by simp [hs1]))))
            (by simp)
        | false => exact iff_of_true (hboth (hx.1 hs) (hx1.1 hs1)) (by simp)

/-- A read with O_NONBLOCK does not sleep and tells, if the object is a pipe or does not have
to be waited for. -/
theorem nonblock_read_iff (hok : h.object.Ok) (hn : env.nonblock = true)
    (hb : Reaches env addr count) :
    (readFd env done h addr count ≠ .sleeps ∧ (readFd env done h addr count = .ret eagain ↔
      readFd env.waiting done h addr 1 = .sleeps)) ↔ h.object.ReadsAtOnce count := by
  obtain ⟨hyes, hno⟩ := readFd_splits done hok hb
  obtain ⟨hyes1, hno1⟩ := readFd_splits done hok hb.one
  by_cases hdev : ∃ dev, h.object = .chardev dev
  · -- whether a device makes the call wait depends on its size
    obtain ⟨dev, ho⟩ := hdev
    rw [ho] at hyes hno hyes1 hno1 ⊢
    exact nonblock_chardev_iff ⟨hyes, hno⟩ ⟨hyes1, hno1⟩
  have hsame : h.object.Readable 1 ↔ h.object.Readable count := by
    cases ho : h.object with
    | chardev dev => exact absurd ⟨dev, ho⟩ hdev
    | _ => exact Iff.rfl
  have hiff : h.object.Readable count → h.object.ReadsAtOnce count := by
    intro hr
    cases ho : h.object with
    | chardev dev => exact absurd ⟨dev, ho⟩ hdev
    | _ => rw [ho] at hr; first | exact trivial | exact hr
  by_cases hr : h.object.Readable count
  · exact iff_of_true ⟨(hyes hr).awake.1,
      iff_of_false (hyes hr).awake.2 (hyes1 (hsame.mpr hr)).awake.1⟩ (hiff hr)
  · rw [hno hr, hno1 fun hr1 => hr (hsame.mp hr1)]
    cases ho : h.object with
    | chardev dev => exact absurd ⟨dev, ho⟩ hdev
    | pipeRead p => simp [FdObject.waits, FdObject.ReadsAtOnce, Env.waiting, hn]
    | tty t =>
      rw [ho] at hr
      refine iff_of_false ?_ hr
      cases hs : env.signal <;> simp [FdObject.waits, Env.waiting, hs, eagain]
    | _ =>
      rw [ho] at hr
      exact iff_of_false (fun hc => hc.1 rfl) hr

/-! ## Writes -/

/-- A write to anything but a pipe. -/
theorem writeFd_splits (done : Option Nat) (hok : h.object.Ok)
    (hpipe : ∀ p, h.object ≠ .pipeWrite p) (hb : Reaches env addr buf.length) :
    (writeFd env done h addr buf).Splits (h.object.WritesAtOnce buf.length) .sleeps := by
  have hc : buf ≠ [] := List.ne_nil_of_length_pos hb.pos
  have hdone := transfer_answers done
  obtain ⟨object, readable, writable⟩ := h
  cases object with
  | pty master p => exact ptyWrite_splits hb hok
  | pipeWrite p => exact absurd rfl (hpipe p)
  | file offset size =>
    refine Run.Answers.splits ?_ trivial
    cases writable with
    | false => exact ⟨ebadf, rfl, by decide⟩
    | true => simpa [writeFd, hc, hb.prepares] using hdone
  | tty t =>
    refine Run.Answers.splits ?_ trivial
    cases writable with
    | false => exact answers_error
    | true => simpa [writeFd, hb.prepares] using answers_nat buf.length
  | chardev dev =>
    refine Run.Answers.splits ?_ trivial
    have hle := hb.le (Nat.min_le_left _ userIoChunk)
    obtain _ | ⟨read, readChar, _ | _⟩ := dev <;> simp [writeFd, answers_error, hc, hle, hdone]
  | wm event serverMsg =>
    refine Run.Answers.splits ?_ trivial
    unfold writeFd
    dsimp only
    split
    · exact answers_error
    · exact hdone
  | _ => exact answers_error.splits trivial

/-- A write to a pipe that is full goes as the wait for room, and else it answers if it does not
sleep or is a byte. -/
theorem writeFd_pipe {p : PipeBuf} (done : Option Nat) (ho : h.object = .pipeWrite p)
    (hok : h.object.Ok) (hb : Reaches env addr buf.length) :
    (h.object.OutAgrees → env.nonblock = true ∨ buf.length = 1 →
      (writeFd env done h addr buf).Answers) ∧
    (¬ h.object.OutAgrees → ∀ stop, waitRoom env p 0 = some stop →
      writeFd env done h addr buf = stop.run) := by
  rw [ho] at hok
  unfold writeFd FdObject.OutAgrees writeRefused
  rw [ho]
  dsimp only
  by_cases hopen : p.inUse = true ∧ p.readOpen ≠ 0
  · rw [if_neg (by simp [hopen.1, hopen.2, hb.prepares])]
    refine ⟨fun hroom hor => ?_, fun hno stop hstop => by rw [writeRun_full hb hstop]⟩
    have hroom := hroom hopen.1 hopen.2
    rcases hor with hn | hone
    · exact writeRun_nonblock hok hn hroom
    · have hcap : p.count ≤ pipeBufSize := hok.le
      obtain ⟨r, hr⟩ := writeRun_fits (startWrite_ok hok : (startWrite p addr buf).Ok)
        ⟨by show p.count + (buf.length - 0) ≤ _; omega, hb.word, hb.buffer⟩
      refine (writeRun_ends hok rfl).elim (fun hwait => ?_) id
      rw [hr] at hwait
      unfold waitRoom at hwait
      split at hwait
      · split at hwait
        · cases hwait
        · split at hwait <;> cases hwait
      · cases hwait
  · have hrefused : (decide (p.inUse = false) || decide (p.readOpen = 0) ||
        !env.prepares addr buf.length) = true := by
      cases hu : p.inUse <;> simp_all
    rw [if_pos hrefused]
    exact ⟨fun _ _ => answers_error, fun hno => absurd (fun hu hr => absurd ⟨hu, hr⟩ hopen) hno⟩

/-- What a wait at a full pipe does. -/
theorem waitRoom_full {p : PipeBuf} (ho : ¬ (FdObject.pipeWrite p).OutAgrees) (env : Env) :
    (env.nonblock = true → waitRoom env p 0 = some (.ret eagain)) ∧
      waitRoom env.waiting p 0 = some .block := by
  simp only [FdObject.OutAgrees, not_forall, not_not] at ho
  obtain ⟨-, hr, hfull⟩ := ho
  unfold waitRoom Env.waiting
  exact ⟨fun hn => by rw [if_pos hfull, if_pos hn]; rfl,
    by rw [if_pos hfull, if_neg (by simp), if_neg (by simp [hr])]⟩

/-- A one-byte write sleeps where POLLOUT is not right. -/
theorem writeFd_one_splits (done : Option Nat) (hok : h.object.Ok)
    (hb : Reaches env addr buf.length) :
    (writeFd env.waiting done h addr (buf.take 1)).Splits h.object.OutAgrees .sleeps := by
  have hone : (buf.take 1).length = 1 := by
    rw [List.length_take]
    exact Nat.min_eq_left hb.pos
  have hb1 : Reaches env.waiting addr (buf.take 1).length := by
    rw [hone]
    exact hb.one
  by_cases hpipe : ∃ p, h.object = .pipeWrite p
  · obtain ⟨p, ho⟩ := hpipe
    obtain ⟨hyes, hno⟩ := writeFd_pipe done ho hok hb1
    exact ⟨fun hout => hyes hout (.inr hone),
      fun hout => hno hout .block (waitRoom_full (ho ▸ hout) env).2⟩
  · have hne : ∀ p, h.object ≠ .pipeWrite p := fun p ho => hpipe ⟨p, ho⟩
    have hspec := writeFd_splits done hok hne hb1
    rw [hone] at hspec
    cases ho : h.object with
    | pipeWrite p => exact absurd ho (hne p)
    | _ => rwa [ho] at hspec

theorem nonblock_write_iff (hok : h.object.Ok) (hn : env.nonblock = true)
    (hb : Reaches env addr buf.length) :
    (writeFd env done h addr buf ≠ .sleeps ∧ (writeFd env done h addr buf = .ret eagain ↔
      writeFd env.waiting done h addr (buf.take 1) = .sleeps)) ↔
      h.object.WritesAtOnce buf.length := by
  obtain ⟨hone, honeNo⟩ := writeFd_one_splits done hok hb
  by_cases hpipe : ∃ p, h.object = .pipeWrite p
  · obtain ⟨p, ho⟩ := hpipe
    obtain ⟨hyes, hno⟩ := writeFd_pipe done ho hok hb
    refine iff_of_true ?_ (by rw [ho]; trivial)
    by_cases hout : h.object.OutAgrees
    · have hans := (hyes hout (.inl hn)).awake
      exact ⟨hans.1, iff_of_false hans.2 (hone hout).awake.1⟩
    · rw [hno hout _ ((waitRoom_full (ho ▸ hout) env).1 hn)]
      exact ⟨nofun, iff_of_true rfl (honeNo hout)⟩
  · have hne : ∀ p, h.object ≠ .pipeWrite p := fun p ho => hpipe ⟨p, ho⟩
    obtain ⟨hyes, hno⟩ := writeFd_splits done hok hne hb
    by_cases hall : h.object.WritesAtOnce buf.length
    · -- if all bytes fit, one does
      have hout : h.object.OutAgrees := by
        have hpos := hb.pos
        cases ho : h.object with
        | pipeWrite p => exact absurd ho (hne p)
        | pty master p =>
          rw [ho] at hall
          exact fun hu => (hall hu).imp_left fun hle => by omega
        | _ => trivial
      have hans := (hyes hall).awake
      exact iff_of_true ⟨hans.1, iff_of_false hans.2 (hone hout).awake.1⟩ hall
    · exact iff_of_false (fun hc => hc.1 (hno hall)) hall

end Law

/-- The write end of a pipe with a reader, with `count` bytes in the pipe. -/
def pipeEnd (count : Nat) : PollHandle where
  object := .pipeWrite
    { buf := fun _ => 0, readIdx := 0, writeIdx := count % pipeBufSize, count, readOpen := 1
      writeOpen := 1, inUse := true }
  readable := false
  writable := true

theorem pipeEnd_ok {count : Nat} (h : count ≤ pipeBufSize) : (pipeEnd count).object.Ok :=
  ⟨h, show 0 < pipeBufSize by decide, congrArg (· % pipeBufSize) (Nat.zero_add count)⟩

end Drunix.Proc
