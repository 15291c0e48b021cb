import Drunix.Drivers.TtyCanon

/-!
# Input between the statements of a read

System calls run with interrupts enabled, so `tty_input_char` runs between any two statements of
`tty_read` and `sched_block` (`drivers/tty.c`, `proc/sched.c`). Here a read goes
statement by statement (`Pc`), and a key may come in before each one.

`no_lost_input`: what was accepted is what was returned, what the running read holds and what is
buffered, in this order, and no reader is blocked while there is data, as long as no key comes in
where `Key.Safe` forbids it: while the length of the line is being taken over, while the flag is
being cleared, and between the test for data and the block.

Mirroring notes:
- The kernel does not preempt itself: a reader in the kernel runs until it returns or blocks, so
  at most one is in the middle of a read. `tty_input_char` runs with interrupts disabled.
- `k_memcpy` and `k_memmove` are one statement each. The characters that `arch_poll_input` fetches
  are keys before the second check.
- The signals that a key sends come as `signal` operations of their own. A signal wakes a reader
  that is blocked, and is `signaled` for a reader that runs.
- `linked i` says that `wait_queue` of the process points to `read_waiters`.
-/

namespace Drunix.Drivers

open Lib Function

/-! ## The statements -/

/-- The next statement of a read, with its variables. -/
inductive Pc where
  | check
  | recheck
  | test
  | size
  | copy (n : Nat)
  | rest (n : Nat) (buf : List UInt8)
  | move (n : Nat) (buf : List UInt8) (remaining : Nat)
  | setLen (buf : List UInt8) (remaining : Nat)
  | testEmpty (buf : List UInt8) (remaining : Nat)
  | clear (buf : List UInt8)
  | loop (buf : List UInt8)
  | take (buf : List UInt8)
  | advance (buf : List UInt8)
  | vmin
  | clearWait
  | enqueue
  | setQueue
  | setBlocked
  | ret (buf : List UInt8)

/-- A read that runs. -/
structure Run where
  reader : Nat
  count : Nat
  pc : Pc

/-- A process: outside of a read or running, or in `schedule` under `sched_block`. -/
inductive Reader where
  | user
  | asleep (count : Nat) (blocked : Bool)
deriving DecidableEq

/-- The terminal, its readers, and what was accepted and returned. -/
structure IntSys where
  tty : Tty := {}
  waiters : List Nat := []
  linked : Nat → Bool := fun _ => false
  readers : Nat → Reader := fun _ => .user
  running : Option Run := none
  stream : List UInt8 := []
  returned : List UInt8 := []

inductive IntOp where
  | key (c : UInt8)
  | call (i count : Nat)
  | resume (i : Nat)
  | run (signaled : Bool)
  | signal (i : Nat)

def Reader.wake : Reader → Reader
  | .user => .user
  | .asleep count _ => .asleep count false

/-- `sched_wake_all`. -/
def wakeAll (s : IntSys) : IntSys :=
  { s with
    waiters := []
    linked := fun i => if i ∈ s.waiters then false else s.linked i
    readers := fun i => if i ∈ s.waiters then (s.readers i).wake else s.readers i }

/-- `sched_clear_wait`. -/
def clearWait (s : IntSys) (i : Nat) : IntSys :=
  { s with
    waiters := if s.linked i then s.waiters.erase i else s.waiters
    linked := update s.linked i false }

/-- There is room for a character. -/
def Tty.HasRoom (t : Tty) : Prop :=
  if t.termios.canonical then t.canonLen < ttyCanonBufSize - 1
  else (t.rawHead + 1) % ttyRawBufSize ≠ t.rawTail
deriving Decidable

/-- What was accepted, after a key. -/
def Tty.accept (t : Tty) (l : List UInt8) : Key → List UInt8
  | .signal => l
  | .erase => if t.canonLen = 0 then l else l.dropLast
  | .char c => if t.HasRoom then l ++ [c] else l

def IntSys.goto (s : IntSys) (r : Run) (pc : Pc) : IntSys :=
  { s with running := some { r with pc := pc } }

/-- A statement of the read. -/
def pcStep (s : IntSys) (r : Run) (signaled : Bool) : IntSys :=
  match r.pc with
  | .check =>
    match ttyReadWasInterrupted s.tty signaled with
    | (true, t) => { s with tty := t, running := none }
    | (false, t) => { s with tty := t }.goto r .recheck
  | .recheck =>
    match ttyReadWasInterrupted s.tty signaled with
    | (true, t) => { s with tty := t, running := none }
    | (false, t) => { s with tty := t }.goto r .test
  | .test =>
    if s.tty.termios.canonical then
      if s.tty.canonReady then s.goto r .size else s.goto r .clearWait
    else if s.tty.rawHead ≠ s.tty.rawTail then s.goto r (.loop [])
    else s.goto r .vmin
  | .size => s.goto r (.copy (min s.tty.canonLen r.count))
  | .copy n => s.goto r (.rest n (firstBytes s.tty.canonBuf n))
  | .rest n buf => s.goto r (.move n buf ((s.tty.canonLen + 2 ^ 32 - n) % 2 ^ 32))
  | .move n buf remaining =>
    let canonBuf := memcpy s.tty.canonBuf 0 s.tty.canonBuf n remaining
    { s with tty := { s.tty with canonBuf := canonBuf } }.goto r (.setLen buf remaining)
  | .setLen buf remaining =>
    { s with tty := { s.tty with canonLen := remaining } }.goto r (.testEmpty buf remaining)
  | .testEmpty buf remaining => s.goto r (if remaining = 0 then .clear buf else .ret buf)
  | .clear buf => { s with tty := { s.tty with canonReady := false } }.goto r (.ret buf)
  | .loop buf =>
    s.goto r (if buf.length < r.count ∧ s.tty.rawHead ≠ s.tty.rawTail then .take buf else .ret buf)
  | .take buf => s.goto r (.advance (buf ++ [s.tty.rawBuf s.tty.rawTail]))
  | .advance buf =>
    let rawTail := (s.tty.rawTail + 1) % ttyRawBufSize
    { s with tty := { s.tty with rawTail := rawTail } }.goto r (.loop buf)
  | .vmin => s.goto r (if s.tty.termios.cCc vmin = 0 then .ret [] else .clearWait)
  | .clearWait => (clearWait s r.reader).goto r .enqueue
  | .enqueue => { s with waiters := s.waiters ++ [r.reader] }.goto r .setQueue
  | .setQueue => { s with linked := update s.linked r.reader true }.goto r .setBlocked
  | .setBlocked =>
    { s with readers := update s.readers r.reader (.asleep r.count true), running := none }
  | .ret buf => { s with returned := s.returned ++ buf, running := none }

def intStep (s : IntSys) : IntOp → IntSys
  | .key c =>
    let r := ttyInputChar s.tty c
    let s := { s with tty := r.tty, stream := s.tty.accept s.stream (s.tty.termios.means c) }
    if r.wake then wakeAll s else s
  | .call i count =>
    if s.running.isNone ∧ s.readers i = .user ∧ count ≠ 0 then
      { s with running := some ⟨i, count, .check⟩ }
    else s
  | .resume i =>
    match s.running, s.readers i with
    | none, .asleep count false =>
      { s with readers := update s.readers i .user, running := some ⟨i, count, .check⟩ }
    | _, _ => s
  | .run signaled =>
    match s.running with
    | some r => pcStep s r signaled
    | none => s
  | .signal i =>
    match s.readers i with
    | .asleep count true =>
      let s := clearWait s i
      { s with readers := update s.readers i (.asleep count false) }
    | _ => s

/-! ## What is to hold -/

/-- The number of bytes in the ring. -/
def Tty.rawLen (t : Tty) : Nat :=
  if t.rawHead ≥ t.rawTail then t.rawHead - t.rawTail else ttyRawBufSize - t.rawTail + t.rawHead

def Tty.ring (t : Tty) : List UInt8 := RingBuf.window ttyRawBufSize t.rawBuf t.rawTail t.rawLen

/-- What is buffered. -/
def Tty.buffered (t : Tty) : List UInt8 := if t.termios.canonical then t.line else t.ring

/-- The bytes that a read holds and has taken out of the buffer. -/
def Pc.held : Pc → List UInt8
  | .setLen buf _ | .testEmpty buf _ | .clear buf | .loop buf | .take buf | .ret buf => buf
  | .advance buf => buf.dropLast
  | _ => []

/-- What is buffered besides; before the new length is set, that many bytes are left. -/
def Pc.unread (t : Tty) : Pc → List UInt8
  | .setLen _ remaining => firstBytes t.canonBuf remaining
  | _ => t.buffered

def heldBy : Option Run → List UInt8
  | some r => r.pc.held
  | none => []

def unreadBy (t : Tty) : Option Run → List UInt8
  | some r => r.pc.unread t
  | none => t.buffered

/-- Every accepted character was returned, is in the hands of the running read or is buffered, in
this order. -/
def Kept (s : IntSys) : Prop :=
  s.stream = s.returned ++ heldBy s.running ++ unreadBy s.tty s.running

/-- A complete line, or a byte. -/
def Tty.HasData (t : Tty) : Prop :=
  if t.termios.canonical then t.canonReady = true ∨ newline ∈ t.line else t.rawHead ≠ t.rawTail

/-- No reader is blocked while there is data. -/
def Awake (s : IntSys) : Prop := ∀ i count, s.readers i = .asleep count true → ¬s.tty.HasData

/-! ## Where a key may come in -/

/-- The key makes a complete line, or a byte. -/
def Key.Completes (t : Tty) : Key → Prop
  | .char c => t.termios.canonical = true → c = newline
  | _ => False

/-- The key wakes the readers. -/
def Key.Wakes (t : Tty) : Key → Prop
  | .signal => t.fgPgid ≠ 0
  | .erase => False
  | .char c => t.termios.canonical = true → c = newline

/-- The key leaves what is buffered. -/
def Key.Leaves (t : Tty) : Key → Prop
  | .signal => True
  | .erase => t.canonLen = 0
  | .char _ => ¬t.HasRoom

/-- The key may come in before this statement. -/
def Key.Safe (t : Tty) (k : Key) : Pc → Prop
  | .copy n | .rest n _ => k = .erase → n < t.canonLen
  | .move _ _ _ | .setLen _ _ => k.Leaves t
  | .testEmpty _ remaining => remaining = 0 → k = .char newline → ¬t.HasRoom
  | .clear _ => k = .char newline → ¬t.HasRoom
  | .vmin => t.termios.cCc vmin ≠ 0 → ¬k.Completes t
  | .clearWait | .enqueue => ¬k.Completes t
  | .setQueue | .setBlocked => ¬k.Wakes t
  | _ => True

instance (t : Tty) (k : Key) (pc : Pc) : Decidable (k.Safe t pc) := by
  cases k <;> cases pc <;> dsimp only [Key.Safe, Key.Leaves, Key.Completes, Key.Wakes] <;>
    infer_instance

def IntOp.Safe (s : IntSys) : IntOp → Prop
  | .key c => ∀ r, s.running = some r → (s.tty.termios.means c).Safe s.tty r.pc
  | _ => True

instance (s : IntSys) : ∀ op : IntOp, Decidable (op.Safe s)
  | .key c => inferInstanceAs
      (Decidable (∀ r ∈ s.running, (s.tty.termios.means c).Safe s.tty r.pc))
  | .call _ _ | .resume _ | .run _ | .signal _ => .isTrue trivial

/-! ## The buffers -/

variable {pc : Pc} {c : UInt8}

section

variable {t : Tty} {r : Input} {k : Key}

/-- The indices of the ring and the length of the line are in range. -/
structure Tty.InRange (t : Tty) : Prop where
  head : t.rawHead < ttyRawBufSize
  tail : t.rawTail < ttyRawBufSize
  len : t.canonLen < ttyCanonBufSize

theorem Tty.InRange.rawHead_eq (h : t.InRange) : (t.rawTail + t.rawLen) % ttyRawBufSize = t.rawHead := by
  obtain ⟨hhead, htail, -⟩ := h
  unfold Tty.rawLen ttyRawBufSize at *
  split <;> omega

theorem Tty.InRange.rawLen_lt (h : t.InRange) : t.rawLen < ttyRawBufSize := by
  obtain ⟨hhead, htail, -⟩ := h
  unfold Tty.rawLen ttyRawBufSize at *
  split <;> omega

theorem rawPut_ring (h : t.InRange) (hroom : (t.rawHead + 1) % ttyRawBufSize ≠ t.rawTail)
    (c : UInt8) : (rawPut t c).ring = t.ring ++ [c] := by
  have hput : rawPut t c = { t with
      rawBuf := update t.rawBuf t.rawHead c
      rawHead := (t.rawHead + 1) % ttyRawBufSize } := if_pos hroom
  have hlen : (rawPut t c).rawLen = t.rawLen + 1 := by
    obtain ⟨hhead, htail, -⟩ := h
    rw [hput]
    unfold Tty.rawLen ttyRawBufSize at *
    split <;> split <;> dsimp only at * <;> omega
  unfold Tty.ring
  rw [hlen, hput, RingBuf.window_add]
  dsimp only
  rw [RingBuf.window_one, h.rawHead_eq, update_self]
  congr 1
  rw [← h.rawHead_eq]
  exact RingBuf.window_update _ _ le_rfl h.rawLen_lt

theorem ring_advance (h : t.InRange) (hne : t.rawHead ≠ t.rawTail) : t.ring =
      t.rawBuf t.rawTail :: { t with rawTail := (t.rawTail + 1) % ttyRawBufSize : Tty }.ring := by
  have hlen : t.rawLen =
      1 + { t with rawTail := (t.rawTail + 1) % ttyRawBufSize : Tty }.rawLen := by
    obtain ⟨hhead, htail, -⟩ := h
    unfold Tty.rawLen ttyRawBufSize at *
    split <;> split <;> dsimp only at * <;> omega
  unfold Tty.ring
  rw [hlen, RingBuf.window_add, RingBuf.window_one, Nat.mod_eq_of_lt h.tail, RingBuf.window_mod]
  rfl

theorem Tty.hasRoom_canon (h : t.termios.canonical = true) :
    t.HasRoom ↔ t.canonLen < ttyCanonBufSize - 1 := by
  rw [Tty.HasRoom, if_pos h]

theorem Tty.hasRoom_raw (h : t.termios.canonical = false) :
    t.HasRoom ↔ (t.rawHead + 1) % ttyRawBufSize ≠ t.rawTail := by
  rw [Tty.HasRoom, h]
  exact Iff.rfl

theorem Tty.buffered_canon (h : t.termios.canonical = true) : t.buffered = t.line := by
  rw [Tty.buffered, if_pos h]

theorem Tty.buffered_raw (h : t.termios.canonical = false) : t.buffered = t.ring := by
  rw [Tty.buffered, h]
  rfl

theorem Arrives.canon (h : Arrives t r (.char c)) (hcanon : t.termios.canonical = true) :
    r.tty = canonPut t c ∧ r.wake = (c == newline) := by
  rwa [Arrives, if_pos hcanon] at h

theorem Arrives.raw (h : Arrives t r (.char c)) (hraw : t.termios.canonical = false) :
    r.tty = rawPut t c ∧ r.wake = true := by
  rw [Arrives, hraw] at h
  exact h

theorem rawPut_full (h : ¬(t.rawHead + 1) % ttyRawBufSize ≠ t.rawTail) (c : UInt8) :
    rawPut t c = t := if_neg h

theorem rawPut_termios (t : Tty) (c : UInt8) : (rawPut t c).termios = t.termios := by
  unfold rawPut
  dsimp only
  split <;> rfl

theorem rawPut_line (t : Tty) (c : UInt8) : (rawPut t c).line = t.line := by
  unfold rawPut
  dsimp only
  split <;> rfl

section

variable (h : Arrives t r k)

include h

/-- What a key does to what is buffered. -/
theorem Arrives.buffered (hr : t.InRange) : r.tty.buffered = t.accept t.buffered k := by
  cases k with
  | signal =>
    obtain ⟨⟨b, htty⟩, -⟩ := h
    rw [htty]
    rfl
  | erase =>
    obtain ⟨hcanon, htty, -⟩ := h
    have hline := erase_line t
    rw [htty]
    unfold Tty.buffered Tty.accept
    dsimp only
    rw [if_pos hcanon, if_pos hcanon, hline]
    split
    · next hzero => rw [List.eq_nil_of_length_eq_zero ((Tty.line_length t).trans hzero)]; rfl
    · rfl
  | char c =>
    show _ = if t.HasRoom then t.buffered ++ [c] else t.buffered
    cases hcanon : t.termios.canonical with
    | true =>
      obtain ⟨htty, -⟩ := h.canon hcanon
      have hterm := canonPut_termios t c
      rw [htty, Tty.buffered_canon hcanon, Tty.buffered_canon (hterm ▸ hcanon)]
      split
      · next hroom => exact canonPut_line ((Tty.hasRoom_canon hcanon).mp hroom) c
      · next hfull => exact canonPut_full (fun hlt => hfull ((Tty.hasRoom_canon hcanon).mpr hlt)) c
    | false =>
      obtain ⟨htty, -⟩ := h.raw hcanon
      have hterm := rawPut_termios t c
      rw [htty, Tty.buffered_raw hcanon, Tty.buffered_raw (hterm ▸ hcanon)]
      split
      · next hroom => exact rawPut_ring hr ((Tty.hasRoom_raw hcanon).mp hroom) c
      · next hfull => rw [rawPut_full fun hne => hfull ((Tty.hasRoom_raw hcanon).mpr hne)]

/-- What a key does to the line. -/
theorem Arrives.line : r.tty.line = t.line ∨ (k = .erase ∧ r.tty.line = t.line.dropLast) ∨
      ∃ c, k = .char c ∧ t.HasRoom ∧ r.tty.line = t.line ++ [c] := by
  cases k with
  | signal =>
    obtain ⟨⟨b, htty⟩, -⟩ := h
    exact .inl (by rw [htty]; rfl)
  | erase =>
    obtain ⟨-, htty, -⟩ := h
    exact .inr (.inl ⟨rfl, by rw [htty]; exact erase_line t⟩)
  | char c =>
    cases hcanon : t.termios.canonical with
    | true =>
      rw [(h.canon hcanon).1]
      by_cases hroom : t.canonLen < ttyCanonBufSize - 1
      · exact .inr (.inr ⟨c, rfl, (Tty.hasRoom_canon hcanon).mpr hroom, canonPut_line hroom c⟩)
      · exact .inl (canonPut_full hroom c)
    | false =>
      rw [(h.raw hcanon).1]
      exact .inl (rawPut_line t c)

theorem Arrives.termios : r.tty.termios = t.termios := by
  cases k with
  | signal =>
    obtain ⟨⟨b, htty⟩, -⟩ := h
    rw [htty]
  | erase => rw [h.2.1]
  | char c =>
    cases hcanon : t.termios.canonical with
    | true => rw [(h.canon hcanon).1, canonPut_termios]
    | false => rw [(h.raw hcanon).1, rawPut_termios]

theorem Arrives.wake_iff : r.wake = true ↔ k.Wakes t := by
  cases k with
  | signal => exact h.2
  | erase =>
    rw [h.2.2]
    exact ⟨nofun, False.elim⟩
  | char c =>
    show _ ↔ (t.termios.canonical = true → c = newline)
    cases hcanon : t.termios.canonical with
    | true =>
      rw [(h.canon hcanon).2, beq_iff_eq]
      exact ⟨fun hc _ => hc, fun hc => hc rfl⟩
    | false =>
      rw [(h.raw hcanon).2]
      exact ⟨fun _ => nofun, fun _ => rfl⟩

/-- The flag is only set. -/
theorem Arrives.ready : r.tty.canonReady = t.canonReady ∨
      k = .char newline ∧ r.tty.canonReady = true := by
  cases k with
  | signal =>
    obtain ⟨⟨b, htty⟩, -⟩ := h
    exact .inl (by rw [htty])
  | erase => exact .inl (by rw [h.2.1])
  | char c =>
    cases hcanon : t.termios.canonical with
    | true =>
      rw [(h.canon hcanon).1, canonPut_ready]
      by_cases hc : c = newline
      · exact .inr ⟨by rw [hc], by simp [hc]⟩
      · exact .inl (by simp [hc])
    | false =>
      rw [(h.raw hcanon).1]
      unfold rawPut
      dsimp only
      split <;> exact .inl rfl

omit h

theorem canonPut_raw (t : Tty) (c : UInt8) :
    (canonPut t c).rawHead = t.rawHead ∧ (canonPut t c).rawTail = t.rawTail := by
  unfold canonPut
  split <;> split <;> exact ⟨rfl, rfl⟩

include h

/-- A key only moves the head of the ring, and only in raw mode. -/
theorem Arrives.raw_head : (r.tty.rawHead = t.rawHead ∧ r.tty.rawTail = t.rawTail) ∨
      (∃ c, k = .char c) ∧ r.tty.rawTail = t.rawTail ∧
        r.tty.rawHead = (t.rawHead + 1) % ttyRawBufSize := by
  cases k with
  | signal =>
    obtain ⟨⟨b, htty⟩, -⟩ := h
    exact .inl (by rw [htty]; exact ⟨rfl, rfl⟩)
  | erase => exact .inl (by rw [h.2.1]; exact ⟨rfl, rfl⟩)
  | char c =>
    cases hcanon : t.termios.canonical with
    | true =>
      rw [(h.canon hcanon).1]
      exact .inl (canonPut_raw t c)
    | false =>
      rw [(h.raw hcanon).1]
      by_cases hroom : (t.rawHead + 1) % ttyRawBufSize ≠ t.rawTail
      · refine .inr ⟨⟨c, rfl⟩, ?_, ?_⟩ <;> rw [rawPut, if_pos hroom]
      · exact .inl (by rw [rawPut_full hroom]; exact ⟨rfl, rfl⟩)

/-- The first byte of the ring stays. -/
theorem Arrives.raw_front (hraw : t.termios.canonical = false) (hne : t.rawHead ≠ t.rawTail) :
    r.tty.rawHead ≠ r.tty.rawTail ∧ r.tty.rawBuf r.tty.rawTail = t.rawBuf t.rawTail := by
  cases k with
  | signal =>
    obtain ⟨⟨b, htty⟩, -⟩ := h
    rw [htty]
    exact ⟨hne, rfl⟩
  | erase => exact absurd h.1 (by rw [hraw]; exact nofun)
  | char c =>
    rw [(h.raw hraw).1]
    by_cases hroom : (t.rawHead + 1) % ttyRawBufSize ≠ t.rawTail
    · rw [rawPut, if_pos hroom]
      exact ⟨hroom, update_of_ne hne.symm _ _⟩
    · rw [rawPut_full hroom]
      exact ⟨hne, rfl⟩

/-- A key that leaves what is buffered leaves the line buffer. -/
theorem Arrives.leaves (hl : k.Leaves t) :
    r.tty.canonBuf = t.canonBuf ∧ r.tty.canonLen = t.canonLen := by
  cases k with
  | signal =>
    obtain ⟨⟨b, htty⟩, -⟩ := h
    rw [htty]
    exact ⟨rfl, rfl⟩
  | erase =>
    have hzero : t.canonLen = 0 := hl
    rw [h.2.1]
    exact ⟨rfl, by dsimp only; omega⟩
  | char c =>
    cases hcanon : t.termios.canonical with
    | true =>
      have hfull : ¬t.canonLen < ttyCanonBufSize - 1 :=
        fun hlt => hl ((Tty.hasRoom_canon hcanon).mpr hlt)
      rw [(h.canon hcanon).1, canonPut, if_neg hfull]
      split <;> exact ⟨rfl, rfl⟩
    | false =>
      rw [(h.raw hcanon).1, rawPut_full fun hne => hl ((Tty.hasRoom_raw hcanon).mpr hne)]
      exact ⟨rfl, rfl⟩

theorem Arrives.inRange (hr : t.InRange) : r.tty.InRange := by
  have hpos : 0 < ttyRawBufSize := by decide
  have hlen : r.tty.canonLen < ttyCanonBufSize := by
    have hlt := hr.len
    rw [← Tty.line_length] at hlt ⊢
    rcases h.line with hline | ⟨-, hline⟩ | ⟨c, rfl, hroom, hline⟩
    · rwa [hline]
    · rw [hline, List.length_dropLast]
      omega
    · by_cases hfull : t.canonLen < ttyCanonBufSize - 1
      · rw [hline, List.length_append, Tty.line_length, List.length_singleton]
        omega
      · cases hcanon : t.termios.canonical with
        | true => exact absurd ((Tty.hasRoom_canon hcanon).mp hroom) hfull
        | false => rwa [(h.raw hcanon).1, rawPut_line]
  rcases h.raw_head with ⟨hhead, htail⟩ | ⟨-, htail, hhead⟩
  · exact ⟨hhead ▸ hr.head, htail ▸ hr.tail, hlen⟩
  · exact ⟨hhead ▸ Nat.mod_lt _ hpos, htail ▸ hr.tail, hlen⟩

omit h

/-- No data. -/
def Tty.Idle (t : Tty) : Prop :=
  if t.termios.canonical then t.canonReady = false else t.rawHead = t.rawTail

theorem Tty.idle_canon (h : t.termios.canonical = true) : t.Idle ↔ t.canonReady = false := by
  rw [Tty.Idle, if_pos h]

theorem Tty.idle_raw (h : t.termios.canonical = false) : t.Idle ↔ t.rawHead = t.rawTail := by
  rw [Tty.Idle, h]
  exact Iff.rfl

include h

theorem Arrives.idle (hno : ¬k.Completes t) (hi : t.Idle) : r.tty.Idle := by
  cases hcanon : t.termios.canonical with
  | true =>
    rw [Tty.idle_canon (h.termios ▸ hcanon)]
    rw [Tty.idle_canon hcanon] at hi
    rcases h.ready with hready | ⟨rfl, -⟩
    · rw [hready, hi]
    · exact absurd (fun _ => rfl) hno
  | false =>
    rw [Tty.idle_raw (h.termios ▸ hcanon)]
    rw [Tty.idle_raw hcanon] at hi
    rcases h.raw_head with ⟨hhead, htail⟩ | ⟨⟨c, rfl⟩, -⟩
    · rw [hhead, htail, hi]
    · refine absurd (fun hc => ?_) hno
      rw [hcanon] at hc
      cases hc

omit h

theorem Key.Completes.wakes (h : k.Completes t) : k.Wakes t := by
  cases k with
  | signal => exact h.elim
  | erase => exact h
  | char c => exact h

include h

/-- A read that has measured the line is not disturbed at its front. -/
theorem Arrives.line_take {n : Nat} (hn : n ≤ t.canonLen) (hsafe : k = .erase → n < t.canonLen) :
    n ≤ r.tty.canonLen ∧ r.tty.line.take n = t.line.take n := by
  rw [← Tty.line_length] at hn hsafe ⊢
  rcases h.line with hline | ⟨hk, hline⟩ | ⟨c, -, -, hline⟩
  · rw [hline]
    exact ⟨hn, rfl⟩
  · have hlt := hsafe hk
    rw [hline, List.length_dropLast, List.dropLast_eq_take, List.take_take]
    exact ⟨by omega, by rw [Nat.min_eq_left (by omega)]⟩
  · rw [hline, List.length_append, List.take_append_of_le_length hn]
    exact ⟨by omega, rfl⟩

theorem Arrives.no_newline (hsafe : k = .char newline → ¬t.HasRoom)
    (hno : newline ∉ t.line) : newline ∉ r.tty.line := by
  rcases h.line with hline | ⟨-, hline⟩ | ⟨c, rfl, hroom, hline⟩
  · rwa [hline]
  · rw [hline]
    exact fun hmem => hno (List.dropLast_subset _ hmem)
  · rw [hline]
    intro hmem
    rcases List.mem_append.mp hmem with hmem | hmem
    · exact hno hmem
    · exact hsafe (by rw [List.mem_singleton.mp hmem]) hroom

/-- The flag is set for a newline in the line. -/
theorem Arrives.flag (hflag : newline ∈ t.line → t.canonReady = true)
    (hmem : newline ∈ r.tty.line) : r.tty.canonReady = true := by
  have hold : newline ∈ t.line → r.tty.canonReady = true := by
    intro hmem
    rcases h.ready with hready | ⟨-, hready⟩
    · rw [hready, hflag hmem]
    · exact hready
  rcases h.line with hline | ⟨-, hline⟩ | ⟨c, rfl, -, hline⟩
  · exact hold (hline ▸ hmem)
  · exact hold (List.dropLast_subset _ (hline ▸ hmem))
  · rcases List.mem_append.mp (hline ▸ hmem) with hmem | hmem
    · exact hold hmem
    · obtain rfl := List.mem_singleton.mp hmem
      cases hcanon : t.termios.canonical with
      | true => rw [(h.canon hcanon).1, canonPut_ready, beq_self_eq_true, Bool.or_true]
      | false =>
        rw [(h.raw hcanon).1, rawPut_line] at hline
        exact absurd (congrArg List.length hline) (by simp)

/-- What was accepted before the buffer is not reached by a key. -/
theorem Arrives.accept_append (l : List UInt8) :
    t.accept (l ++ t.buffered) k = l ++ t.accept t.buffered k := by
  cases k with
  | signal => rfl
  | erase =>
    show (if t.canonLen = 0 then _ else _) = l ++ if t.canonLen = 0 then _ else _
    split
    · rfl
    · next hlen =>
      refine List.dropLast_append_of_ne_nil ?_
      rw [Tty.buffered_canon h.1]
      exact List.ne_nil_of_length_pos (by rw [Tty.line_length]; omega)
  | char c =>
    show (if t.HasRoom then _ else _) = l ++ if t.HasRoom then _ else _
    split
    · exact List.append_assoc ..
    · rfl

end

theorem Key.Leaves.accept (h : k.Leaves t) (l : List UInt8) : t.accept l k = l := by
  cases k with
  | signal => rfl
  | erase => exact if_pos h
  | char c => exact if_neg h

end

/-! ## The invariant -/

/-- Canonical mode, and the flag is set. -/
def Tty.Ready (t : Tty) : Prop := t.termios.canonical = true ∧ t.canonReady = true

/-- What holds before a statement. -/
def PcOk (t : Tty) (waiters : List Nat) (i : Nat) : Pc → Prop
  | .check | .recheck | .test | .ret _ => True
  | .size => t.Ready
  | .copy n => t.Ready ∧ n ≤ t.canonLen
  | .rest n buf => t.Ready ∧ n ≤ t.canonLen ∧ buf = t.line.take n
  | .move n buf remaining => t.Ready ∧ n + remaining = t.canonLen ∧ buf = t.line.take n
  | .setLen _ remaining => t.Ready ∧ remaining ≤ t.canonLen
  | .testEmpty _ remaining => remaining = 0 → newline ∉ t.line
  | .clear _ => newline ∉ t.line
  | .loop _ => t.termios.canonical = false
  | .take _ => t.termios.canonical = false ∧ t.rawHead ≠ t.rawTail
  | .advance buf =>
    t.termios.canonical = false ∧ t.rawHead ≠ t.rawTail ∧ ∃ b, buf = b ++ [t.rawBuf t.rawTail]
  | .vmin => t.termios.cCc vmin ≠ 0 → t.Idle
  | .clearWait | .enqueue => t.Idle
  | .setQueue | .setBlocked => t.Idle ∧ i ∈ waiters

structure IntOk (s : IntSys) : Prop where
  inRange : s.tty.InRange
  flag : newline ∈ s.tty.line → s.tty.canonReady = true
  kept : Kept s
  asleep : ∀ i count, s.readers i = .asleep count true → i ∈ s.waiters ∧ s.tty.Idle
  running : ∀ r, s.running = some r →
    s.readers r.reader = .user ∧ PcOk s.tty s.waiters r.reader r.pc

theorem Arrives.isReady {t : Tty} {r : Input} {k : Key} (h : Arrives t r k) (hr : t.Ready) :
    r.tty.Ready := by
  refine ⟨h.termios ▸ hr.1, ?_⟩
  rcases h.ready with hready | ⟨-, hready⟩
  · rw [hready, hr.2]
  · exact hready

/-- A key that comes in where it may keeps what holds there. -/
theorem PcOk.key {t : Tty} {r : Input} {k : Key} {waiters : List Nat} {i : Nat}
    (h : PcOk t waiters i pc) (ha : Arrives t r k) (hsafe : k.Safe t pc) :
    PcOk r.tty (if r.wake then [] else waiters) i pc := by
  have hterm := ha.termios
  cases pc with
  | check | recheck | test | ret => trivial
  | size => exact ha.isReady h
  | copy n => exact ⟨ha.isReady h.1, (ha.line_take h.2 hsafe).1⟩
  | rest n buf =>
    obtain ⟨hn, hline⟩ := ha.line_take h.2.1 hsafe
    exact ⟨ha.isReady h.1, hn, h.2.2.trans hline.symm⟩
  | move n buf remaining =>
    obtain ⟨hbuf, hlen⟩ := ha.leaves hsafe
    refine ⟨ha.isReady h.1, h.2.1.trans hlen.symm, h.2.2.trans ?_⟩
    rw [Tty.line, Tty.line, hbuf, hlen]
  | setLen buf remaining =>
    refine ⟨ha.isReady h.1, ?_⟩
    rw [(ha.leaves hsafe).2]
    exact h.2
  | testEmpty buf remaining => exact fun hzero => ha.no_newline (hsafe hzero) (h hzero)
  | clear buf => exact ha.no_newline hsafe h
  | loop buf => exact (congrArg Termios.canonical hterm).trans h
  | take buf => exact ⟨hterm ▸ h.1, (ha.raw_front h.1 h.2).1⟩
  | advance buf =>
    obtain ⟨hraw, hne, b, hbuf⟩ := h
    obtain ⟨hne', hfront⟩ := ha.raw_front hraw hne
    exact ⟨hterm ▸ hraw, hne', b, by rw [hbuf, hfront]⟩
  | vmin =>
    intro hmin
    rw [hterm] at hmin
    exact ha.idle (hsafe hmin) (h hmin)
  | clearWait | enqueue => exact ha.idle hsafe h
  | setQueue | setBlocked =>
    refine ⟨ha.idle (fun hc => hsafe hc.wakes) h.1, ?_⟩
    rw [if_neg fun hw => hsafe (ha.wake_iff.mp hw)]
    exact h.2

namespace IntOk

variable {s : IntSys}

theorem awake (h : IntOk s) : Awake s := by
  intro i count hi hdata
  have hidle := (h.asleep i count hi).2
  unfold Tty.HasData at hdata
  cases hcanon : s.tty.termios.canonical with
  | true =>
    rw [if_pos hcanon] at hdata
    have hready : s.tty.canonReady = true := hdata.elim id h.flag
    rw [(Tty.idle_canon hcanon).mp hidle] at hready
    cases hready
  | false =>
    rw [hcanon] at hdata
    exact hdata ((Tty.idle_raw hcanon).mp hidle)

/-! ### A key -/

/-- The accepted characters are kept by a key. -/
theorem kept_key (h : IntOk s) {r : Input} {k : Key} (ha : Arrives s.tty r k)
    (hsafe : ∀ run, s.running = some run → k.Safe s.tty run.pc) :
    s.tty.accept s.stream k = s.returned ++ heldBy s.running ++ unreadBy r.tty s.running := by
  have hkept : s.stream = s.returned ++ heldBy s.running ++ unreadBy s.tty s.running := h.kept
  have hbuffered : unreadBy s.tty s.running = s.tty.buffered →
      unreadBy r.tty s.running = r.tty.buffered →
      s.tty.accept s.stream k = s.returned ++ heldBy s.running ++ unreadBy r.tty s.running := by
    intro hu hu'
    rw [hkept, hu, hu', ha.accept_append, ha.buffered h.inRange]
  cases hrun : s.running with
  | none =>
    rw [hrun] at hbuffered
    exact hbuffered rfl rfl
  | some run =>
    have hsafe := hsafe run hrun
    obtain ⟨reader, count, pc⟩ := run
    rw [hrun] at hbuffered hkept
    cases pc with
    | setLen buf remaining =>
      have hleaves : k.Leaves s.tty := hsafe
      rw [hleaves.accept, hkept]
      show _ ++ firstBytes s.tty.canonBuf _ = _ ++ firstBytes r.tty.canonBuf _
      rw [(ha.leaves hleaves).1]
    | _ => exact hbuffered rfl rfl

theorem key (h : IntOk s) (hsafe : IntOp.Safe s (.key c)) : IntOk (intStep s (.key c)) := by
  have ha := ttyInputChar_arrives s.tty c
  have hkept := h.kept_key ha hsafe
  have hpc : ∀ run, s.running = some run → s.readers run.reader = .user ∧
      PcOk (ttyInputChar s.tty c).tty (if (ttyInputChar s.tty c).wake then [] else s.waiters)
        run.reader run.pc :=
    fun run hrun => ⟨(h.running run hrun).1, (h.running run hrun).2.key ha (hsafe run hrun)⟩
  unfold intStep
  dsimp only
  split
  · next hwake =>
    simp only [hwake, if_true] at hpc
    refine ⟨ha.inRange h.inRange, ha.flag h.flag, hkept, fun i count hi => ?_, fun run hrun => ?_⟩
    · -- Every reader that was blocked was in the queue.
      change (if i ∈ s.waiters then (s.readers i).wake else s.readers i) = _ at hi
      split at hi
      · cases hr : s.readers i with
        | user | asleep => rw [hr] at hi; cases hi
      · next hmem => exact absurd (h.asleep i count hi).1 hmem
    · refine ⟨?_, (hpc run hrun).2⟩
      change (if _ ∈ s.waiters then (s.readers run.reader).wake else s.readers run.reader) = _
      rw [(hpc run hrun).1]
      split <;> rfl
  · next hwake =>
    simp only [hwake] at hpc
    refine ⟨ha.inRange h.inRange, ha.flag h.flag, hkept, fun i count hi => ?_, hpc⟩
    obtain ⟨hmem, hidle⟩ := h.asleep i count hi
    exact ⟨hmem, ha.idle (fun hc => hwake (ha.wake_iff.mpr hc.wakes)) hidle⟩

/-! ### A statement -/

section

variable {r : Run} {t : Tty}

section

variable (h : IntOk s) (hrun : s.running = some r)

include h hrun

/-- A statement that changes the terminal and goes on. -/
theorem goto (hr : t.InRange)
    (hflag : newline ∈ t.line → t.canonReady = true) (hidle : s.tty.Idle → t.Idle)
    (heq : pc.held ++ pc.unread t = r.pc.held ++ r.pc.unread s.tty)
    (hpc : PcOk t s.waiters r.reader pc) : IntOk ({ s with tty := t }.goto r pc) := by
  refine ⟨hr, hflag, ?_, fun i count hi => ?_, fun r' hr' => ?_⟩
  · have hkept : s.stream = s.returned ++ heldBy s.running ++ unreadBy s.tty s.running := h.kept
    rw [hrun, List.append_assoc] at hkept
    show s.stream = s.returned ++ pc.held ++ pc.unread t
    rw [List.append_assoc, heq]
    exact hkept
  · exact ⟨(h.asleep i count hi).1, hidle (h.asleep i count hi).2⟩
  · cases hr'
    exact ⟨(h.running r hrun).1, hpc⟩

/-- A statement that changes nothing else. -/
theorem stay (heq : pc.held ++ pc.unread s.tty = r.pc.held ++ r.pc.unread s.tty)
    (hpc : PcOk s.tty s.waiters r.reader pc) : IntOk (s.goto r pc) :=
  h.goto hrun h.inRange h.flag id heq hpc

/-- The read ends. -/
theorem finish {l : List UInt8} {b : Bool}
    (heq : l ++ s.tty.buffered = s.returned ++ r.pc.held ++ r.pc.unread s.tty) :
    IntOk { s with tty := { s.tty with interrupted := b }, returned := l, running := none } := by
  have hkept : s.stream = s.returned ++ heldBy s.running ++ unreadBy s.tty s.running := h.kept
  rw [hrun] at hkept
  refine ⟨⟨h.inRange.head, h.inRange.tail, h.inRange.len⟩, h.flag, ?_, h.asleep, nofun⟩
  show s.stream = l ++ [] ++ s.tty.buffered
  rw [List.append_nil, heq]
  exact hkept

omit h hrun

theorem ttyReadWasInterrupted_tty (t : Tty) (signaled : Bool) :
    ∃ b, (ttyReadWasInterrupted t signaled).2 = { t with interrupted := b } := by
  unfold ttyReadWasInterrupted
  split
  · exact ⟨t.interrupted, rfl⟩
  · split
    · exact ⟨false, rfl⟩
    · exact ⟨t.interrupted, rfl⟩

include h hrun

/-- The two checks for an interruption. -/
theorem checks (hheld : r.pc.held = [])
    (hunread : r.pc.unread s.tty = s.tty.buffered) (hpc : pc = .recheck ∨ pc = .test)
    (signaled : Bool) :
    IntOk (match ttyReadWasInterrupted s.tty signaled with
      | (true, t) => { s with tty := t, running := none }
      | (false, t) => { s with tty := t }.goto r pc) := by
  obtain ⟨b, hb⟩ := ttyReadWasInterrupted_tty s.tty signaled
  split
  · next t heq =>
    rw [heq] at hb
    obtain rfl : t = _ := hb
    exact h.finish hrun (by rw [hheld, hunread, List.append_nil])
  · next t heq =>
    rw [heq] at hb
    obtain rfl : t = _ := hb
    refine h.goto hrun ⟨h.inRange.head, h.inRange.tail, h.inRange.len⟩ h.flag id ?_ ?_
    · rw [hheld, hunread]
      rcases hpc with rfl | rfl <;> rfl
    · rcases hpc with rfl | rfl <;> trivial

/-- The tests for data. -/
theorem test (hpc : r.pc = .test) (signaled : Bool) : IntOk (pcStep s r signaled) := by
  unfold pcStep
  rw [hpc]
  dsimp only
  cases hcanon : s.tty.termios.canonical with
  | true =>
    rw [if_pos rfl]
    split
    · next hready => exact h.stay hrun (by rw [hpc]; rfl) ⟨hcanon, hready⟩
    · next hready =>
      exact h.stay hrun (by rw [hpc]; rfl) ((Tty.idle_canon hcanon).mpr (by simpa using hready))
  | false =>
    rw [if_neg nofun]
    split
    · exact h.stay hrun (by rw [hpc]; rfl) hcanon
    · next hempty =>
      exact h.stay hrun (by rw [hpc]; rfl) fun _ => (Tty.idle_raw hcanon).mpr (not_not.mp hempty)

/-- The statements that take bytes from the line. -/
theorem takes_line (signaled : Bool) (hpc : match r.pc with
      | .size | .copy _ | .rest _ _ | .move _ _ _ | .setLen _ _ | .testEmpty _ _ | .clear _ => True
      | _ => False) : IntOk (pcStep s r signaled) := by
  obtain ⟨-, hok⟩ := h.running r hrun
  obtain ⟨reader, count, pc⟩ := r
  unfold pcStep
  cases pc with
  | size => exact h.stay hrun rfl ⟨hok, Nat.min_le_left ..⟩
  | copy n =>
    refine h.stay hrun rfl ⟨hok.1, hok.2, ?_⟩
    exact (firstBytes_take _ hok.2).symm
  | rest n buf =>
    obtain ⟨hready, hn, hbuf⟩ := hok
    refine h.stay hrun rfl ⟨hready, ?_, hbuf⟩
    have hlen := h.inRange.len
    unfold ttyCanonBufSize at hlen
    omega
  | move n buf remaining =>
    obtain ⟨hready, hn, hbuf⟩ := hok
    refine h.goto hrun ⟨h.inRange.head, h.inRange.tail, h.inRange.len⟩ (fun _ => hready.2) id ?_
      ⟨hready, ?_⟩
    · show buf ++ firstBytes (memcpy s.tty.canonBuf 0 s.tty.canonBuf n remaining) remaining =
        [] ++ s.tty.buffered
      rw [firstBytes_move, hn, hbuf, Tty.buffered_canon hready.1]
      exact List.take_append_drop ..
    · show remaining ≤ s.tty.canonLen
      omega
  | setLen buf remaining =>
    obtain ⟨hready, hle⟩ := hok
    refine h.goto hrun ⟨h.inRange.head, h.inRange.tail, Nat.lt_of_le_of_lt hle h.inRange.len⟩
      (fun _ => hready.2) id ?_ ?_
    · exact congrArg (buf ++ ·)
        (Tty.buffered_canon hready.1)
    · rintro rfl
      exact List.not_mem_nil
  | testEmpty buf remaining =>
    dsimp only
    split
    · next hzero => exact h.stay hrun rfl (hok hzero)
    · exact h.stay hrun rfl trivial
  | clear buf =>
    have hno : newline ∉ s.tty.line := hok
    refine h.goto hrun ⟨h.inRange.head, h.inRange.tail, h.inRange.len⟩
      (fun hmem => absurd hmem hno) (fun hidle => ?_) rfl trivial
    unfold Tty.Idle at hidle ⊢
    split
    · rfl
    · next hraw => rwa [if_neg hraw] at hidle
  | _ => exact hpc.elim

/-- The statements that take bytes from the ring. -/
theorem takes_ring (signaled : Bool) (hpc : match r.pc with
      | .loop _ | .take _ | .advance _ => True
      | _ => False) : IntOk (pcStep s r signaled) := by
  obtain ⟨-, hok⟩ := h.running r hrun
  obtain ⟨reader, count, pc⟩ := r
  unfold pcStep
  cases pc with
  | loop buf =>
    dsimp only
    split
    · next hmore => exact h.stay hrun rfl ⟨hok, hmore.2⟩
    · exact h.stay hrun rfl trivial
  | take buf =>
    refine h.stay hrun ?_ ⟨hok.1, hok.2, buf, rfl⟩
    show (buf ++ [_]).dropLast ++ _ = buf ++ _
    rw [List.dropLast_concat]
    rfl
  | advance buf =>
    obtain ⟨hraw, hne, b, hbuf⟩ := hok
    have hpos : 0 < ttyRawBufSize := by decide
    refine h.goto hrun ⟨h.inRange.head, Nat.mod_lt _ hpos, h.inRange.len⟩ h.flag
      (fun hidle => absurd ((Tty.idle_raw hraw).mp hidle) hne) ?_ hraw
    have hafter := Tty.buffered_raw
      (t := { s.tty with rawTail := (s.tty.rawTail + 1) % ttyRawBufSize }) hraw
    refine (congrArg (buf ++ ·) hafter).trans ?_
    show buf ++ _ = buf.dropLast ++ s.tty.buffered
    rw [Tty.buffered_raw hraw, ring_advance h.inRange hne, hbuf, List.dropLast_concat,
      List.append_assoc]
    rfl
  | _ => exact hpc.elim

omit h hrun

/-- `sched_clear_wait` of a process that is not blocked. -/
theorem clearWait_mem {i j : Nat} (hne : i ≠ j) (hmem : i ∈ s.waiters) :
    i ∈ (clearWait s j).waiters := by
  show i ∈ if s.linked j then s.waiters.erase j else s.waiters
  split
  · exact (List.mem_erase_of_ne hne).mpr hmem
  · exact hmem

include h hrun

/-- The statements of `sched_block`. -/
theorem blocks (signaled : Bool) (hpc : match r.pc with
      | .vmin | .clearWait | .enqueue | .setQueue | .setBlocked => True
      | _ => False) : IntOk (pcStep s r signaled) := by
  obtain ⟨huser, hok⟩ := h.running r hrun
  have hkept : s.stream = s.returned ++ heldBy s.running ++ unreadBy s.tty s.running := h.kept
  obtain ⟨reader, count, pc⟩ := r
  rw [hrun] at hkept
  have hne : ∀ i n, s.readers i = .asleep n true → i ≠ reader := by
    rintro i n hi rfl
    rw [huser] at hi
    cases hi
  unfold pcStep
  cases pc with
  | vmin =>
    dsimp only
    split
    · exact h.stay hrun rfl trivial
    · next hmin => exact h.stay hrun rfl (hok hmin)
  | clearWait =>
    refine ⟨h.inRange, h.flag, hkept, fun i n hi => ?_, fun r' hr' => ?_⟩
    · exact ⟨clearWait_mem (hne i n hi) (h.asleep i n hi).1, (h.asleep i n hi).2⟩
    · cases hr'
      exact ⟨huser, hok⟩
  | enqueue =>
    refine ⟨h.inRange, h.flag, hkept, fun i n hi => ?_, fun r' hr' => ?_⟩
    · exact ⟨List.mem_append_left _ (h.asleep i n hi).1, (h.asleep i n hi).2⟩
    · cases hr'
      exact ⟨huser, hok, List.mem_append_right _ (List.mem_singleton.mpr rfl)⟩
  | setQueue =>
    refine ⟨h.inRange, h.flag, hkept, h.asleep, fun r' hr' => ?_⟩
    cases hr'
    exact ⟨huser, hok⟩
  | setBlocked =>
    refine ⟨h.inRange, h.flag, hkept, fun i n hi => ?_, nofun⟩
    change update s.readers reader _ i = _ at hi
    by_cases hi' : i = reader
    · rw [hi']
      exact ⟨hok.2, hok.1⟩
    · rw [update_of_ne hi'] at hi
      exact h.asleep i n hi
  | _ => exact hpc.elim

theorem pcStep (signaled : Bool) : IntOk (Drivers.pcStep s r signaled) := by
  cases hpc : r.pc with
  | check =>
    unfold Drivers.pcStep
    rw [hpc]
    exact h.checks hrun (by rw [hpc]; rfl) (by rw [hpc]; rfl) (.inl rfl) signaled
  | recheck =>
    unfold Drivers.pcStep
    rw [hpc]
    exact h.checks hrun (by rw [hpc]; rfl) (by rw [hpc]; rfl) (.inr rfl) signaled
  | test => exact h.test hrun hpc signaled
  | size | copy | rest | move | setLen | testEmpty | clear =>
    exact h.takes_line hrun signaled (by rw [hpc]; trivial)
  | loop | take | advance => exact h.takes_ring hrun signaled (by rw [hpc]; trivial)
  | vmin | clearWait | enqueue | setQueue | setBlocked =>
    exact h.blocks hrun signaled (by rw [hpc]; trivial)
  | ret buf =>
    unfold Drivers.pcStep
    rw [hpc]
    exact h.finish hrun (by rw [hpc]; rfl)

end

end

/-! ### A call, and the scheduler -/

theorem step (h : IntOk s) {op : IntOp} (hsafe : op.Safe s) : IntOk (intStep s op) := by
  have hkept : s.stream = s.returned ++ heldBy s.running ++ unreadBy s.tty s.running := h.kept
  cases op with
  | key c => exact h.key hsafe
  | call i count =>
    unfold intStep
    dsimp only
    split
    · next hcall =>
      rw [Option.isNone_iff_eq_none.mp hcall.1] at hkept
      refine ⟨h.inRange, h.flag, hkept, h.asleep, fun r hr => ?_⟩
      cases hr
      exact ⟨hcall.2.1, trivial⟩
    · exact h
  | resume i =>
    unfold intStep
    dsimp only
    split
    · next count hnone hi =>
      rw [hnone] at hkept
      refine ⟨h.inRange, h.flag, hkept, fun j n hj => ?_, fun r hr => ?_⟩
      · change update s.readers i _ j = _ at hj
        by_cases hij : j = i
        · rw [hij, update_self] at hj
          cases hj
        · rw [update_of_ne hij] at hj
          exact h.asleep j n hj
      · cases hr
        exact ⟨update_self .., trivial⟩
    · exact h
  | run signaled =>
    unfold intStep
    dsimp only
    split
    · next r hr => exact h.pcStep hr signaled
    · exact h
  | signal i =>
    unfold intStep
    dsimp only
    split
    · next count hi =>
      refine ⟨h.inRange, h.flag, hkept, fun j n hj => ?_, fun r hr => ?_⟩
      · change update s.readers i _ j = _ at hj
        by_cases hij : j = i
        · rw [hij, update_self] at hj
          cases hj
        · rw [update_of_ne hij] at hj
          exact ⟨clearWait_mem hij (h.asleep j n hj).1, (h.asleep j n hj).2⟩
      · obtain ⟨huser, hok⟩ := h.running r hr
        have hne : r.reader ≠ i := by
          intro he
          rw [he, hi] at huser
          cases huser
        refine ⟨(update_of_ne hne _ _).trans huser, ?_⟩
        obtain ⟨reader, n, pc⟩ := r
        cases pc with
        | setQueue | setBlocked => exact ⟨hok.1, clearWait_mem hne hok.2⟩
        | _ => exact hok
    · exact h

end IntOk

/-! ## Every run -/

/-- In every run of readers and keys on a terminal that starts empty, with any settings, in which
each key comes in where it may, no accepted character is lost and no reader is blocked while there
is data. -/
theorem no_lost_input {t : Tty} (hline : t.canonLen = 0) (hring : t.rawHead = t.rawTail)
    (htail : t.rawTail < ttyRawBufSize) {s : IntSys}
    (hs : Reach intStep (fun s op => op.Safe s) { tty := t } s) : Kept s ∧ Awake s := by
  have hok : IntOk s := by
    refine hs.inv IntOk ⟨⟨hring ▸ htail, htail, ?_⟩, ?_, ?_, fun _ _ hi => Reader.noConfusion hi,
      fun _ hr => Option.noConfusion rfl (heq_of_eq hr)⟩ fun s op h => h.step
    · rw [hline]
      decide
    · show newline ∈ firstBytes t.canonBuf t.canonLen → _
      rw [hline]
      exact nofun
    · show [] = [] ++ [] ++ t.buffered
      unfold Tty.buffered Tty.line Tty.ring Tty.rawLen
      rw [hline, hring, if_pos le_rfl, Nat.sub_self]
      split <;> rfl
  exact ⟨hok.kept, hok.awake⟩

/-- A reader that blocks, is woken by a line and reads it while the next one is typed. -/
def readerRun : List IntOp :=
  [.call 0 9, .run false, .run false, .run false, .run false, .run false, .run false, .run false,
    .key 97, .key newline, .resume 0, .run false, .run false, .run false, .run false, .key 98,
    .run false, .run false, .run false, .run false, .key 99, .run false, .run false]

theorem no_lost_input_line :
    (readerRun.foldl intStep {}).returned = [97, newline] ∧
      (readerRun.foldl intStep {}).tty.line = [98, 99] ∧
      Kept (readerRun.foldl intStep {}) ∧ Awake (readerRun.foldl intStep {}) := by
  refine ⟨by decide +kernel, by decide +kernel, ?_⟩
  exact no_lost_input rfl rfl (by decide) (Reach.start.run (by decide +kernel))

/-- A newline comes in after the test for data. -/
def lateNewline : List IntOp :=
  [.call 0 9, .run false, .run false, .run false, .key newline, .run false, .run false, .run false,
    .run false]

/-- A character comes in before the rest of the line is moved. -/
def lateChar : List IntOp :=
  [.key 97, .key newline, .call 0 9, .run false, .run false, .run false, .run false, .run false,
    .run false, .key 98, .run false, .run false, .run false, .run false, .run false]

/-- The newline does not wake the reader, which blocks with a complete line; and the character is
neither returned nor buffered when the read is over. -/
theorem lost_between_statements :
    ((lateNewline.foldl intStep {}).readers 0 = .asleep 9 true ∧
        (lateNewline.foldl intStep {}).tty.line = [newline] ∧
        (lateNewline.foldl intStep {}).tty.canonReady = true) ∧
      (lateChar.foldl intStep {}).running.isNone = true ∧
      (lateChar.foldl intStep {}).stream = [97, newline, 98] ∧
      (lateChar.foldl intStep {}).returned = [97, newline] ∧
      (lateChar.foldl intStep {}).tty.line = [] := by
  decide +kernel

end Drunix.Drivers
