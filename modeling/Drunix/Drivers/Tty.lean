import Drunix.Lib.Bytes
import Drunix.Lib.Ring

/-!
# The line discipline of terminals

`drivers/tty.c`: what a character from the keyboard does to a terminal (`tty_input_char`),
and a round of the loop of `tty_read`.

Mirroring notes:
- One terminal of the table; the index is valid.
- What is echoed is left out. `Input` says whether readers are woken and which signal is sent to
  the foreground process group.
- A round of `tty_read` does not wait: it returns, or it blocks and the next round is another one.
  Characters that `arch_poll_input` fetches in a round come before it.
- `signaled` says whether the process has a signal that it does not block.
-/

namespace Drunix.Drivers

open Lib Function

def ttyRawBufSize : Nat := 256
def ttyCanonBufSize : Nat := 256

def icrnl : UInt32 := 1
def icanon : UInt32 := 1
def isig : UInt32 := 8

def vintr : Nat := 0
def verase : Nat := 2
def vmin : Nat := 6
def vsusp : Nat := 10

/-- `'\n'`. -/
def newline : UInt8 := 10

/-- `'\r'`. -/
def return' : UInt8 := 13

/-- `'\b'`. -/
def backspace : UInt8 := 8

/-- DEL. -/
def del : UInt8 := 0x7f

/-- `termios_t`, of which the output and control flags and the echo are only stored here; the
default is that of `tty_termios_set_defaults`. -/
structure Termios where
  cIflag : UInt32 := icrnl
  cLflag : UInt32 := icanon ||| isig
  cCc : Nat → UInt8 := fun i =>
    if i = vintr then 0x03 else if i = verase then del else if i = vmin then 1
    else if i = vsusp then 0x1a else 0

/-- `tty_t`. -/
structure Tty where
  rawBuf : Buf := fun _ => 0
  rawHead : Nat := 0
  rawTail : Nat := 0
  canonBuf : Buf := fun _ => 0
  canonLen : Nat := 0
  canonReady : Bool := false
  termios : Termios := {}
  fgPgid : Nat := 0
  interrupted : Bool := false

/-- ICANON is set. -/
def Termios.canonical (t : Termios) : Bool := t.cLflag &&& icanon ≠ 0

/-- ISIG is set. -/
def Termios.signals (t : Termios) : Bool := t.cLflag &&& isig ≠ 0

/-- The character after ICRNL. -/
def Termios.mapped (t : Termios) (c : UInt8) : UInt8 :=
  if c = return' ∧ t.cIflag &&& icrnl ≠ 0 then newline else c

/-- `tty_read_available`. -/
def ttyReadAvailable (t : Tty) : Nat :=
  if t.termios.canonical then if t.canonReady then t.canonLen else 0
  else if t.rawHead ≥ t.rawTail then t.rawHead - t.rawTail
  else ttyRawBufSize - t.rawTail + t.rawHead

/-! ## Input -/

/-- What a character does. -/
structure Input where
  tty : Tty
  wake : Bool := false
  signal : Option Nat := none

/-- `tty_ctrl_c` and `tty_ctrl_z`. -/
def ttyCtrl (t : Tty) (signum : Nat) : Input :=
  if t.fgPgid = 0 then { tty := t }
  else { tty := { t with interrupted := true }, wake := true, signal := some signum }

/-- The character erases one. -/
def Termios.erases (t : Termios) (c : UInt8) : Bool :=
  c = backspace ∨ c = del ∨ c = t.cCc verase

/-- A character that is not an erase, in canonical mode. -/
def canonPut (t : Tty) (c : UInt8) : Tty :=
  let t :=
    if t.canonLen < ttyCanonBufSize - 1 then
      { t with canonBuf := update t.canonBuf t.canonLen c, canonLen := t.canonLen + 1 }
    else t
  if c = newline then { t with canonReady := true } else t

/-- A character in raw mode. -/
def rawPut (t : Tty) (c : UInt8) : Tty :=
  let next := (t.rawHead + 1) % ttyRawBufSize
  if next ≠ t.rawTail then { t with rawBuf := update t.rawBuf t.rawHead c, rawHead := next } else t

/-- `tty_input_char`. -/
def ttyInputChar (t : Tty) (char : UInt8) : Input :=
  let c := t.termios.mapped char
  if c = t.termios.cCc vintr ∧ t.termios.signals then ttyCtrl t 2
  else if c = t.termios.cCc vsusp ∧ t.termios.signals then ttyCtrl t 20
  else if t.termios.canonical then
    if t.termios.erases c then
      { tty := if t.canonLen > 0 then { t with canonLen := t.canonLen - 1 } else t }
    else { tty := canonPut t c, wake := c = newline }
  else { tty := rawPut t c, wake := true }

/-! ## What a character means -/

/-- A signal for the foreground processes, an erase or a character of the line. -/
inductive Key where
  | signal
  | erase
  | char (c : UInt8)
deriving DecidableEq

/-- The meaning in canonical mode. -/
def Termios.key (t : Termios) (char : UInt8) : Key :=
  let c := t.mapped char
  if (c = t.cCc vintr ∨ c = t.cCc vsusp) ∧ t.signals then .signal
  else if t.erases c then .erase
  else .char c

/-- The meaning in either mode: raw mode has no erase. -/
def Termios.means (t : Termios) (char : UInt8) : Key :=
  match t.key char with
  | .erase => if t.canonical then .erase else .char (t.mapped char)
  | k => k

/-- What a character does, by its meaning. -/
def Arrives (t : Tty) (r : Input) : Key → Prop
  | .signal => (∃ b, r.tty = { t with interrupted := b }) ∧ (r.wake = true ↔ t.fgPgid ≠ 0)
  | .erase =>
    t.termios.canonical = true ∧ r.tty = { t with canonLen := t.canonLen - 1 } ∧ r.wake = false
  | .char c =>
    if t.termios.canonical then r.tty = canonPut t c ∧ r.wake = (c == newline)
    else r.tty = rawPut t c ∧ r.wake = true

theorem ttyCtrl_arrives (t : Tty) (signum : Nat) : Arrives t (ttyCtrl t signum) .signal := by
  unfold ttyCtrl
  split
  · next h => exact ⟨⟨t.interrupted, rfl⟩, nofun, fun hne => absurd h hne⟩
  · next h => exact ⟨⟨true, rfl⟩, fun _ => h, fun _ => rfl⟩

theorem ttyInputChar_arrives (t : Tty) (char : UInt8) :
    Arrives t (ttyInputChar t char) (t.termios.means char) := by
  unfold ttyInputChar Termios.means Termios.key
  generalize t.termios.mapped char = c
  dsimp only
  by_cases hsig : (c = t.termios.cCc vintr ∨ c = t.termios.cCc vsusp) ∧ t.termios.signals = true
  · rw [if_pos hsig]
    split
    · exact ttyCtrl_arrives t 2
    · next hintr =>
      rw [if_pos ⟨hsig.1.resolve_left fun he => hintr ⟨he, hsig.2⟩, hsig.2⟩]
      exact ttyCtrl_arrives t 20
  · rw [if_neg hsig, if_neg fun he => hsig ⟨.inl he.1, he.2⟩,
      if_neg fun he => hsig ⟨.inr he.1, he.2⟩]
    cases hcanon : t.termios.canonical with
    | false =>
      have harr : Arrives t { tty := rawPut t c, wake := true } (.char c) := by
        unfold Arrives
        rw [hcanon]
        exact ⟨rfl, rfl⟩
      cases t.termios.erases c <;> exact harr
    | true =>
      cases t.termios.erases c with
      | false =>
        unfold Arrives
        rw [hcanon]
        exact ⟨rfl, rfl⟩
      | true =>
        refine ⟨hcanon, ?_, rfl⟩
        show (if t.canonLen > 0 then _ else _) = _
        split
        · rfl
        · next hzero => rw [Nat.sub_eq_zero_of_le (by omega), ← Nat.eq_zero_of_not_pos hzero]

/-! ## Reading -/

/-- How a round of `tty_read` ends. -/
inductive ReadEnd where
  | fails
  | bytes (l : List UInt8)
  | blocks
deriving DecidableEq

/-- `tty_read_was_interrupted`. -/
def ttyReadWasInterrupted (t : Tty) (signaled : Bool) : Bool × Tty :=
  if signaled then (true, t)
  else if t.interrupted then (true, { t with interrupted := false })
  else (false, t)

/-- The first bytes of a buffer. -/
def firstBytes (b : Buf) (n : Nat) : List UInt8 := (List.range n).map b

/-- A line, or a part of it, is taken from the buffer. -/
def canonTake (t : Tty) (count : Nat) : List UInt8 × Tty :=
  let n := min t.canonLen count
  let remaining := t.canonLen - n
  (firstBytes t.canonBuf n,
    { t with
      canonBuf := memcpy t.canonBuf 0 t.canonBuf n remaining
      canonLen := remaining
      canonReady := if remaining = 0 then false else t.canonReady })

/-- The loop that drains the ring, and what it has put in the buffer of the reader. -/
def rawTake : Nat → Tty → List UInt8 × Tty
  | 0, t => ([], t)
  | count + 1, t =>
    if t.rawHead ≠ t.rawTail then
      let (l, t') := rawTake count { t with rawTail := (t.rawTail + 1) % ttyRawBufSize }
      (t.rawBuf t.rawTail :: l, t')
    else ([], t)

/-- A round of `tty_read`. -/
def ttyRead (t : Tty) (count : Nat) (signaled : Bool) : ReadEnd × Tty :=
  if count = 0 then (.fails, t)
  else
    match ttyReadWasInterrupted t signaled with
    | (true, t) => (.fails, t)
    | (false, t) =>
      if t.termios.canonical then
        if t.canonReady then
          let (l, t) := canonTake t count
          (.bytes l, t)
        else (.blocks, t)
      else if t.rawHead ≠ t.rawTail then
        let (l, t) := rawTake count t
        (.bytes l, t)
      else if t.termios.cCc vmin = 0 then (.bytes [], t)
      else (.blocks, t)

/-! ## The buffer of the line -/

@[simp] theorem firstBytes_length (b : Buf) (n : Nat) : (firstBytes b n).length = n := by
  simp [firstBytes]

theorem firstBytes_succ (b : Buf) (n : Nat) : firstBytes b (n + 1) = firstBytes b n ++ [b n] := by
  simp [firstBytes, List.range_succ]

theorem firstBytes_congr {b b' : Buf} {n : Nat} (h : ∀ i < n, b' i = b i) :
    firstBytes b' n = firstBytes b n :=
  List.map_congr_left fun i hi => h i (List.mem_range.mp hi)

/-- A byte is put behind the others. -/
theorem firstBytes_put (b : Buf) (n : Nat) (c : UInt8) :
    firstBytes (update b n c) (n + 1) = firstBytes b n ++ [c] := by
  rw [firstBytes_succ, update_self, firstBytes_congr fun i hi => update_of_ne (by omega) _ _]

theorem firstBytes_take (b : Buf) {m n : Nat} (h : m ≤ n) :
    (firstBytes b n).take m = firstBytes b m := by
  unfold firstBytes
  rw [← List.map_take, List.take_range, Nat.min_eq_left h]

theorem firstBytes_dropLast (b : Buf) (n : Nat) : (firstBytes b (n + 1)).dropLast = firstBytes b n := by
  rw [firstBytes_succ, List.dropLast_concat]

/-- What is left when the first bytes have been moved over. -/
theorem firstBytes_move (b : Buf) (n m : Nat) :
    firstBytes (memcpy b 0 b n m) m = (firstBytes b (n + m)).drop n := by
  refine List.ext_getElem (by simp) fun i hi _ => ?_
  rw [firstBytes_length] at hi
  simp only [firstBytes, List.getElem_map, List.getElem_range, List.getElem_drop]
  rw [memcpy_in (Nat.zero_le i) (by omega), Nat.sub_zero]

/-- The characters in the line buffer. -/
def Tty.line (t : Tty) : List UInt8 := firstBytes t.canonBuf t.canonLen

@[simp] theorem Tty.line_length (t : Tty) : t.line.length = t.canonLen := firstBytes_length ..

theorem canonPut_line {t : Tty} (h : t.canonLen < ttyCanonBufSize - 1) (c : UInt8) :
    (canonPut t c).line = t.line ++ [c] := by
  unfold canonPut
  rw [if_pos h]
  split <;> exact firstBytes_put ..

/-- What a read takes and what it leaves is the line. -/
theorem canonTake_line (t : Tty) (count : Nat) :
    (canonTake t count).1 = t.line.take (min t.canonLen count) ∧
      (canonTake t count).2.line = t.line.drop (min t.canonLen count) := by
  refine ⟨(firstBytes_take _ (Nat.min_le_left ..)).symm, ?_⟩
  show firstBytes (memcpy t.canonBuf 0 t.canonBuf (min t.canonLen count)
    (t.canonLen - min t.canonLen count)) (t.canonLen - min t.canonLen count) = _
  rw [firstBytes_move, Nat.add_sub_cancel' (Nat.min_le_left ..)]
  rfl

end Drunix.Drivers
