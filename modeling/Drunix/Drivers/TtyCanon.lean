import Drunix.Drivers.Tty
import Drunix.Lib.Loop

/-!
# Canonical input

What a terminal in canonical mode is for: the characters that are typed make lines, an erase takes
back the last character of the line that is being typed, and the reads deliver the completed
lines, one after the other (`Lines`). `drivers/tty.c` keeps completed lines and the
unfinished one in one buffer with one flag.

`canonical_input`: the bytes that were returned, with what is left in the buffer, are the lines
that were typed, as long as no erase meets a newline in the buffer and no read goes past the first
line; and each of these operations is right only then.

Mirroring notes:
- The mode is canonical for the whole run; the other settings are arbitrary.
- A character that does not fit the buffer is dropped, so `Fits` asks for room.
-/

namespace Drunix.Drivers

open Lib

/-! ## The lines -/

/-- The lines that were completed, and the one that is being typed. -/
structure Lines where
  done : List UInt8 := []
  cur : List UInt8 := []

def Lines.type (l : Lines) : Key → Lines
  | .signal => l
  | .erase => { l with cur := l.cur.dropLast }
  | .char c =>
    if c = newline then { done := l.done ++ (l.cur ++ [c]), cur := [] }
    else { l with cur := l.cur ++ [c] }

/-- A character makes the lines longer by one. -/
theorem Lines.type_length (l : Lines) (c : UInt8) :
    (l.type (.char c)).done.length + (l.type (.char c)).cur.length =
      l.done.length + l.cur.length + 1 := by
  by_cases h : c = newline
  · rw [Lines.type, if_pos h, List.length_append, List.length_append]
    exact (Nat.add_assoc ..).symm
  · rw [Lines.type, if_neg h, List.length_append]
    exact (Nat.add_assoc ..).symm

/-! ## The terminal -/

/-- The terminal, with the lines that were typed on it and what the reads have returned. -/
structure CanonSys where
  tty : Tty := {}
  lines : Lines := {}
  returned : List UInt8 := []

inductive CanonOp where
  | input (c : UInt8)
  | read (count : Nat) (signaled : Bool)

def canonStep (s : CanonSys) : CanonOp → CanonSys
  | .input c =>
    { s with tty := (ttyInputChar s.tty c).tty, lines := s.lines.type (s.tty.termios.key c) }
  | .read count signaled =>
    match ttyRead s.tty count signaled with
    | (.bytes l, t) => { s with tty := t, returned := s.returned ++ l }
    | (_, t) => { s with tty := t }

/-- The read returns bytes. -/
def Tty.Returns (t : Tty) (count : Nat) (signaled : Bool) : Prop :=
  count ≠ 0 ∧ signaled = false ∧ t.interrupted = false ∧ t.canonReady = true
deriving Decidable

/-- No erase meets a newline, and no character is dropped. -/
def Key.Fits (t : Tty) : Key → Prop
  | .signal => True
  | .erase => t.line.getLast? ≠ some newline
  | .char _ => t.canonLen < ttyCanonBufSize - 1

/-- The key fits, and no read goes past the first line. -/
def CanonOp.Fits (s : CanonSys) : CanonOp → Prop
  | .input c => (s.tty.termios.key c).Fits s.tty
  | .read count signaled =>
    s.tty.Returns count signaled →
      newline ∈ s.tty.line ∧ min s.tty.canonLen count ≤ s.tty.line.idxOf newline + 1

instance Key.decidableFits (t : Tty) : ∀ k : Key, Decidable (k.Fits t)
  | .signal => .isTrue trivial
  | .erase => inferInstanceAs (Decidable (t.line.getLast? ≠ some newline))
  | .char _ => inferInstanceAs (Decidable (t.canonLen < ttyCanonBufSize - 1))

instance CanonOp.decidableFits (s : CanonSys) : ∀ op : CanonOp, Decidable (op.Fits s)
  | .input c => inferInstanceAs (Decidable ((s.tty.termios.key c).Fits s.tty))
  | .read count signaled => inferInstanceAs (Decidable (s.tty.Returns count signaled →
      newline ∈ s.tty.line ∧ min s.tty.canonLen count ≤ s.tty.line.idxOf newline + 1))

/-- What was returned is the completed lines, up to some that are still in the buffer, in front of
the line that is being typed. -/
def Delivered (s : CanonSys) : Prop :=
  ∃ unread, s.lines.done = s.returned ++ unread ∧ s.tty.line = unread ++ s.lines.cur

/-- An input keeps the lines; a read returns bytes of completed lines, at least one and at most
one line. -/
def CanonOp.Good (s : CanonSys) : CanonOp → Prop
  | .input c => Delivered (canonStep s (.input c))
  | .read count signaled =>
    ∀ l, (ttyRead s.tty count signaled).1 = .bytes l →
      l ≠ [] ∧ s.returned ++ l <+: s.lines.done ∧ newline ∉ l.dropLast

theorem canonStep_read (s : CanonSys) (count : Nat) (signaled : Bool) :
    canonStep s (.read count signaled) =
      match ttyRead s.tty count signaled with
      | (.bytes l, t) => { s with tty := t, returned := s.returned ++ l }
      | (_, t) => { s with tty := t } := rfl

theorem CanonOp.good_read (s : CanonSys) (count : Nat) (signaled : Bool) :
    CanonOp.Good s (.read count signaled) ↔
      ∀ l, (ttyRead s.tty count signaled).1 = .bytes l →
        l ≠ [] ∧ s.returned ++ l <+: s.lines.done ∧ newline ∉ l.dropLast := Iff.rfl

/-! ## What the terminal does to the line -/

variable {signaled : Bool} {count : Nat}

section

variable {t : Tty}

theorem canonPut_full (h : ¬t.canonLen < ttyCanonBufSize - 1) (c : UInt8) :
    (canonPut t c).line = t.line := by
  unfold canonPut
  rw [if_neg h]
  split <;> rfl

theorem canonPut_ready (t : Tty) (c : UInt8) :
    (canonPut t c).canonReady = (t.canonReady || c == newline) := by
  unfold canonPut
  split <;> split <;> simp_all

theorem canonPut_termios (t : Tty) (c : UInt8) : (canonPut t c).termios = t.termios := by
  unfold canonPut
  split <;> split <;> rfl

theorem Termios.means_of_canonical {t : Termios} (h : t.canonical = true) (c : UInt8) :
    t.means c = t.key c := by
  unfold Termios.means
  split
  · next hkey => rw [if_pos h, hkey]
  · rfl

theorem erase_line (t : Tty) : { t with canonLen := t.canonLen - 1 : Tty }.line = t.line.dropLast := by
  unfold Tty.line
  cases t.canonLen with
  | zero => rfl
  | succ n => exact (firstBytes_dropLast ..).symm

/-- What a character does to the line, by its meaning. -/
def Typed (t t' : Tty) : Key → Prop
  | .signal => t'.line = t.line ∧ t'.canonReady = t.canonReady
  | .erase => t'.line = t.line.dropLast ∧ t'.canonReady = t.canonReady
  | .char c =>
    t'.line = (if t.canonLen < ttyCanonBufSize - 1 then t.line ++ [c] else t.line) ∧
      t'.canonReady = (t.canonReady || c == newline)

theorem ttyInputChar_typed (h : t.termios.canonical = true) (c : UInt8) :
    (ttyInputChar t c).tty.termios = t.termios ∧
      Typed t (ttyInputChar t c).tty (t.termios.key c) := by
  have harr := ttyInputChar_arrives t c
  rw [Termios.means_of_canonical h] at harr
  cases hkey : t.termios.key c with
  | signal =>
    obtain ⟨⟨b, htty⟩, -⟩ := hkey ▸ harr
    rw [htty]
    exact ⟨rfl, rfl, rfl⟩
  | erase =>
    obtain ⟨-, htty, -⟩ := hkey ▸ harr
    rw [htty]
    exact ⟨rfl, erase_line t, rfl⟩
  | char d =>
    have htty : (ttyInputChar t c).tty = canonPut t d := by
      rw [hkey, Arrives, if_pos h] at harr
      exact harr.1
    rw [htty]
    refine ⟨canonPut_termios t d, ?_, canonPut_ready t d⟩
    split
    · next hroom => exact canonPut_line hroom d
    · next hfull => exact canonPut_full hfull d

/-- A read that returns. -/
theorem ttyRead_returns (h : t.termios.canonical = true) (hret : t.Returns count signaled) :
    ttyRead t count signaled = (.bytes (canonTake t count).1, (canonTake t count).2) := by
  obtain ⟨hcount, hsig, hint, hready⟩ := hret
  simp [ttyRead, ttyReadWasInterrupted, hcount, hsig, hint, hready, h]

/-- A read that does not return leaves the line. -/
theorem ttyRead_waits (h : t.termios.canonical = true) (hret : ¬t.Returns count signaled) :
    (∀ l, (ttyRead t count signaled).1 ≠ .bytes l) ∧
      ((ttyRead t count signaled).1 = .blocks → t.canonReady = false) ∧
      ∃ i, (ttyRead t count signaled).2 = { t with interrupted := i } := by
  unfold ttyRead ttyReadWasInterrupted
  by_cases hcount : count = 0
  · rw [if_pos hcount]
    exact ⟨nofun, nofun, t.interrupted, rfl⟩
  rw [if_neg hcount]
  cases hsig : signaled with
  | true => exact ⟨nofun, nofun, t.interrupted, rfl⟩
  | false =>
    cases hint : t.interrupted with
    | true => exact ⟨nofun, nofun, false, by simp⟩
    | false =>
      have hready : t.canonReady = false := by
        cases hr : t.canonReady with
        | true => exact absurd ⟨hcount, hsig, hint, hr⟩ hret
        | false => rfl
      simp only [Bool.false_eq_true, if_false, h, if_true, hready]
      exact ⟨nofun, fun _ => trivial, t.interrupted, by rw [← hready]⟩

end

/-! ## The invariant -/

/-- The lines that wait in the buffer end with a newline, and the flag is set for them. -/
structure CanonOk (s : CanonSys) (unread : List UInt8) : Prop where
  canonical : s.tty.termios.canonical = true
  done : s.lines.done = s.returned ++ unread
  line : s.tty.line = unread ++ s.lines.cur
  ready : unread ≠ [] → s.tty.canonReady = true
  ends : unread ≠ [] → unread.getLast? = some newline
  cur : newline ∉ s.lines.cur

namespace CanonOk

variable {s : CanonSys} {unread : List UInt8}

section

variable (h : CanonOk s unread)

include h

theorem delivered : Delivered s := ⟨unread, h.done, h.line⟩

/-- A newline in the buffer is one of the lines that wait. -/
theorem mem_unread (hmem : newline ∈ s.tty.line) : newline ∈ unread := by
  rw [h.line, List.mem_append] at hmem
  exact hmem.resolve_right h.cur

theorem newline_mem (hne : unread ≠ []) : newline ∈ unread :=
  List.mem_of_getLast? (h.ends hne)

/-- The last character in the buffer is a newline when nothing is being typed after a line. -/
theorem getLast_iff : s.tty.line.getLast? = some newline ↔ s.lines.cur = [] ∧ unread ≠ [] := by
  constructor
  · intro hlast
    have hcur : s.lines.cur = [] := by
      by_contra hne
      rw [h.line, List.getLast?_append_of_ne_nil _ hne] at hlast
      exact h.cur (List.mem_of_getLast? hlast)
    refine ⟨hcur, fun hnil => ?_⟩
    rw [h.line, hcur, hnil] at hlast
    cases hlast
  · rintro ⟨hcur, hne⟩
    rw [h.line, hcur, List.append_nil]
    exact h.ends hne

/-- The buffer can go on to hold other lines only if these are what was typed. -/
theorem delivered_line (s' : CanonSys)
    (hdone : s'.lines.done = s.lines.done) (hret : s'.returned = s.returned) :
    Delivered s' ↔ s'.tty.line = unread ++ s'.lines.cur := by
  constructor
  · rintro ⟨unread', hd, hl⟩
    rw [hdone, h.done, hret] at hd
    rw [hl, List.append_cancel_left hd]
  · exact fun hl => ⟨unread, by rw [hdone, hret, h.done], hl⟩

/-- An erase. -/
theorem erase {c : UInt8} (hkey : s.tty.termios.key c = .erase) :
    (Delivered (canonStep s (.input c)) ↔ s.tty.line.getLast? ≠ some newline) ∧
      (s.tty.line.getLast? ≠ some newline → CanonOk (canonStep s (.input c)) unread) := by
  obtain ⟨hterm, htyped⟩ := ttyInputChar_typed h.canonical c
  rw [hkey] at htyped
  have hlines : (canonStep s (.input c)).lines = { s.lines with cur := s.lines.cur.dropLast } := by
    show s.lines.type (s.tty.termios.key c) = _
    rw [hkey]
    rfl
  have hline : (canonStep s (.input c)).tty.line = (unread ++ s.lines.cur).dropLast := by
    rw [← h.line]
    exact htyped.1
  have hok : s.tty.line.getLast? ≠ some newline →
      (canonStep s (.input c)).tty.line = unread ++ s.lines.cur.dropLast := by
    intro hlast
    rw [hline]
    rw [Ne, h.getLast_iff, not_and, not_not] at hlast
    by_cases hcur : s.lines.cur = []
    · rw [hcur, hlast hcur]
      rfl
    · exact List.dropLast_append_of_ne_nil hcur
  refine ⟨?_, fun hlast => ?_⟩
  · rw [h.delivered_line (canonStep s (.input c)) (by rw [hlines]) rfl, hlines]
    refine ⟨fun he hlast => ?_, hok⟩
    obtain ⟨hcur, hne⟩ := h.getLast_iff.mp hlast
    rw [hline, hcur] at he
    have := congrArg List.length he
    simp only [List.append_nil, List.dropLast_nil, List.length_dropLast] at this
    have := List.length_pos_of_ne_nil hne
    omega
  · refine ⟨by rw [← h.canonical]; exact congrArg _ hterm, ?_, ?_, ?_, h.ends, ?_⟩
    · rw [hlines]
      exact h.done
    · rw [hlines]
      exact hok hlast
    · exact fun hne => htyped.2.trans (h.ready hne)
    · rw [hlines]
      exact fun hmem => h.cur (List.dropLast_subset _ hmem)

/-- A character of the line. -/
theorem char {c d : UInt8} (hkey : s.tty.termios.key c = .char d) :
    (Delivered (canonStep s (.input c)) ↔ s.tty.canonLen < ttyCanonBufSize - 1) ∧
      (s.tty.canonLen < ttyCanonBufSize - 1 → ∃ unread', CanonOk (canonStep s (.input c)) unread') := by
  obtain ⟨hterm, hline, hready⟩ : _ ∧ Typed _ _ (.char d) :=
    hkey ▸ ttyInputChar_typed h.canonical c
  have hlines : (canonStep s (.input c)).lines = s.lines.type (.char d) := by
    show s.lines.type (s.tty.termios.key c) = _
    rw [hkey]
  have hcanonical : (canonStep s (.input c)).tty.termios.canonical = true := by
    rw [← h.canonical]
    exact congrArg _ hterm
  have hok : s.tty.canonLen < ttyCanonBufSize - 1 →
      ∃ unread', CanonOk (canonStep s (.input c)) unread' := by
    intro hroom
    rw [if_pos hroom, h.line] at hline
    by_cases hd : d = newline
    · -- The line is completed.
      have hl : (canonStep s (.input c)).lines = ⟨s.lines.done ++ (s.lines.cur ++ [d]), []⟩ := by
        rw [hlines, Lines.type, if_pos hd]
      refine ⟨unread ++ (s.lines.cur ++ [d]), hcanonical, ?_, ?_, ?_, ?_, ?_⟩
      · rw [hl]
        show s.lines.done ++ _ = s.returned ++ (unread ++ _)
        rw [← List.append_assoc s.returned, ← h.done]
      · rw [hl]
        show (ttyInputChar s.tty c).tty.line = _
        rw [hline, List.append_assoc, List.append_nil]
      · intro _
        show (ttyInputChar s.tty c).tty.canonReady = true
        rw [hready, hd]
        simp
      · intro _
        rw [← List.append_assoc, List.getLast?_concat, hd]
      · rw [hl]
        exact List.not_mem_nil
    · have hl : (canonStep s (.input c)).lines = { s.lines with cur := s.lines.cur ++ [d] } := by
        rw [hlines, Lines.type, if_neg hd]
      refine ⟨unread, hcanonical, ?_, ?_, ?_, h.ends, ?_⟩
      · rw [hl]
        exact h.done
      · rw [hl]
        show (ttyInputChar s.tty c).tty.line = _
        rw [hline, List.append_assoc]
      · intro hne
        show (ttyInputChar s.tty c).tty.canonReady = true
        rw [hready, h.ready hne]
        rfl
      · rw [hl]
        intro hmem
        rcases List.mem_append.mp hmem with hmem | hmem
        · exact h.cur hmem
        · exact hd (List.mem_singleton.mp hmem).symm
  refine ⟨⟨fun ⟨unread', hdone', hline'⟩ => ?_, fun hroom => (hok hroom).elim fun _ => delivered⟩,
    hok⟩
  by_contra hfull
  -- The typed lines have grown by a character, and the buffer has not.
  rw [if_neg hfull] at hline
  have htotal := s.lines.type_length d
  rw [← hlines] at htotal
  have hd := congrArg List.length hdone'
  have hl := congrArg List.length (hline'.symm.trans hline)
  have hd0 := congrArg List.length h.done
  have hl0 := congrArg List.length h.line
  have hret : (canonStep s (.input c)).returned = s.returned := rfl
  rw [hret] at hd
  simp only [List.length_append] at hd hl hd0 hl0
  omega

/-- A read that returns, at a boundary of the first line or before it. -/
theorem read {count : Nat} {signaled : Bool} (hret : s.tty.Returns count signaled) :
    (CanonOp.Good s (.read count signaled) ↔ CanonOp.Fits s (.read count signaled)) ∧
      (CanonOp.Fits s (.read count signaled) →
        CanonOk (canonStep s (.read count signaled)) (unread.drop (min s.tty.canonLen count))) := by
  obtain ⟨htake, hdrop⟩ := canonTake_line s.tty count
  have hread := ttyRead_returns h.canonical hret
  have hlen : s.tty.canonLen = unread.length + s.lines.cur.length := by
    rw [← Tty.line_length, h.line, List.length_append]
  have hready : (canonTake s.tty count).2.canonReady =
      if s.tty.canonLen - min s.tty.canonLen count = 0 then false else true := by
    rw [← hret.2.2.2]
    rfl
  have hfits : CanonOp.Fits s (.read count signaled) ↔
      newline ∈ s.tty.line ∧ min s.tty.canonLen count ≤ s.tty.line.idxOf newline + 1 :=
    forall_prop_of_true hret
  have hpos : min s.tty.canonLen count = 0 ↔ s.tty.canonLen = 0 := by
    have := hret.1
    omega
  have hle : min s.tty.canonLen count ≤ s.tty.canonLen := Nat.min_le_left ..
  generalize min s.tty.canonLen count = n at htake hdrop hready hfits hpos hle ⊢
  -- A read that stops at the first newline stays within the lines that wait.
  have hwithin : newline ∈ s.tty.line → n ≤ s.tty.line.idxOf newline + 1 → n ≤ unread.length := by
    intro hmem hn
    have hmem' := h.mem_unread hmem
    rw [h.line, List.idxOf_append_of_mem hmem'] at hn
    have := List.idxOf_lt_length_of_mem hmem'
    omega
  have htaken : n ≤ unread.length → s.tty.line.take n = unread.take n := by
    intro hn
    rw [h.line, List.take_append_of_le_length hn]
  have hcut : (s.tty.line.take n).dropLast = s.tty.line.take (n - 1) := by
    rw [List.dropLast_eq_take, List.length_take, Tty.line_length, Nat.min_eq_left hle,
      List.take_take, Nat.min_eq_left (Nat.sub_le ..)]
  have hgood : CanonOp.Good s (.read count signaled) ↔
      s.tty.line.take n ≠ [] ∧ s.returned ++ s.tty.line.take n <+: s.lines.done ∧
        newline ∉ (s.tty.line.take n).dropLast := by
    rw [CanonOp.good_read, hread, ← htake]
    exact ⟨fun hg => hg _ rfl, fun hg l hl => ReadEnd.bytes.inj hl ▸ hg⟩
  refine ⟨hgood.trans (Iff.trans ?_ hfits.symm), fun hf => ?_⟩
  · rw [hcut, h.done, List.prefix_append_right_inj]
    constructor
    · rintro ⟨hne, hpre, hone⟩
      have hn : n ≤ unread.length := by
        have := hpre.length_le
        rw [List.length_take, Tty.line_length] at this
        omega
      have hmem : newline ∈ s.tty.line := by
        rw [h.line]
        refine List.mem_append_left _ (h.newline_mem fun hnil => hne ?_)
        rw [htaken hn, hnil, List.take_nil]
      rw [List.mem_take_iff_idxOf_lt hmem] at hone
      exact ⟨hmem, by omega⟩
    · rintro ⟨hmem, hn⟩
      have hline := List.length_pos_of_mem hmem
      rw [Tty.line_length] at hline
      refine ⟨?_, ?_, ?_⟩
      · rw [Ne, List.take_eq_nil_iff, not_or]
        exact ⟨by omega, List.ne_nil_of_mem hmem⟩
      · rw [htaken (hwithin hmem hn)]
        exact List.take_prefix ..
      · rw [List.mem_take_iff_idxOf_lt hmem]
        omega
  · obtain ⟨hmem, hn⟩ := hfits.mp hf
    have hn := hwithin hmem hn
    have hstep : canonStep s (.read count signaled) =
        { s with
          tty := (canonTake s.tty count).2
          returned := s.returned ++ (canonTake s.tty count).1 } := by
      rw [canonStep_read, hread]
    rw [hstep]
    refine ⟨h.canonical, ?_, ?_, fun hne => ?_, fun hne => ?_, h.cur⟩
    · show s.lines.done = s.returned ++ (canonTake s.tty count).1 ++ _
      rw [htake, htaken hn, List.append_assoc, List.take_append_drop, h.done]
    · show (canonTake s.tty count).2.line = _
      rw [hdrop, h.line, List.drop_append_of_le_length hn]
    · show (canonTake s.tty count).2.canonReady = true
      rw [hready, if_neg]
      rw [Ne, List.drop_eq_nil_iff] at hne
      omega
    · rw [List.getLast?_drop, if_neg (by rwa [Ne, List.drop_eq_nil_iff] at hne)]
      exact h.ends fun hnil => hne (by rw [hnil, List.drop_nil])

/-- A read that does not return. -/
theorem waits (hret : ¬s.tty.Returns count signaled) :
    CanonOp.Good s (.read count signaled) ∧ CanonOk (canonStep s (.read count signaled)) unread := by
  obtain ⟨hno, -, i, htty⟩ := ttyRead_waits h.canonical hret
  refine ⟨fun l hl => absurd hl (hno l), ?_⟩
  have hstep : canonStep s (.read count signaled) =
      { s with tty := { s.tty with interrupted := i } } := by
    rw [← htty, canonStep_read]
    split
    · next l t heq => exact absurd (congrArg Prod.fst heq) (hno l)
    · next heq => rw [heq]
  rw [hstep]
  exact ⟨h.canonical, h.done, h.line, h.ready, h.ends, h.cur⟩

/-- An operation is right exactly when it fits, and then the invariant is kept. -/
theorem step (op : CanonOp) :
    (op.Good s ↔ op.Fits s) ∧ (op.Fits s → ∃ unread', CanonOk (canonStep s op) unread') := by
  cases op with
  | read count signaled =>
    by_cases hret : s.tty.Returns count signaled
    · exact ⟨(h.read hret).1, fun hf => ⟨_, (h.read hret).2 hf⟩⟩
    · obtain ⟨hgood, hok⟩ := h.waits hret
      exact ⟨⟨fun _ hr => absurd hr hret, fun _ => hgood⟩, fun _ => ⟨_, hok⟩⟩
  | input c =>
    show (Delivered (canonStep s (.input c)) ↔ (s.tty.termios.key c).Fits s.tty) ∧
      ((s.tty.termios.key c).Fits s.tty → _)
    cases hkey : s.tty.termios.key c with
    | signal =>
      obtain ⟨hterm, hline, hready⟩ : _ ∧ Typed _ _ .signal :=
        hkey ▸ ttyInputChar_typed h.canonical c
      have hlines : (canonStep s (.input c)).lines = s.lines := by
        show s.lines.type (s.tty.termios.key c) = _
        rw [hkey]
        rfl
      have hok : CanonOk (canonStep s (.input c)) unread := by
        refine ⟨by rw [← h.canonical]; exact congrArg _ hterm, by rw [hlines]; exact h.done, ?_, ?_,
          h.ends, by rw [hlines]; exact h.cur⟩
        · rw [hlines, ← h.line]
          exact hline
        · exact fun hne => hready.trans (h.ready hne)
      exact ⟨⟨fun _ => trivial, fun _ => hok.delivered⟩, fun _ => ⟨_, hok⟩⟩
    | erase => exact ⟨(h.erase hkey).1, fun hf => ⟨_, (h.erase hkey).2 hf⟩⟩
    | char d => exact h.char hkey

end

end CanonOk

/-! ## Every run -/

/-- In every run of a terminal that starts empty, in canonical mode and with any other settings, in
which each operation fits, what was returned is the completed lines up to those that still wait;
no read blocks while one waits; and an operation is right exactly when it fits. -/
theorem canonical_input {t : Tty} (hcanon : t.termios.canonical = true) (hempty : t.canonLen = 0)
    {s : CanonSys} (hs : Reach canonStep (fun s op => op.Fits s) { tty := t } s) :
    Delivered s ∧
      (∀ count signaled, (ttyRead s.tty count signaled).1 = .blocks →
        s.returned = s.lines.done) ∧
      ∀ op : CanonOp, op.Good s ↔ op.Fits s := by
  have hok : ∃ unread, CanonOk s unread := by
    refine hs.inv (fun s => ∃ unread, CanonOk s unread) ⟨[], hcanon, rfl, ?_, ?_, ?_, ?_⟩ ?_
    · show firstBytes t.canonBuf t.canonLen = []
      rw [hempty]
      rfl
    · exact fun hne => absurd rfl hne
    · exact fun hne => absurd rfl hne
    · exact List.not_mem_nil
    · rintro s op ⟨unread, h⟩ hf
      exact (h.step op).2 hf
  obtain ⟨unread, h⟩ := hok
  refine ⟨h.delivered, fun count signaled hblocks => ?_, fun op => (h.step op).1⟩
  have hready : s.tty.canonReady = false := by
    by_cases hret : s.tty.Returns count signaled
    · rw [ttyRead_returns h.canonical hret] at hblocks
      cases hblocks
    · exact (ttyRead_waits h.canonical hret).2.1 hblocks
  have hnone : unread = [] := by
    by_contra hne
    rw [h.ready hne] at hready
    cases hready
  rw [h.done, hnone, List.append_nil]

/-- A terminal on which these characters were typed. -/
def typed (l : List UInt8) : CanonSys := l.foldl (fun s c => canonStep s (.input c)) {}

/-- A typed line with an erase, read in two parts. -/
theorem canonical_input_line :
    ∃ s, s.returned = [97, 99, newline] ∧ Delivered s := by
  have run : Reach canonStep (fun s op => op.Fits s) { tty := {} }
      (canonStep (canonStep (typed [97, 98, del, 99, newline]) (.read 1 false)) (.read 9 false)) := by
    refine Reach.step (CanonOp.read 9 false) (Reach.step (CanonOp.read 1 false)
      (Reach.step (CanonOp.input newline) (Reach.step (CanonOp.input 99)
        (Reach.step (CanonOp.input del) (Reach.step (CanonOp.input 98)
          (Reach.step (CanonOp.input 97) Reach.start ?_) ?_) ?_) ?_) ?_) ?_) ?_
    all_goals decide +kernel
  exact ⟨_, rfl, (canonical_input (by decide) rfl run).1⟩

/-- An erase takes the newline of a line that was completed, and the next line is read as a part of
it; a read returns the start of an unfinished line; and it returns nothing when the line was taken
back. -/
theorem erased_newline :
    (canonStep (typed [97, newline, del, 98, newline]) (.read 9 false)).returned =
        [97, 98, newline] ∧
      (typed [97, newline, del, 98, newline]).lines.done = [97, newline, 98, newline] ∧
      (ttyRead (typed [97, newline, 98]).tty 9 false).1 = .bytes [97, newline, 98] ∧
      (typed [97, newline, 98]).lines.done = [97, newline] ∧
      (ttyRead (typed [97, newline, 98, newline]).tty 9 false).1 =
        .bytes [97, newline, 98, newline] ∧
      (ttyRead (typed [97, newline, del, del]).tty 9 false).1 = .bytes [] := by
  decide +kernel

end Drunix.Drivers
