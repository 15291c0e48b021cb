import Drunix.Lib.Loop
import Drunix.Lib.Ring

/-!
# Input reports

`inputdev.c` keeps a ring of event records for `/dev/kbd` and one for `/dev/mouse`. What one
push writes is a report: its records and a `SYN_REPORT` behind them. A full ring makes room
record by record, so what is dropped need not end where a report ends: `report_torn` is a
mouse whose next report begins in the middle. `input_reports_whole` says when none is torn.
-/

namespace Drunix.Drivers

open Lib Lib.RingBuf

/-- The event types that the two devices use. -/
inductive EvType where
  | syn | key | rel
deriving DecidableEq

structure InputEvent where
  sec : Nat
  usec : Nat
  type : EvType
  code : Nat
  value : Int
deriving DecidableEq

def kbdRingRecords : Nat := 64
def mouseRingRecords : Nat := 64

variable {cap : Nat}

def evtRingEmit (cap : Nat) (r : RingBuf InputEvent) (e : InputEvent) : RingBuf InputEvent :=
  (if r.count = cap then r.skip cap 1 else r).push cap e

/-- The copying loop: records taken, and the ring left. -/
def evtRingCopy (cap : Nat) : Nat → RingBuf InputEvent → List InputEvent × RingBuf InputEvent
  | 0, r => ([], r)
  | records + 1, r =>
    if r.count = 0 then ([], r)
    else
      let rest := evtRingCopy cap records (r.skip cap 1)
      (r.buf r.readIdx :: rest.1, rest.2)

/-- Result, records taken and ring; `none` while the reader waits for a record. -/
def evtRingRead (cap : Nat) (r : RingBuf InputEvent) (bufNull : Bool) (bytes : Nat) :
    Option (Int × List InputEvent × RingBuf InputEvent) :=
  if bufNull ∨ bytes < 16 then some (-1, [], r)
  else if r.count = 0 then none
  else
    let (out, r) := evtRingCopy cap (bytes / 16) r
    some (out.length * 16, out, r)

/-- A device: its ring, the records that readers got so far, and the reports pushed so far. -/
structure InputDev where
  ring : RingBuf InputEvent
  delivered : List InputEvent
  pushed : List (List InputEvent)

def InputDev.push (cap : Nat) (d : InputDev) (report : List InputEvent) : InputDev :=
  { d with
    ring := report.foldl (evtRingEmit cap) d.ring
    pushed := d.pushed ++ [report] }

def InputDev.read (cap : Nat) (d : InputDev) (bufNull : Bool) (bytes : Nat) : InputDev :=
  match evtRingRead cap d.ring bufNull bytes with
  | none => d
  | some (_, out, ring) => { d with ring := ring, delivered := d.delivered ++ out }

structure InputState where
  kbd : InputDev
  mouse : InputDev
  prevButtons : BitVec 8

/-- The records `kbdev_push_key` writes. -/
def keyReport (sec usec code : Nat) (value : Int) : List InputEvent :=
  [⟨sec, usec, .key, code, value⟩, ⟨sec, usec, .syn, 0, 0⟩]

def kbdevPushKey (s : InputState) (sec usec code : Nat) (value : Int) : InputState :=
  { s with kbd := s.kbd.push kbdRingRecords (keyReport sec usec code value) }

/-- A movement on the wire, as `REL_X` has it. -/
def relMotion (flags overflow sign d : BitVec 8) : Int :=
  if flags &&& overflow ≠ 0 then if flags &&& sign ≠ 0 then -127 else 127 else d.toInt

def emitIf (c : Prop) [Decidable c] (e : InputEvent) : List InputEvent := if c then [e] else []

/-- The records `mousedev_push_packet` writes before the `SYN_REPORT`. -/
def packetRecords (prev : BitVec 8) (sec usec : Nat) (flags dx dy : BitVec 8) :
    List InputEvent :=
  let relX := relMotion flags 0x40 0x10 dx
  let relY := -relMotion flags 0x80 0x20 dy
  let curButtons := flags &&& 0x07
  let changed := curButtons ^^^ prev
  let button (mask : BitVec 8) (code : Nat) := emitIf (changed &&& mask ≠ 0)
    ⟨sec, usec, .key, code, if curButtons &&& mask ≠ 0 then 1 else 0⟩
  emitIf (relX ≠ 0) ⟨sec, usec, .rel, 0, relX⟩ ++ emitIf (relY ≠ 0) ⟨sec, usec, .rel, 1, relY⟩ ++
    button 0x01 0x110 ++ button 0x02 0x111 ++ button 0x04 0x112

def packetReport (prev : BitVec 8) (sec usec : Nat) (flags dx dy : BitVec 8) :
    List InputEvent :=
  packetRecords prev sec usec flags dx dy ++ [⟨sec, usec, .syn, 0, 0⟩]

def mousedevPushPacket (s : InputState) (sec usec : Nat) (flags dx dy : BitVec 8) :
    InputState :=
  { s with
    mouse := s.mouse.push mouseRingRecords (packetReport s.prevButtons sec usec flags dx dy)
    prevButtons := flags &&& 0x07 }

inductive InputOp where
  | pushKey (sec usec code : Nat) (value : Int)
  | pushPacket (sec usec : Nat) (flags dx dy : BitVec 8)
  | readKbd (bufNull : Bool) (bytes : Nat)
  | readMouse (bufNull : Bool) (bytes : Nat)

def inputStep (s : InputState) : InputOp → InputState
  | .pushKey sec usec code value => kbdevPushKey s sec usec code value
  | .pushPacket sec usec flags dx dy => mousedevPushPacket s sec usec flags dx dy
  | .readKbd bufNull bytes => { s with kbd := s.kbd.read kbdRingRecords bufNull bytes }
  | .readMouse bufNull bytes => { s with mouse := s.mouse.read mouseRingRecords bufNull bytes }

/-- Both rings in zeroed memory. -/
def inputInit : InputState :=
  let dev := ⟨⟨fun _ => ⟨0, 0, .syn, 0, 0⟩, 0, 0, 0⟩, [], []⟩
  ⟨dev, dev, 0⟩

/-- The records of one push: the last of them, and no other, is a `SYN_REPORT`. -/
def IsReport (r : List InputEvent) : Prop :=
  ∃ body last, r = body ++ [last] ∧ last.type = .syn ∧ ∀ e ∈ body, e.type ≠ .syn

/-- What was and will be delivered are whole reports in the order of their pushes, and what is
still to come are the newest records: only older reports can be missing. -/
def WholeReports (delivered queue : List InputEvent) (pushed : List (List InputEvent)) : Prop :=
  (∀ r ∈ pushed, IsReport r) ∧ queue <:+ pushed.flatten ∧
    ∃ kept : List (List InputEvent), kept.Sublist pushed ∧ delivered ++ queue = kept.flatten

def InputDev.Whole (cap : Nat) (d : InputDev) : Prop :=
  WholeReports d.delivered (contents cap d.ring) d.pushed

/-- The records stop where a report stops. -/
def EndsReport (l : List InputEvent) : Prop := ∀ e ∈ l.getLast?, e.type = .syn

/-- The ring has room for the report, or the readers are between two reports and the records
that go to make room are whole reports. -/
def InputDev.DropsWhole (cap : Nat) (d : InputDev) (report : List InputEvent) : Prop :=
  let excess := d.ring.count + report.length - cap
  excess = 0 ∨ EndsReport d.delivered ∧ EndsReport ((contents cap d.ring).take excess)

def InputStepOk (s : InputState) : InputOp → Prop
  | .pushKey sec usec code value => s.kbd.DropsWhole kbdRingRecords (keyReport sec usec code value)
  | .pushPacket sec usec flags dx dy =>
    s.mouse.DropsWhole mouseRingRecords (packetReport s.prevButtons sec usec flags dx dy)
  | .readKbd .. | .readMouse .. => True

instance (s : InputState) (op : InputOp) : Decidable (InputStepOk s op) := by
  cases op <;> unfold InputStepOk InputDev.DropsWhole EndsReport <;> infer_instance

/-- A run of reports that is cut where a report stops is cut between two of them. -/
theorem EndsReport.split {kept : List (List InputEvent)} (hk : ∀ r ∈ kept, IsReport r) :
    ∀ {a b : List InputEvent}, a ++ b = kept.flatten → EndsReport a →
      ∃ k1 k2, kept = k1 ++ k2 ∧ a = k1.flatten ∧ b = k2.flatten := by
  induction kept with
  | nil =>
    intro a b h _
    exact ⟨[], [], rfl, (List.append_eq_nil_iff.mp h).1, (List.append_eq_nil_iff.mp h).2⟩
  | cons r kept ih =>
    intro a b h ha
    rcases List.append_eq_append_iff.mp (h.trans List.flatten_cons) with
      ⟨c, hr, hb⟩ | ⟨c, rfl, hc⟩
    · -- the cut is in the first report: before it or behind its only `SYN_REPORT`
      rcases a.eq_nil_or_concat' with rfl | ⟨a, e, rfl⟩
      · exact ⟨[], r :: kept, rfl, rfl, h⟩
      · obtain ⟨body, last, rfl, -, hbody⟩ := hk r List.mem_cons_self
        rcases c.eq_nil_or_concat' with rfl | ⟨c, f, rfl⟩
        · exact ⟨[body ++ [last]], kept, rfl, by simpa using hr.symm, hb⟩
        · have heq : body = (a ++ [e]) ++ c :=
            (List.append_inj' (hr.trans (List.append_assoc ..).symm) rfl).1
          exact absurd (ha e (by simp)) (hbody e (by simp [heq]))
    · have hends : EndsReport c := by
        intro e he
        exact ha e (by rw [List.getLast?_append, he]; rfl)
      obtain ⟨k1, k2, rfl, rfl, rfl⟩ := ih (fun r hr => hk r (.tail _ hr)) hc.symm hends
      exact ⟨r :: k1, k2, rfl, rfl, rfl⟩

/-- Emitting keeps the newest records that fit. -/
theorem emit_spec {r : RingBuf InputEvent} (h : Ok cap r) (e : InputEvent) :
    Ok cap (evtRingEmit cap r e) ∧ (evtRingEmit cap r e).count = min (r.count + 1) cap ∧
      contents cap (evtRingEmit cap r e) = (contents cap r ++ [e]).drop (r.count + 1 - cap) := by
  have hcap := h.lt
  unfold evtRingEmit
  split
  · next hfull =>
    have hskip : contents cap r = _ ++ contents cap (r.skip cap 1) := contents_skip (by omega)
    have hok := h.skip (show 1 ≤ r.count by omega)
    have hlt : (r.skip cap 1).count < cap := by
      show r.count - 1 < cap
      omega
    refine ⟨hok.push hlt e, ?_, ?_⟩
    · show r.count - 1 + 1 = _
      omega
    · rw [hok.contents_push hlt, hskip, show r.count + 1 - cap = 1 by omega]
      rfl
  · next hroom =>
    have hlt : r.count < cap := Nat.lt_of_le_of_ne h.le hroom
    refine ⟨h.push hlt e, (Nat.min_eq_left hlt).symm, ?_⟩
    rw [h.contents_push hlt, Nat.sub_eq_zero_of_le hlt]
    rfl

theorem emits_spec (l : List InputEvent) {r : RingBuf InputEvent} (h : Ok cap r) :
    Ok cap (l.foldl (evtRingEmit cap) r) ∧
      contents cap (l.foldl (evtRingEmit cap) r) =
        (contents cap r ++ l).drop (r.count + l.length - cap) := by
  induction l generalizing r with
  | nil =>
    refine ⟨h, ?_⟩
    rw [List.append_nil, show r.count + ([] : List InputEvent).length - cap = 0 from
      Nat.sub_eq_zero_of_le h.le]
    rfl
  | cons e l ih =>
    obtain ⟨hok, hcount, hcont⟩ := emit_spec h e
    have hle := h.le
    refine ⟨(ih hok).1, ?_⟩
    rw [List.foldl_cons, (ih hok).2, hcont, hcount, ← List.drop_append_of_le_length (by simp),
      List.drop_drop, List.append_assoc, List.length_cons]
    congr 1
    omega

/-- Reading takes records from the front. -/
theorem copy_spec (n : Nat) {r : RingBuf InputEvent} (h : Ok cap r) :
    Ok cap (evtRingCopy cap n r).2 ∧
      contents cap r = (evtRingCopy cap n r).1 ++ contents cap (evtRingCopy cap n r).2 := by
  induction n generalizing r with
  | zero => exact ⟨h, rfl⟩
  | succ n ih =>
    unfold evtRingCopy
    split
    · exact ⟨h, rfl⟩
    · have hpos : 1 ≤ r.count := by omega
      obtain ⟨hok, heq⟩ := ih (h.skip hpos)
      refine ⟨hok, ?_⟩
      rw [contents_skip hpos, window_one, Nat.mod_eq_of_lt h.lt, heq]
      rfl

theorem InputDev.read_whole {d : InputDev} (hok : Ok cap d.ring) (h : d.Whole cap)
    (bufNull : Bool) (bytes : Nat) :
    Ok cap (d.read cap bufNull bytes).ring ∧ (d.read cap bufNull bytes).Whole cap := by
  unfold InputDev.read evtRingRead
  split
  · exact ⟨hok, h⟩
  next hread =>
  split at hread
  · cases hread
    exact ⟨hok, by simpa [Whole] using h⟩
  split at hread
  · cases hread
  cases hread
  obtain ⟨hok', heq⟩ := copy_spec (bytes / 16) hok
  unfold Whole at h
  rw [heq] at h
  obtain ⟨hrep, hsuf, kept, hsub, hkept⟩ := h
  refine ⟨hok', hrep, (List.suffix_append ..).trans hsuf, kept, hsub, ?_⟩
  rw [← hkept, List.append_assoc]

theorem WholeReports.push {delivered queue report : List InputEvent}
    {pushed : List (List InputEvent)} {n : Nat} (h : WholeReports delivered queue pushed)
    (hr : IsReport report)
    (hdrop : n = 0 ∨ EndsReport delivered ∧ EndsReport (queue.take n)) :
    WholeReports delivered (queue.drop n ++ report) (pushed ++ [report]) := by
  obtain ⟨hrep, hsuf, kept, hsub, hkept⟩ := h
  refine ⟨?_, ?_, ?_⟩
  · intro r hmem
    rcases List.mem_append.mp hmem with hmem | hmem
    · exact hrep r hmem
    · rwa [List.mem_singleton.mp hmem]
  · rw [List.flatten_append, List.flatten_singleton]
    exact (List.suffix_append_inj_of_length_eq rfl).mpr ⟨(List.drop_suffix n queue).trans hsuf, rfl⟩
  rcases hdrop with rfl | ⟨hdel, htake⟩
  · refine ⟨kept ++ [report], hsub.append (.refl _), ?_⟩
    rw [List.drop_zero, ← List.append_assoc, hkept, List.flatten_append, List.flatten_singleton]
  · have hreports : ∀ r ∈ kept, IsReport r := fun r hr => hrep r (hsub.subset hr)
    obtain ⟨k1, k2, rfl, rfl, hring⟩ := EndsReport.split hreports hkept hdel
    rw [← List.take_append_drop n queue] at hring
    obtain ⟨k3, k4, rfl, -, hrest⟩ :=
      EndsReport.split (fun r hr => hreports r (List.mem_append_right _ hr)) hring htake
    refine ⟨k1 ++ k4 ++ [report], .append ?_ (.refl _), by simp [hrest]⟩
    exact ((List.Sublist.refl k1).append (List.sublist_append_right k3 k4)).trans hsub

theorem InputDev.push_whole {d : InputDev} {report : List InputEvent} (hok : Ok cap d.ring)
    (h : d.Whole cap) (hr : IsReport report) (hlen : report.length ≤ cap)
    (hdrop : d.DropsWhole cap report) :
    Ok cap (d.push cap report).ring ∧ (d.push cap report).Whole cap := by
  obtain ⟨hok', hcont⟩ := emits_spec report hok
  have hle := hok.le
  rw [List.drop_append_of_le_length (by rw [contents_length]; omega)] at hcont
  refine ⟨hok', ?_⟩
  show WholeReports d.delivered (contents cap (report.foldl (evtRingEmit cap) d.ring)) _
  rw [hcont]
  exact WholeReports.push h hr hdrop

theorem keyReport_isReport (sec usec code : Nat) (value : Int) :
    IsReport (keyReport sec usec code value) :=
  ⟨[⟨sec, usec, .key, code, value⟩], _, rfl, rfl, by simp⟩

theorem mem_emitIf {c : Prop} [Decidable c] {e f : InputEvent} : f ∈ emitIf c e ↔ c ∧ f = e := by
  unfold emitIf
  split <;> simp [*]

theorem length_emitIf_le (c : Prop) [Decidable c] (e : InputEvent) : (emitIf c e).length ≤ 1 := by
  unfold emitIf
  split <;> simp

theorem packetReport_isReport (prev : BitVec 8) (sec usec : Nat) (flags dx dy : BitVec 8) :
    IsReport (packetReport prev sec usec flags dx dy) := by
  refine ⟨_, _, rfl, rfl, fun e he => ?_⟩
  simp only [packetRecords, List.mem_append, mem_emitIf] at he
  rcases he with (((⟨-, rfl⟩ | ⟨-, rfl⟩) | ⟨-, rfl⟩) | ⟨-, rfl⟩) | ⟨-, rfl⟩ <;> exact nofun

theorem packetReport_length_le (prev : BitVec 8) (sec usec : Nat) (flags dx dy : BitVec 8) :
    (packetReport prev sec usec flags dx dy).length ≤ 6 := by
  simp only [packetReport, packetRecords, List.length_append, List.length_singleton]
  grind [length_emitIf_le]

/-- **Input reports stay whole** as long as records are only dropped by whole reports, at a
moment when the readers are between two of them. -/
theorem input_reports_whole {s : InputState} (h : Reach inputStep InputStepOk inputInit s) :
    s.kbd.Whole kbdRingRecords ∧ s.mouse.Whole mouseRingRecords := by
  have hinv := h.inv (fun s => (Ok kbdRingRecords s.kbd.ring ∧ s.kbd.Whole kbdRingRecords) ∧
    (Ok mouseRingRecords s.mouse.ring ∧ s.mouse.Whole mouseRingRecords)) ?_ ?_
  · exact ⟨hinv.1.2, hinv.2.2⟩
  · have hok : Ok 64 inputInit.kbd.ring := ⟨Nat.zero_le _, by decide, rfl⟩
    have hwhole : inputInit.kbd.Whole 64 := ⟨nofun, List.suffix_refl _, [], .slnil, rfl⟩
    exact ⟨⟨hok, hwhole⟩, hok, hwhole⟩
  · rintro s (_ | _ | _ | _) ⟨hkbd, hmouse⟩ hop
    · refine ⟨InputDev.push_whole hkbd.1 hkbd.2 (keyReport_isReport ..) ?_ hop, hmouse⟩
      simp [keyReport, kbdRingRecords]
    · refine ⟨hkbd, InputDev.push_whole hmouse.1 hmouse.2 (packetReport_isReport ..) ?_ hop⟩
      exact Nat.le_trans (packetReport_length_le ..) (by decide)
    · exact ⟨InputDev.read_whole hkbd.1 hkbd.2 .., hmouse⟩
    · exact ⟨hkbd, InputDev.read_whole hmouse.1 hmouse.2 ..⟩

/-- Thirty-three keys and no reader: the first goes as a whole. -/
theorem oldest_key_dropped :
    ((List.replicate 33 (InputOp.pushKey 0 0 30 1)).foldl inputStep inputInit).kbd.Whole 64 :=
  (input_reports_whole (Reach.start.run (by decide +kernel))).1

/-- Thirty-two movements fill the ring; one that moves both ways then takes one and a half of
them away. -/
def tornMouse : InputDev :=
  (inputStep ((List.replicate 32 (.pushPacket 0 0 0 1 0)).foldl inputStep inputInit)
    (.pushPacket 0 0 0 1 1)).mouse

/-- What is read next begins with the `SYN_REPORT` of the second. -/
theorem report_torn : ¬ tornMouse.Whole mouseRingRecords := by
  rintro ⟨-, -, kept, hsub, hkept⟩
  have hhead := congrArg (fun l => l.head?.map InputEvent.type) hkept
  have hpushed : ∀ r ∈ tornMouse.pushed, r.head?.map InputEvent.type = some .rel := by
    decide +kernel
  cases kept with
  | nil => exact absurd hhead (by decide +kernel)
  | cons r kept =>
    have hr := hpushed r (hsub.subset List.mem_cons_self)
    cases r with
    | nil => cases hr
    | cons e r => exact absurd (hhead.trans hr) (by decide +kernel)

end Drunix.Drivers
