import Drunix.Proc.Fd

/-!
# Waiting for the clock

`nanosleep` and its kin (`proc/syscall/time.c`), the timeout of `poll`
(`fd_control.c`), `sched_block_until` and `sched_tick` (`proc/sched.c`): a call waits until the
tick counter, which wraps, has come to a deadline, and the signed difference of the two says
whether it has.

`timed_waits_iff`: a sleep takes its time and reports no more than is left of it, exactly where
it is at most 2 ^ 31 + 1 ticks long, and a whole number of them if it can be interrupted before
the first; `poll` takes its time always.

Mirroring notes:
- `passed` counts the ticks since the call, for the statements only.
- Reading the tick counter and blocking is one step. Interrupts stay on in between: a tick
  that comes there counts for the deadline, but wakes the caller with the next one only.
- A duration of zero is left out: the call returns at once.
- No signal comes and no descriptor gets ready; other processes change what they like, but for
  the entry of the one that waits.
- The remaining time goes to the caller's memory; that this may fail is left out.
-/

namespace Drunix.Proc

open Lib Function

/-- `(int32_t)(a - b)`. -/
def diff32 (a b : Nat) : Int :=
  if u32 (a + 4294967296 - u32 b) < 2147483648 then u32 (a + 4294967296 - u32 b)
  else (u32 (a + 4294967296 - u32 b) : Int) - 4294967296

/-! ## sched.c -/

/-- `process_t`: is it blocked, and until when (`wait_deadline_set` and `wait_deadline`). -/
structure Waiter where
  blocked : Bool
  deadline : Option Nat

/-- `sched_make_ready`. -/
def schedMakeReady : Waiter := ⟨false, none⟩

/-- `g_ticks` and `proc_table`. -/
structure Clock where
  ticks : Nat
  procs : Fin maxProcs → Waiter
  ticks_lt : ticks < 4294967296

/-- What the loop of `sched_tick` does with an entry. -/
def tickEntry (ticks : Nat) (p : Waiter) : Waiter :=
  match p.deadline with
  | some deadline => if p.blocked ∧ 0 ≤ diff32 ticks deadline then schedMakeReady else p
  | none => p

/-- `sched_tick`. -/
def schedTick (c : Clock) : Clock :=
  let ticks := u32 (c.ticks + 1)
  ⟨ticks, fun i => tickEntry ticks (c.procs i), u32_lt _⟩

/-- `sched_block_until`, for the process in slot `i`. -/
def schedBlockUntil (c : Clock) (i : Fin maxProcs) (deadline : Nat) : Clock :=
  { c with procs := update c.procs i ⟨true, some deadline⟩ }

/-! ## The calls -/

def schedHz : Nat := 100
def tickNsec : Nat := 1000000000 / schedHz

/-- What a call does when it runs: it ends, or waits. -/
inductive Go where
  | ret (r : Int)
  | wait (deadline : Nat)

/-- The `delta_ticks` of `syscall_nanosleep_common`. -/
def sleepTicks (sec nsec : Nat) : Nat :=
  let secTicks := if sec > 0xFFFFFFFF / schedHz then 0xFFFFFFFF else sec * schedHz
  let nsecTicks := if nsec = 0 then 0 else (nsec + tickNsec - 1) / tickNsec
  if secTicks > 0xFFFFFFFF - nsecTicks then 0xFFFFFFFF else secTicks + nsecTicks

/-- `syscall_nanosleep_common`, up to its wait. -/
def nanosleepCommon (start sec nsec : Nat) : Go :=
  if nsec ≥ 1000000000 then .ret einval
  else if sec = 0 ∧ nsec = 0 then .ret 0
  else .wait (u32 (start + sleepTicks sec nsec))

/-- The rest of it: the result, with the remaining time if it is interrupted. -/
def nanosleepEnd (deadline now : Nat) : Int × Option (Nat × Nat) :=
  if diff32 deadline now > 0 then
    let remaining := u32 (deadline + 4294967296 - now)
    (-1, some (remaining / schedHz, remaining % schedHz * tickNsec))
  else (0, none)

/-- `poll_timeout_ticks`, of a positive timeout. -/
def pollTimeoutTicks (ms : Nat) : Nat :=
  let ticks := ms / 1000 * schedHz
  let remainderTicks := (ms % 1000 * schedHz + 999) / 1000
  if ms / 1000 > 0xFFFFFFFF / schedHz ∨ 0xFFFFFFFF - ticks < remainderTicks then 0xFFFFFFFF
  else if ticks + remainderTicks = 0 then 1 else ticks + remainderTicks

/-- One round of the loop of `syscall_case_poll`, with nothing ready. -/
def pollRound (deadline now : Nat) : Go :=
  if diff32 deadline now ≤ 0 then .ret 0
  else
    let next := u32 (now + 1)
    .wait (if diff32 deadline next < 0 then deadline else next)

/-! ## Runs -/

/-- A call that waits; `result` is there once it has returned. -/
structure TimedCall where
  clock : Clock
  passed : Nat
  result : Option Int

/-- A tick; other processes; the scheduler picks the process of the call. -/
inductive TimedOp where
  | tick
  | other (procs : Fin maxProcs → Waiter)
  | run

/-- The call does what `go` says. -/
def TimedCall.go (w : TimedCall) (i : Fin maxProcs) : Go → TimedCall
  | .ret r => { w with result := some r }
  | .wait deadline => { w with clock := schedBlockUntil w.clock i deadline }

/-- One step, where `body now` is what the call does when it runs. -/
def timedStep (i : Fin maxProcs) (body : Nat → Go) (w : TimedCall) : TimedOp → TimedCall
  | .tick => { w with clock := schedTick w.clock, passed := w.passed + 1 }
  | .other procs => { w with clock := { w.clock with procs } }
  | .run => if w.result.isSome ∨ (w.clock.procs i).blocked then w else w.go i (body w.clock.ticks)

/-- The entry of the process is left alone. -/
def Undisturbed (i : Fin maxProcs) (w : TimedCall) : TimedOp → Prop
  | .other procs => procs i = w.clock.procs i
  | _ => True

/-- It returns 0 only after `need` ticks, and can run from that tick on. -/
def TakesTime (i : Fin maxProcs) (body : Nat → Go) (w₀ : TimedCall) (need : Nat) : Prop :=
  ∀ w, Reach (timedStep i body) (Undisturbed i) w₀ w →
    (w.result = some 0 → need ≤ w.passed) ∧
    (w.passed = need → w.result ≠ none ∨ (w.clock.procs i).blocked = false)

/-- The call of `nanosleep` by the running process `i`. -/
def sleepCall (c : Clock) (i : Fin maxProcs) (sec nsec : Nat) : TimedCall :=
  TimedCall.go ⟨c, 0, none⟩ i (nanosleepCommon c.ticks sec nsec)

/-- What it does once it runs again. -/
def sleepBody (c : Clock) (sec nsec now : Nat) : Go :=
  .ret (nanosleepEnd (u32 (c.ticks + sleepTicks sec nsec)) now).1

/-- The ticks of a time, rounded up. -/
def ticksOf (nsec : Nat) : Nat := (nsec * schedHz + 999999999) / 1000000000

/-- The ticks that a sleep has to take. -/
def sleepNeed (sec nsec : Nat) : Nat := ticksOf (sec * 1000000000 + nsec)

/-- An interruption before the time is up reports no more than was asked for. -/
def RemainingOk (start sec nsec : Nat) : Prop :=
  ∀ k < sleepNeed sec nsec, ∀ rem,
    (nanosleepEnd (u32 (start + sleepTicks sec nsec)) (u32 (start + k))).2 = some rem →
    rem.1 * 1000000000 + rem.2 ≤ sec * 1000000000 + nsec

/-! ## Differences of ticks -/

theorem diff32_shift (s a b : Nat) : diff32 (u32 (s + a)) (u32 (s + b)) = diff32 (u32 a) b := by
  have h : u32 (u32 (s + a) + 4294967296 - u32 (u32 (s + b))) =
      u32 (u32 a + 4294967296 - u32 b) := by
    unfold u32
    omega
  unfold diff32
  rw [h]

theorem diff32_nonneg_iff {a d : Nat} (ha : a ≤ d) (hd : d < 4294967296) :
    0 ≤ diff32 (u32 a) d ↔ a = d ∨ a + 2147483648 < d := by
  unfold diff32 u32
  split <;> omega

/-- What the call finds after `k` ticks of `d`. -/
theorem nanosleepEnd_eq {start k d : Nat} (hk : k < d) (hd : d < 4294967296) :
    nanosleepEnd (u32 (start + d)) (u32 (start + k)) =
      if d - k < 2147483648 then (-1, some ((d - k) / schedHz, (d - k) % schedHz * tickNsec))
      else (0, none) := by
  have hrem : u32 (u32 (start + d) + 4294967296 - u32 (start + k)) = d - k := by
    unfold u32
    omega
  unfold nanosleepEnd
  dsimp only
  rw [hrem, diff32_shift]
  refine if_congr ?_ rfl rfl
  unfold diff32 u32
  split <;> omega

theorem sleepNeed_eq (sec nsec : Nat) :
    sleepNeed sec nsec = sec * 100 + (nsec + 9999999) / 10000000 := by
  unfold sleepNeed ticksOf schedHz
  omega

theorem sleepTicks_eq (sec : Nat) {nsec : Nat} (hnsec : nsec < 1000000000) :
    sleepTicks sec nsec = min 0xFFFFFFFF (sleepNeed sec nsec) := by
  rw [sleepNeed_eq]
  unfold sleepTicks schedHz tickNsec schedHz
  dsimp only
  repeat' split
  all_goals omega

theorem pollTimeoutTicks_eq {ms : Nat} (h0 : 0 < ms) (hms : ms < 2147483648) :
    pollTimeoutTicks ms = ticksOf (ms * 1000000) := by
  unfold pollTimeoutTicks ticksOf schedHz
  dsimp only
  repeat' split
  all_goals omega

/-! ## Waits -/

theorem u32_tick (start k : Nat) : u32 (u32 (start + k) + 1) = u32 (start + (k + 1)) := by
  unfold u32
  omega

/-- `E k` is what the entry of the process can be after `k` ticks. -/
theorem TakesTime.of_entry {c : Clock} {i : Fin maxProcs} {body : Nat → Go} {d : Nat}
    (E : Nat → Waiter → Prop) (h0 : E 0 (c.procs i))
    (htick : ∀ k p, E k p → E (k + 1) (tickEntry (u32 (c.ticks + (k + 1))) p))
    (hret : ∀ k p r, E k p → p.blocked = false → body (u32 (c.ticks + k)) = .ret r → d ≤ k)
    (hwait : ∀ k p t, E k p → body (u32 (c.ticks + k)) = .wait t → E k ⟨true, some t⟩)
    (hend : ∀ p, E d p → p.blocked = false) : TakesTime i body ⟨c, 0, none⟩ d := by
  intro w hw
  obtain ⟨-, hentry, hdone⟩ : w.clock.ticks = u32 (c.ticks + w.passed) ∧
      (w.result = none → E w.passed (w.clock.procs i)) ∧ (w.result ≠ none → d ≤ w.passed) := by
    refine hw.inv (fun w => w.clock.ticks = u32 (c.ticks + w.passed) ∧
      (w.result = none → E w.passed (w.clock.procs i)) ∧ (w.result ≠ none → d ≤ w.passed))
      ⟨(u32_of_lt c.ticks_lt).symm, fun _ => h0, fun h => absurd rfl h⟩ ?_
    rintro w op ⟨hticks, hentry, hdone⟩ hq
    cases op with
    | tick =>
      have hnow : u32 (w.clock.ticks + 1) = u32 (c.ticks + (w.passed + 1)) := by
        rw [hticks, u32_tick]
      refine ⟨hnow, fun hres => ?_, fun hres => Nat.le_succ_of_le (hdone hres)⟩
      show E (w.passed + 1) (tickEntry (u32 (w.clock.ticks + 1)) (w.clock.procs i))
      rw [hnow]
      exact htick _ _ (hentry hres)
    | other procs =>
      refine ⟨hticks, fun hres => ?_, hdone⟩
      show E w.passed (procs i)
      rw [show procs i = _ from hq]
      exact hentry hres
    | run =>
      rw [timedStep]
      split
      · exact ⟨hticks, hentry, hdone⟩
      next hrun =>
      have hres : w.result = none := by simpa using fun hc => hrun (.inl hc)
      have hfree : (w.clock.procs i).blocked = false := by simpa using fun hc => hrun (.inr hc)
      rw [hticks]
      cases hbody : body (u32 (c.ticks + w.passed)) with
      | ret r => exact ⟨hticks, nofun, fun _ => hret _ _ r (hentry hres) hfree hbody⟩
      | wait t =>
        refine ⟨hticks, fun _ => ?_, hdone⟩
        show E w.passed (update w.clock.procs i ⟨true, some t⟩ i)
        rw [update_self]
        exact hwait _ _ t (hentry hres) hbody
  refine ⟨fun hres => hdone (by simp [hres]), fun hk => ?_⟩
  rw [or_iff_not_imp_left, not_not]
  exact fun hres => hend _ (hk ▸ hentry hres)

section Sleep

variable {sec nsec : Nat}

theorem sleepCall_eq (c : Clock) (i : Fin maxProcs) (hnsec : nsec < 1000000000)
    (hpos : 0 < sec + nsec) : sleepCall c i sec nsec =
      ⟨schedBlockUntil c i (u32 (c.ticks + sleepTicks sec nsec)), 0, none⟩ := by
  unfold sleepCall nanosleepCommon
  rw [if_neg (by omega), if_neg (by omega)]
  rfl

/-- A sleep that is not too long: the process is blocked until its time is up. -/
theorem sleep_takesTime (c : Clock) (i : Fin maxProcs) (hnsec : nsec < 1000000000)
    (hpos : 0 < sec + nsec) (hlen : sleepNeed sec nsec ≤ 2147483649) :
    TakesTime i (sleepBody c sec nsec) (sleepCall c i sec nsec) (sleepNeed sec nsec) := by
  have hd := sleepTicks_eq sec hnsec
  have hneed := sleepNeed_eq sec nsec
  rw [sleepCall_eq c i hnsec hpos, show sleepTicks sec nsec = sleepNeed sec nsec by omega]
  refine TakesTime.of_entry (fun k p => p = if k < sleepNeed sec nsec
    then ⟨true, some (u32 (c.ticks + sleepNeed sec nsec))⟩ else schedMakeReady) ?_ ?_ ?_ nofun ?_
  · rw [if_pos (by omega)]
    exact update_self ..
  · rintro k p rfl
    by_cases hlt : k < sleepNeed sec nsec
    · have hexp := diff32_nonneg_iff (a := k + 1) hlt (show sleepNeed sec nsec < 4294967296 by omega)
      rw [if_pos hlt, tickEntry]
      show (if true = true ∧ 0 ≤ diff32 (u32 (c.ticks + (k + 1))) _ then _ else _) = _
      rw [diff32_shift]
      by_cases hnow : k + 1 < sleepNeed sec nsec
      · rw [if_pos hnow, if_neg fun hc => absurd (hexp.mp hc.2) (by omega)]
      · rw [if_neg hnow, if_pos ⟨rfl, hexp.mpr (by omega)⟩]
    · rw [if_neg hlt, if_neg (by omega)]
      rfl
  · rintro k p r rfl hfree -
    by_contra hlt
    rw [if_pos (by omega)] at hfree
    cases hfree
  · rintro p rfl
    rw [if_neg (Nat.lt_irrefl _)]
    rfl

/-- A longer one is over with the first tick. -/
theorem sleep_early (c : Clock) (i : Fin maxProcs) (hnsec : nsec < 1000000000)
    (hlen : 2147483649 < sleepNeed sec nsec) :
    ¬ TakesTime i (sleepBody c sec nsec) (sleepCall c i sec nsec) (sleepNeed sec nsec) := by
  intro h
  have hd := sleepTicks_eq sec hnsec
  have hneed := sleepNeed_eq sec nsec
  have hexp : 0 ≤ diff32 (u32 (c.ticks + 1)) (u32 (c.ticks + sleepTicks sec nsec)) := by
    rw [diff32_shift, diff32_nonneg_iff (by omega) (by omega)]
    omega
  have hend : nanosleepEnd (u32 (c.ticks + sleepTicks sec nsec)) (u32 (c.ticks + 1)) = (0, none) := by
    rw [nanosleepEnd_eq (by omega) (by omega), if_neg (by omega)]
  have hawake : tickEntry (u32 (c.ticks + 1)) ⟨true, some (u32 (c.ticks + sleepTicks sec nsec))⟩ =
      schedMakeReady := if_pos ⟨rfl, hexp⟩
  rw [sleepCall_eq c i hnsec (by omega)] at h
  have hrun := h _ (Reach.step TimedOp.run (Reach.step TimedOp.tick Reach.start trivial) trivial)
  simp [timedStep, schedTick, schedBlockUntil, hawake, schedMakeReady, TimedCall.go, sleepBody,
    hend] at hrun
  omega

/-- What is reported is too much only before the first tick, if the time was rounded up. -/
theorem remainingOk_iff (start : Nat) (hnsec : nsec < 1000000000)
    (hlen : sleepNeed sec nsec ≤ 2147483649) :
    RemainingOk start sec nsec ↔ 10000000 ∣ nsec ∨ 2147483648 ≤ sleepNeed sec nsec := by
  have hd := sleepTicks_eq sec hnsec
  have hneed := sleepNeed_eq sec nsec
  unfold RemainingOk
  rw [show sleepTicks sec nsec = sleepNeed sec nsec by omega]
  constructor
  · intro h
    by_contra hno
    have hrem := h 0 (by omega)
    rw [nanosleepEnd_eq (by omega) (by omega), if_pos (by omega)] at hrem
    have := hrem _ rfl
    unfold tickNsec schedHz at this
    dsimp only at this
    omega
  · intro h k hk rem hrem
    rw [nanosleepEnd_eq hk (by omega)] at hrem
    split at hrem
    next hlt =>
      cases hrem
      unfold tickNsec schedHz
      dsimp only
      omega
    · cases hrem

end Sleep

/-- A poll takes its time, however long it is: it runs, or waits for the next tick. -/
theorem poll_takesTime (c : Clock) (i : Fin maxProcs) (hrun : (c.procs i).blocked = false) {ms : Nat}
    (h0 : 0 < ms) (hms : ms < 2147483648) :
    TakesTime i (pollRound (u32 (c.ticks + pollTimeoutTicks ms))) ⟨c, 0, none⟩
      (ticksOf (ms * 1000000)) := by
  have hd : ticksOf (ms * 1000000) < 2147483648 := by
    unfold ticksOf schedHz
    omega
  rw [pollTimeoutTicks_eq h0 hms]
  generalize ticksOf (ms * 1000000) = d at *
  refine TakesTime.of_entry (fun k p => p.blocked = false ∨
    k ≠ d ∧ p = ⟨true, some (u32 (c.ticks + (k + 1)))⟩) (.inl hrun) ?_ ?_ ?_ ?_
  · rintro k p hp
    left
    rcases hp with hfree | ⟨-, rfl⟩
    · unfold tickEntry
      split
      · rw [if_neg (by simp [hfree])]
        exact hfree
      · exact hfree
    · refine congrArg Waiter.blocked (if_pos ⟨rfl, ?_⟩)
      unfold diff32 u32
      split <;> omega
  · rintro k p r - - hbody
    by_contra hlt
    unfold pollRound at hbody
    rw [diff32_shift, if_neg ?_] at hbody
    · cases hbody
    · unfold diff32 u32
      split <;> omega
  · rintro k p t - hbody
    right
    unfold pollRound at hbody
    dsimp only at hbody
    rw [u32_tick, diff32_shift, diff32_shift] at hbody
    split at hbody
    · cases hbody
    next hmore =>
    have hin : ¬ diff32 (u32 d) (k + 1) < 0 := by
      unfold diff32 u32 at *
      split <;> split at hmore <;> omega
    rw [if_neg hin] at hbody
    cases hbody
    refine ⟨?_, rfl⟩
    rintro rfl
    unfold diff32 u32 at hmore
    split at hmore <;> omega
  · rintro p (hfree | ⟨hne, -⟩)
    · exact hfree
    · exact absurd rfl hne

/-- When sleeps and polls take the time they are asked for. -/
theorem timed_waits_iff (c : Clock) (i : Fin maxProcs) (hrun : (c.procs i).blocked = false)
    (sec nsec ms : Nat) (hnsec : nsec < 1000000000) (hpos : 0 < sec + nsec) (h0 : 0 < ms)
    (hms : ms < 2147483648) :
    (TakesTime i (sleepBody c sec nsec) (sleepCall c i sec nsec) (sleepNeed sec nsec) ∧
        RemainingOk c.ticks sec nsec ↔
      sleepNeed sec nsec ≤ 2147483649 ∧
        (10000000 ∣ nsec ∨ 2147483648 ≤ sleepNeed sec nsec)) ∧
    TakesTime i (pollRound (u32 (c.ticks + pollTimeoutTicks ms))) ⟨c, 0, none⟩
      (ticksOf (ms * 1000000)) := by
  refine ⟨?_, poll_takesTime c i hrun h0 hms⟩
  constructor
  · rintro ⟨htime, hrem⟩
    have hlen := Nat.le_of_not_lt fun hlen => sleep_early c i hnsec hlen htime
    exact ⟨hlen, (remainingOk_iff c.ticks hnsec hlen).mp hrem⟩
  · rintro ⟨hlen, hwhole⟩
    exact ⟨sleep_takesTime c i hnsec hpos hlen,
      (remainingOk_iff c.ticks hnsec hlen).mpr hwhole⟩

/-- All processes run, at tick 0. -/
def idleClock : Clock := ⟨0, fun _ => schedMakeReady, by decide⟩

/-- One second. -/
theorem one_second_sleeps :
    TakesTime ⟨0, by decide⟩ (sleepBody idleClock 1 0) (sleepCall idleClock ⟨0, by decide⟩ 1 0) 100 ∧
      RemainingOk 0 1 0 :=
  (timed_waits_iff idleClock ⟨0, by decide⟩ rfl 1 0 1 (by decide) (by decide) (by decide)
    (by decide)).1.mpr (by decide)

/-- Two hundred and fifty days pass with one tick; and of a nanosecond ten milliseconds remain. -/
theorem long_sleep_ends_early :
    ¬ TakesTime ⟨0, by decide⟩ (sleepBody idleClock 21600000 0)
      (sleepCall idleClock ⟨0, by decide⟩ 21600000 0) 2160000000 ∧
    (nanosleepEnd (u32 (0 + sleepTicks 0 1)) 0).2 = some (0, 10000000) :=
  ⟨sleep_early idleClock _ (by decide) (by decide), by decide⟩

end Drunix.Proc
