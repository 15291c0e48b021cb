import Drunix.Mm.Fault

/-!
# Signals and the way back

Delivery of a signal to a handler and the return from it on x86: `sched_signal_check`
(`proc/sched.c`), `arch_signal_setup_frame` and `arch_trap_frame_sanitize`
(`arch/x86/proc/arch_proc.c`), `syscall_case_sigreturn`
(`proc/syscall/signal.c`) and the exit path `syscall_common`
(`arch/x86/isr.asm`).

The frame on the user stack keeps `eip`, `eflags`, `eax` and `esp`. `sigreturn` puts all four
back into the trap frame, and then `syscall_common` stores the result of the call over `eax`;
`ecx` and `edx` are kept nowhere. `signal_round_trip_iff`: a process comes back from a handler
with the registers it had, if and only if `eax` was zero and the handler gives back `ecx` and
`edx`, which the calling convention does not ask of it.

Mirroring notes:
- Of `arch_trap_frame_t` the words that no function here reads are left out (`esp_saved`,
  `vector`, `error_code`).
- A set of signals is its bits.
- Whether a copy to or from user memory goes through is an argument, beside the check of
  the range.
- `schedule()` comes back to a stopped process when it is continued; `none` is a process that
  does not come back.
- The registers of a process in user mode are those that its next trap saves.
-/

namespace Drunix.Proc

open Lib Mm Function

/-! ## Frames -/

/-- `arch_trap_frame_t`. -/
structure TrapFrame where
  gs : UInt32
  fs : UInt32
  es : UInt32
  ds : UInt32
  edi : UInt32
  esi : UInt32
  ebp : UInt32
  ebx : UInt32
  edx : UInt32
  ecx : UInt32
  eax : UInt32
  eip : UInt32
  cs : UInt32
  eflags : UInt32
  userEsp : UInt32
  userSs : UInt32
deriving DecidableEq

/-- A process between two instructions: its registers and its memory. -/
structure Ctx where
  regs : TrapFrame
  mem : Buf

/-- The word at an address of user memory. -/
def Ctx.word (c : Ctx) (addr : Nat) : UInt32 := UInt32.ofNat (le32 c.mem addr)

/-- `arch_trap_frame_sanitize`, with `user_tls_present`. -/
def archTrapFrameSanitize (tls : Bool) (f : TrapFrame) : TrapFrame :=
  if f.cs &&& 3 ≠ 3 then f
  else if !tls && (f.gs &&& 0xFFFF == 0x3B) then { f with gs := 0 }
  else f

/-! ## arch_signal_setup_frame -/

/-- `SYS_SIGRETURN`. -/
def sysSigreturn : UInt32 := 119

/-- The trampoline: `mov eax, SYS_SIGRETURN; int 0x80; nop`. -/
def tramp : Nat → UInt8
  | 0 => 0xB8
  | 1 => 119
  | 5 => 0xCD
  | 6 => 0x80
  | 7 => 0x90
  | _ => 0

/-- The frame on the user stack, `sf`. -/
def signalFrame (f : TrapFrame) (signum : Nat) (newEsp : UInt32) : Buf :=
  putLe32 (putLe32 (putLe32 (putLe32 (putLe32 (putLe32 (fun i => tramp (i - 24))
    0 (newEsp + 24).toNat)
    4 signum)
    8 f.eip.toNat)
    12 f.eflags.toNat)
    16 f.eax.toNat)
    20 f.userEsp.toNat

/-- `arch_signal_setup_frame`; `wr` says whether the user's stack can be written. -/
def archSignalSetupFrame (wr : Bool) (c : Ctx) (signum : Nat) (handler : UInt32) : Option Ctx :=
  let newEsp := c.regs.userEsp - 32
  if uaccessRangeOk newEsp.toNat 32 && wr then
    some
      { regs := { c.regs with eip := handler, userEsp := newEsp }
        mem := memcpy c.mem newEsp.toNat (signalFrame c.regs signum newEsp) 0 32 }
  else none

/-! ## sched_signal_check -/

/-- What a process and its group have to do with signals. -/
structure SigProc where
  pending : Nat → Bool
  blocked : Nat → Bool
  groupPending : Nat → Bool
  groupExit : Bool
  /-- `crash.valid` and `crash.signum`. -/
  crash : Option Nat
  handlers : Nat → UInt32
  tls : Bool

def nsig : Nat := 32
def sigDfl : UInt32 := 0
def sigIgn : UInt32 := 1
def sigChld : Nat := 17
def sigCont : Nat := 18
def sigStop : Nat := 19
def sigTstp : Nat := 20

/-- The lowest signal of a set. -/
def lowestSignal (set : Nat → Bool) : Option Nat := (List.range' 1 (nsig - 1)).find? set

/-- The signals of a set that are not blocked. -/
def SigProc.unblocked (p : SigProc) (set : Nat → Bool) : Nat → Bool := fun i => set i && !p.blocked i

/-- The signal that is delivered, taken from the set it was in: a fault before the others, the
process's own before those of the group. -/
def SigProc.take (p : SigProc) : Option Nat × SigProc :=
  let deliverable := p.unblocked p.pending
  let own :=
    match p.crash with
    | some n => if n < nsig && deliverable n then some n else lowestSignal deliverable
    | none => lowestSignal deliverable
  match own with
  | some n => (some n, { p with pending := update p.pending n false })
  | none =>
    match lowestSignal (p.unblocked p.groupPending) with
    | some n => (some n, { p with groupPending := update p.groupPending n false })
    | none => (none, p)

/-- `is_fatal_default`. -/
def isFatalDefault (sig : Nat) : Bool :=
  sig != sigChld && sig != sigStop && sig != sigTstp && sig != sigCont

/-- The handler for a signal; a fault cannot be ignored. -/
def SigProc.handler (p : SigProc) (signum : Nat) : UInt32 :=
  if p.crash = some signum && p.handlers signum == sigIgn then sigDfl else p.handlers signum

/-- The record of a fault is dropped with its signal. -/
def SigProc.clearCrash (p : SigProc) (signum : Nat) : SigProc :=
  if p.crash = some signum then { p with crash := none } else p

/-- A signal in a handler's way. -/
def deliver (wr : Bool) (c : Ctx) (p : SigProc) (signum : Nat) (handler : UInt32) :
    Option (Ctx × SigProc) :=
  (archSignalSetupFrame wr c signum handler).map fun c => (c, p)

/-- What is done about the signal `signum`. -/
def dispatch (wr : Bool) (c : Ctx) (p : SigProc) (signum : Nat) : Option (Ctx × SigProc) :=
  let handler := p.handler signum
  if signum = sigStop then some (c, p)
  else if signum = sigTstp && handler == sigDfl then some (c, p)
  else if signum = sigCont then
    if handler > sigIgn then deliver wr c p signum handler else some (c, p)
  else if handler == sigIgn then some (c, p.clearCrash signum)
  else if handler == sigDfl then
    if isFatalDefault signum then none else some (c, p.clearCrash signum)
  else deliver wr c (p.clearCrash signum) signum handler

/-- `sched_signal_check`. -/
def schedSignalCheck (wr : Bool) (p : SigProc) (c : Ctx) : Option (Ctx × SigProc) :=
  let c := { c with regs := archTrapFrameSanitize p.tls c.regs }
  if c.regs.cs &&& 3 ≠ 3 then some (c, p)
  else if p.groupExit then none
  else
    match p.take with
    | (none, p) => some (c, p)
    | (some signum, p) => dispatch wr c p signum

/-! ## The way back -/

/-- `syscall_case_sigreturn`: the result and the trap frame; `rd` says whether the user's stack
can be read. A process whose frame cannot be read is killed. -/
def syscallCaseSigreturn (rd : Bool) (c : Ctx) : Option (UInt32 × Ctx) :=
  let sf := (c.regs.userEsp - 4).toNat
  if uaccessRangeOk sf 24 && rd then
    some (0,
      { c with
        regs :=
          { c.regs with
            eip := c.word (sf + 8)
            eflags := c.word (sf + 12)
            eax := c.word (sf + 16)
            userEsp := c.word (sf + 20) } })
  else none

/-- `mov eax, imm32`. -/
def stepMovEax (c : Ctx) : Option Ctx :=
  if c.mem c.regs.eip.toNat = 0xB8 then
    some { c with regs := { c.regs with eax := c.word (c.regs.eip.toNat + 1), eip := c.regs.eip + 5 } }
  else none

/-- `int 0x80`: the context that the trap saves. -/
def stepInt80 (c : Ctx) : Option Ctx :=
  if c.mem c.regs.eip.toNat = 0xCD ∧ c.mem (c.regs.eip.toNat + 1) = 0x80 then
    some { c with regs := { c.regs with eip := c.regs.eip + 2 } }
  else none

/-- A process that goes through the trampoline: two instructions, the call, and the store of
its result over the saved `eax`. `syscall_common` looks at signals next. -/
def comeBack (rd : Bool) (c : Ctx) : Option Ctx := do
  let c ← stepMovEax c
  let c ← stepInt80 c
  guard (c.regs.eax = sysSigreturn)
  let (ret, c) ← syscallCaseSigreturn rd c
  some { c with regs := { c.regs with eax := ret } }

/-! ## The frame on the stack -/

section Stack

variable {f : TrapFrame} {signum : Nat} {newEsp : UInt32}

theorem signalFrame_tramp {i : Nat} (hi : 24 ≤ i) :
    signalFrame f signum newEsp i = tramp (i - 24) := by
  unfold signalFrame
  rw [putLe32_out _ _ (by omega), putLe32_out _ _ (by omega), putLe32_out _ _ (by omega),
    putLe32_out _ _ (by omega), putLe32_out _ _ (by omega), putLe32_out _ _ (by omega)]

theorem signalFrame_ret : le32 (signalFrame f signum newEsp) 0 = (newEsp + 24).toNat := by
  unfold signalFrame
  rw [le32_putLe32_ne _ _ (by omega), le32_putLe32_ne _ _ (by omega),
    le32_putLe32_ne _ _ (by omega), le32_putLe32_ne _ _ (by omega),
    le32_putLe32_ne _ _ (by omega), le32_putLe32 (UInt32.toNat_lt _)]

theorem signalFrame_eip : le32 (signalFrame f signum newEsp) 8 = f.eip.toNat := by
  unfold signalFrame
  rw [le32_putLe32_ne _ _ (by omega), le32_putLe32_ne _ _ (by omega),
    le32_putLe32_ne _ _ (by omega), le32_putLe32 (UInt32.toNat_lt _)]

theorem signalFrame_eflags : le32 (signalFrame f signum newEsp) 12 = f.eflags.toNat := by
  unfold signalFrame
  rw [le32_putLe32_ne _ _ (by omega), le32_putLe32_ne _ _ (by omega),
    le32_putLe32 (UInt32.toNat_lt _)]

theorem signalFrame_esp : le32 (signalFrame f signum newEsp) 20 = f.userEsp.toNat := by
  unfold signalFrame
  rw [le32_putLe32 (UInt32.toNat_lt _)]

end Stack

/-- A range that is all right ends below the top. -/
theorem uaccessRangeOk_iff {addr len : Nat} (hlen : 0 < len) (hlt : len < 0x40000000) :
    uaccessRangeOk addr len = true ↔ addr + len ≤ userStackTop := by
  unfold uaccessRangeOk userStackTop
  by_cases haddr : addr < 0xC0000000
  · rw [u32_of_lt (by omega)]
    simp
    omega
  · simp [haddr]
    omega

/-- `c1` is `c` with a signal's frame on its stack: where the frame is, and what it says. -/
structure Framed (c c1 : Ctx) : Prop where
  low : c1.regs.userEsp.toNat + 32 = c.regs.userEsp.toNat
  top : c.regs.userEsp.toNat ≤ userStackTop
  ret : c1.word c1.regs.userEsp.toNat = c1.regs.userEsp + 24
  eip : c1.word (c1.regs.userEsp.toNat + 8) = c.regs.eip
  eflags : c1.word (c1.regs.userEsp.toNat + 12) = c.regs.eflags
  esp : c1.word (c1.regs.userEsp.toNat + 20) = c.regs.userEsp
  tramp : ∀ i < 8, c1.mem (c1.regs.userEsp.toNat + 24 + i) = Proc.tramp i
  out : ∀ a, c.regs.userEsp.toNat ≤ a → c1.mem a = c.mem a
  regs : ∃ handler, c1.regs = { c.regs with eip := handler, userEsp := c.regs.userEsp - 32 }

variable {wr : Bool} {c c1 : Ctx}

theorem archSignalSetupFrame_framed {signum : Nat} {handler : UInt32}
    (h : archSignalSetupFrame wr c signum handler = some c1) : Framed c c1 := by
  unfold archSignalSetupFrame at h
  dsimp only at h
  split at h
  next hok =>
    cases h
    rw [Bool.and_eq_true] at hok
    have htop := (uaccessRangeOk_iff (by omega) (by omega)).mp hok.1
    have hlow : (c.regs.userEsp - 32).toNat + 32 = c.regs.userEsp.toNat := by
      have hlt := c.regs.userEsp.toNat_lt
      unfold userStackTop at htop
      rw [UInt32.toNat_sub] at htop ⊢
      change (2 ^ 32 - 32 + _) % 2 ^ 32 + 32 ≤ _ at htop
      change (2 ^ 32 - 32 + _) % 2 ^ 32 + 32 = _
      omega
    have hword : ∀ {off : Nat} {v : UInt32}, off + 4 ≤ 32 →
        le32 (signalFrame c.regs signum (c.regs.userEsp - 32)) off = v.toNat →
        UInt32.ofNat (le32 (memcpy c.mem (c.regs.userEsp - 32).toNat
          (signalFrame c.regs signum (c.regs.userEsp - 32)) 0 32)
          ((c.regs.userEsp - 32).toNat + off)) = v := by
      intro off v hoff hv
      rw [le32_memcpy hoff, hv, UInt32.ofNat_toNat]
    have hret := @hword 0 _ (by omega) signalFrame_ret
    refine ⟨hlow, by omega, hret,
      hword (by omega) signalFrame_eip, hword (by omega) signalFrame_eflags,
      hword (by omega) signalFrame_esp, ?_, ?_, handler, rfl⟩
    · intro i hi
      rw [Nat.add_assoc]
      refine (memcpy_add (by omega)).trans ?_
      rw [signalFrame_tramp (by omega), Nat.add_sub_cancel_left]
    · intro a ha
      exact memcpy_out (by omega)
  · cases h

/-! ## Delivery -/

/-- `c'` has the registers of `c` that a program can see change. -/
structure SameRegs (f f' : TrapFrame) : Prop where
  eip : f'.eip = f.eip
  esp : f'.userEsp = f.userEsp
  eflags : f'.eflags = f.eflags
  eax : f'.eax = f.eax
  ebx : f'.ebx = f.ebx
  ecx : f'.ecx = f.ecx
  edx : f'.edx = f.edx
  esi : f'.esi = f.esi
  edi : f'.edi = f.edi
  ebp : f'.ebp = f.ebp

theorem sameRegs_sanitize (tls : Bool) (f : TrapFrame) : SameRegs f (archTrapFrameSanitize tls f) := by
  unfold archTrapFrameSanitize
  split
  · exact ⟨rfl, rfl, rfl, rfl, rfl, rfl, rfl, rfl, rfl, rfl⟩
  split
  · exact ⟨rfl, rfl, rfl, rfl, rfl, rfl, rfl, rfl, rfl, rfl⟩
  · exact ⟨rfl, rfl, rfl, rfl, rfl, rfl, rfl, rfl, rfl, rfl⟩

/-- The context that `sched_signal_check` works on. -/
def Ctx.sanitized (c : Ctx) (p : SigProc) : Ctx :=
  { c with regs := archTrapFrameSanitize p.tls c.regs }

/-- What `sched_signal_check` does to a process that comes back from it: nothing, or it goes
to a handler. -/
theorem schedSignalCheck_cases {p p1 : SigProc} (h : schedSignalCheck wr p c = some (c1, p1)) :
    c1 = c.sanitized p ∨
      ∃ signum handler, archSignalSetupFrame wr (c.sanitized p) signum handler = some c1 := by
  have hdeliver : ∀ {q : SigProc} {signum : Nat} {handler : UInt32},
      deliver wr (c.sanitized p) q signum handler = some (c1, p1) →
      ∃ signum handler, archSignalSetupFrame wr (c.sanitized p) signum handler = some c1 := by
    intro q signum handler hd
    obtain ⟨c', hc', he⟩ := Option.map_eq_some_iff.mp hd
    exact ⟨signum, handler, by rw [hc', (Prod.mk.inj he).1]⟩
  have hsame : ∀ {q : SigProc}, some (c.sanitized p, q) = some (c1, p1) → c1 = c.sanitized p :=
    fun he => (Prod.mk.inj (Option.some.inj he)).1.symm
  change (if (c.sanitized p).regs.cs &&& 3 ≠ 3 then _ else _) = _ at h
  split at h
  · exact .inl (hsame h)
  split at h
  · cases h
  split at h
  · exact .inl (hsame h)
  next signum q _ =>
  unfold dispatch at h
  dsimp only at h
  split at h
  · exact .inl (hsame h)
  split at h
  · exact .inl (hsame h)
  split at h
  · split at h
    · exact .inr (hdeliver h)
    · exact .inl (hsame h)
  split at h
  · exact .inl (hsame h)
  split at h
  · split at h
    · cases h
    · exact .inl (hsame h)
  · exact .inr (hdeliver h)

/-- A signal is caught: the process goes on in a handler. -/
def Caught (wr : Bool) (p : SigProc) (c c1 : Ctx) (p1 : SigProc) : Prop :=
  schedSignalCheck wr p c = some (c1, p1) ∧
    ∃ signum handler, archSignalSetupFrame wr (c.sanitized p) signum handler = some c1

/-- No signal is there to be delivered. -/
def Quiet (p : SigProc) : Prop := p.groupExit = false ∧ p.take.1 = none

theorem schedSignalCheck_quiet {p : SigProc} (h : Quiet p) (c : Ctx) :
    ∃ p', schedSignalCheck wr p c = some (c.sanitized p, p') := by
  change ∃ p', (if (c.sanitized p).regs.cs &&& 3 ≠ 3 then _ else _) = _
  split
  · exact ⟨p, rfl⟩
  rw [if_neg (by simp [h.1])]
  rcases htake : p.take with ⟨_ | signum, q⟩
  · exact ⟨q, rfl⟩
  · rw [Quiet, htake] at h
    exact absurd h.2 (by simp)

/-! ## Handlers -/

/-- A handler entered at `c1` has returned, by the C calling convention: to the address that
was on the stack, with that address popped and the registers of the caller as they were. -/
structure HandlerReturned (c1 c2 : Ctx) : Prop where
  eip : c2.regs.eip = c1.word c1.regs.userEsp.toNat
  esp : c2.regs.userEsp = c1.regs.userEsp + 4
  ebx : c2.regs.ebx = c1.regs.ebx
  esi : c2.regs.esi = c1.regs.esi
  edi : c2.regs.edi = c1.regs.edi
  ebp : c2.regs.ebp = c1.regs.ebp

/-- A handler runs: code that leaves the stack from `top` on alone, in which signals may be
caught by handlers that run, return and come back. -/
inductive Runs : Nat → Ctx → Ctx → Prop where
  | code {top : Nat} {c c' : Ctx} (h : ∀ a, top ≤ a → c'.mem a = c.mem a) : Runs top c c'
  | signal {top : Nat} {wr : Bool} {p p1 : SigProc} {c c1 c2 c3 : Ctx}
      (hesp : c.regs.userEsp.toNat ≤ top) (hc : Caught wr p c c1 p1)
      (hrun : Runs (c1.regs.userEsp.toNat + 8) c1 c2) (hret : HandlerReturned c1 c2)
      (hback : comeBack true c2 = some c3) : Runs top c c3
  | trans {top : Nat} {c c' c'' : Ctx} : Runs top c c' → Runs top c' c'' → Runs top c c''

theorem comeBack_mem {rd : Bool} {c' : Ctx} (h : comeBack rd c = some c') : c'.mem = c.mem := by
  unfold comeBack stepMovEax stepInt80 syscallCaseSigreturn at h
  simp only [Option.bind_eq_bind, Option.bind_eq_some_iff, Option.ite_none_right_eq_some,
    Option.some.injEq, guard, Option.ite_none_right_eq_some] at h
  obtain ⟨_, ⟨-, rfl⟩, _, ⟨-, rfl⟩, _, -, _, ⟨-, rfl⟩, rfl⟩ := h
  rfl

theorem Caught.framed {p p1 : SigProc} (h : Caught wr p c c1 p1) : Framed (c.sanitized p) c1 := by
  obtain ⟨-, signum, handler, hframe⟩ := h
  exact archSignalSetupFrame_framed hframe

/-- What lies above a handler's arguments stays, whatever is caught while it runs. -/
theorem Runs.kept {top : Nat} {c' : Ctx} (h : Runs top c c') :
    ∀ a, top ≤ a → c'.mem a = c.mem a := by
  induction h with
  | code h => exact h
  | @signal top wr p p1 c c1 c2 c3 hesp hc hrun hret hback ih =>
    intro a ha
    have hf := hc.framed
    have hlow : c1.regs.userEsp.toNat + 32 = c.regs.userEsp.toNat :=
      hf.low.trans (congrArg UInt32.toNat (sameRegs_sanitize p.tls c.regs).esp)
    rw [comeBack_mem hback, ih a (by omega)]
    exact hf.out a (by have := hf.low; omega)
  | trans h h' ih ih' =>
    intro a ha
    rw [ih' a ha, ih a ha]

/-- The way back from a handler: the process has what the frame kept, zero in `eax`, and the
rest from the handler. -/
theorem comeBack_framed {c2 : Ctx} (hf : Framed c c1)
    (hkept : ∀ a, c1.regs.userEsp.toNat + 8 ≤ a → c2.mem a = c1.mem a) (hret : HandlerReturned c1 c2) :
    comeBack true c2 = some
      { c2 with
        regs :=
          { c2.regs with
            eip := c.regs.eip
            eflags := c.regs.eflags
            eax := 0
            userEsp := c.regs.userEsp } } := by
  have htop : c1.regs.userEsp.toNat + 32 ≤ userStackTop := hf.low ▸ hf.top
  have hlt : userStackTop = 0xC0000000 := rfl
  have heip : c2.regs.eip = c1.regs.userEsp + 24 := hret.eip.trans hf.ret
  have hnat : c2.regs.eip.toNat = c1.regs.userEsp.toNat + 24 := by
    rw [heip, UInt32.toNat_add]
    change (_ + 24) % 2 ^ 32 = _
    omega
  have hbyte : ∀ i < 8, c2.mem (c1.regs.userEsp.toNat + 24 + i) = tramp i := by
    intro i hi
    rw [hkept _ (by omega), hf.tramp i hi]
  have hword : ∀ off, 8 ≤ off → c2.word (c1.regs.userEsp.toNat + off) =
      c1.word (c1.regs.userEsp.toNat + off) := by
    intro off hoff
    unfold Ctx.word
    rw [le32_congr fun k hk => hkept _ (by omega)]
  -- the two instructions
  have hmov : stepMovEax c2 =
      some { c2 with regs := { c2.regs with eax := sysSigreturn, eip := c2.regs.eip + 5 } } := by
    have himm : c2.word (c1.regs.userEsp.toNat + 24 + 1) = sysSigreturn := by
      unfold Ctx.word le32
      rw [hbyte 1 (by omega), Nat.add_assoc _ 1 1, Nat.add_assoc _ 1 2, Nat.add_assoc _ 1 3,
        hbyte 2 (by omega), hbyte 3 (by omega), hbyte 4 (by omega)]
      rfl
    unfold stepMovEax
    rw [hnat, if_pos (show c2.mem (c1.regs.userEsp.toNat + 24) = 0xB8 from hbyte 0 (by omega)),
      himm]
  have hnat' : (c2.regs.eip + 5).toNat = c1.regs.userEsp.toNat + 24 + 5 := by
    rw [UInt32.toNat_add, hnat]
    change (_ + 5) % 2 ^ 32 = _
    omega
  have hesp : (c2.regs.userEsp - 4).toNat = c1.regs.userEsp.toNat := by
    rw [hret.esp, UInt32.add_sub_cancel]
  unfold comeBack
  rw [hmov]
  simp only [Option.bind_eq_bind, Option.bind_some, stepInt80, hnat']
  rw [if_pos ⟨hbyte 5 (by omega), by rw [Nat.add_assoc _ 5 1]; exact hbyte 6 (by omega)⟩]
  simp only [Option.bind_some, guard, if_true, syscallCaseSigreturn, hesp, Ctx.word]
  rw [(uaccessRangeOk_iff (by omega) (by omega)).mpr (by omega)]
  simp only [Bool.and_self, if_true, pure, Option.bind_some]
  have h8 := hword 8 (by omega)
  have h12 := hword 12 (by omega)
  have h20 := hword 20 (by omega)
  unfold Ctx.word at h8 h12 h20
  rw [h8, h12, h20]
  have e1 := hf.eip
  have e2 := hf.eflags
  have e3 := hf.esp
  unfold Ctx.word at e1 e2 e3
  rw [e1, e2, e3]

/-- A process comes back from a handler with the registers it had when the signal was
delivered, if and only if `eax` was zero and the handler gives back `ecx` and `edx`. -/
theorem signal_round_trip_iff {wr wr' : Bool} {p p1 p2 : SigProc} {c c1 c2 : Ctx}
    (hc : Caught wr p c c1 p1) (hrun : Runs (c1.regs.userEsp.toNat + 8) c1 c2)
    (hret : HandlerReturned c1 c2) (hq : Quiet p2) :
    ∃ c3 c4 p4, comeBack true c2 = some c3 ∧ schedSignalCheck wr' p2 c3 = some (c4, p4) ∧
      (SameRegs c.regs c4.regs ↔
        c.regs.eax = 0 ∧ c2.regs.ecx = c.regs.ecx ∧ c2.regs.edx = c.regs.edx) := by
  have hf := hc.framed
  have hsan := sameRegs_sanitize p.tls c.regs
  have hback := comeBack_framed hf hrun.kept hret
  obtain ⟨p4, hcheck⟩ : ∃ p', schedSignalCheck wr' p2 _ = some (Ctx.sanitized _ p2, p') :=
    schedSignalCheck_quiet hq
      { c2 with
        regs :=
          { c2.regs with
            eip := (c.sanitized p).regs.eip
            eflags := (c.sanitized p).regs.eflags
            eax := 0
            userEsp := (c.sanitized p).regs.userEsp } }
  refine ⟨_, _, p4, hback, hcheck, ?_⟩
  obtain ⟨handler, hregs⟩ := hf.regs
  have hfin := sameRegs_sanitize p2.tls
    { c2.regs with
      eip := (c.sanitized p).regs.eip
      eflags := (c.sanitized p).regs.eflags
      eax := 0
      userEsp := (c.sanitized p).regs.userEsp }
  constructor
  · intro hs
    exact ⟨hs.eax.symm.trans hfin.eax, hfin.ecx.symm.trans hs.ecx, hfin.edx.symm.trans hs.edx⟩
  · rintro ⟨heax, hecx, hedx⟩
    -- the callee-saved registers come back through the handler
    have hebx : c2.regs.ebx = c.regs.ebx := by rw [hret.ebx, hregs]; exact hsan.ebx
    have hesi : c2.regs.esi = c.regs.esi := by rw [hret.esi, hregs]; exact hsan.esi
    have hedi : c2.regs.edi = c.regs.edi := by rw [hret.edi, hregs]; exact hsan.edi
    have hebp : c2.regs.ebp = c.regs.ebp := by rw [hret.ebp, hregs]; exact hsan.ebp
    exact ⟨hfin.eip.trans hsan.eip, hfin.esp.trans hsan.esp, hfin.eflags.trans hsan.eflags,
      hfin.eax.trans heax.symm, hfin.ebx.trans hebx, hfin.ecx.trans hecx, hfin.edx.trans hedx,
      hfin.esi.trans hesi, hfin.edi.trans hedi, hfin.ebp.trans hebp⟩

/-! ## A handler that returns at once -/

/-- A process with `eax` in its register. -/
def interrupted (eax : UInt32) : Ctx where
  regs :=
    { gs := 0x23, fs := 0x23, es := 0x23, ds := 0x23, edi := 1, esi := 2, ebp := 3, ebx := 4
      edx := 5, ecx := 6, eax := eax, eip := 0x400000, cs := 0x1B, eflags := 0x202
      userEsp := 0xBFFFF000, userSs := 0x23 }
  mem := fun _ => 0

/-- `SIGINT` is pending and has a handler. -/
def sigintProc : SigProc where
  pending := fun i => i == 2
  blocked := fun _ => false
  groupPending := fun _ => false
  groupExit := false
  crash := none
  handlers := fun i => if i = 2 then 0x401000 else 0
  tls := false

/-- No signal is pending. -/
def idleProc : SigProc := { sigintProc with pending := fun _ => false }

/-- The handler is `ret`. -/
def plainReturn (c : Ctx) : Ctx :=
  { c with regs := { c.regs with eip := c.word c.regs.userEsp.toNat, userEsp := c.regs.userEsp + 4 } }

theorem plainReturn_returned (c : Ctx) : HandlerReturned c (plainReturn c) := ⟨rfl, rfl, rfl, rfl, rfl, rfl⟩

theorem interrupted_caught (eax : UInt32) :
    ∃ c1 p1, Caught true sigintProc (interrupted eax) c1 p1 ∧
      c1.regs.ecx = (interrupted eax).regs.ecx ∧ c1.regs.edx = (interrupted eax).regs.edx := by
  have hring : (interrupted eax).regs.cs &&& 3 = 3 := show (0x1B : UInt32) &&& 3 = 3 by decide
  have hgs : ¬ (!sigintProc.tls && ((interrupted eax).regs.gs &&& 0xFFFF == 0x3B)) = true :=
    show ¬ (!false && ((0x23 : UInt32) &&& 0xFFFF == 0x3B)) = true by decide
  have hsan : (interrupted eax).sanitized sigintProc = interrupted eax := by
    unfold Ctx.sanitized archTrapFrameSanitize
    rw [if_neg (by simp [hring]), if_neg hgs]
  have hrange : uaccessRangeOk ((0xBFFFF000 : UInt32) - 32).toNat 32 = true := by decide
  obtain ⟨c1, hframe⟩ : ∃ c1,
      archSignalSetupFrame true ((interrupted eax).sanitized sigintProc) 2 0x401000 = some c1 := by
    rw [hsan]
    exact ⟨_, if_pos (by rw [Bool.and_true]; exact hrange)⟩
  have hcheck : schedSignalCheck true sigintProc (interrupted eax) =
      (archSignalSetupFrame true ((interrupted eax).sanitized sigintProc) 2 0x401000).map
        fun c => (c, { sigintProc with pending := update sigintProc.pending 2 false }) := by
    change (if ((interrupted eax).sanitized sigintProc).regs.cs &&& 3 ≠ 3 then _ else _) = _
    rw [if_neg (by rw [hsan]; simp [hring])]
    rfl
  obtain ⟨handler, hregs⟩ := (archSignalSetupFrame_framed hframe).regs
  rw [hframe, Option.map_some] at hcheck
  refine ⟨c1, _, ⟨hcheck, 2, 0x401000, hframe⟩, ?_, ?_⟩
  · rw [hregs, hsan]
  · rw [hregs, hsan]

theorem signal_round_trip_zero :
    ∃ c1 p1 c3 c4 p4, Caught true sigintProc (interrupted 0) c1 p1 ∧
      comeBack true (plainReturn c1) = some c3 ∧
      schedSignalCheck true idleProc c3 = some (c4, p4) ∧
      SameRegs (interrupted 0).regs c4.regs := by
  obtain ⟨c1, p1, hc, hecx, hedx⟩ := interrupted_caught 0
  have hrun : Runs (c1.regs.userEsp.toNat + 8) c1 (plainReturn c1) := Runs.code fun _ _ => rfl
  have hquiet : Quiet idleProc := ⟨rfl, rfl⟩
  obtain ⟨c3, c4, p4, hback, hcheck, hiff⟩ :=
    signal_round_trip_iff hc hrun (plainReturn_returned c1) hquiet
  exact ⟨c1, p1, c3, c4, p4, hc, hback, hcheck, hiff.mpr ⟨rfl, hecx, hedx⟩⟩

/-- With 7 in `eax` when the signal came, zero is there when the process goes on. -/
theorem signal_loses_eax :
    ∃ c1 p1 c3, Caught true sigintProc (interrupted 7) c1 p1 ∧
      Runs (c1.regs.userEsp.toNat + 8) c1 (plainReturn c1) ∧ HandlerReturned c1 (plainReturn c1) ∧
      comeBack true (plainReturn c1) = some c3 ∧
      (interrupted 7).regs.eax = 7 ∧ c3.regs.eax = 0 := by
  obtain ⟨c1, p1, hc, -, -⟩ := interrupted_caught 7
  exact ⟨c1, p1, _, hc, Runs.code fun _ _ => rfl, plainReturn_returned c1,
    comeBack_framed hc.framed (fun _ _ => rfl) (plainReturn_returned c1), rfl, rfl⟩

end Drunix.Proc
