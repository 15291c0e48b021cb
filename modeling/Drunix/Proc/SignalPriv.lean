import Drunix.Proc.Signal
import Drunix.Lib.Loop

/-!
# What a process may make of its flags

The saved frame of a process decides what it may do when it is back in ring 3: the rings of
its selectors, and in `eflags` the I/O privilege level, `VM`, `NT` and `IF`. A frame is made
for a new process and by `execve` (`arch_x86_build_launch_isr_frame`), copied for a child
(`arch_process_clone_frame`), written by the end of a system call, by the delivery of a signal
and by `sigreturn`; and the process itself changes the registers that the next trap saves.

`sigreturn` takes the flags from a word of the user's stack as it is. `frames_unprivileged`:
in every run in which those words have the privileged bits right, and in which the process
does not set `NT` by itself, every saved frame has them right. `sigreturn_gives_iopl` is a run
in which the word has an I/O privilege level of 3.

Mirroring notes:
- A run follows one process; `child` goes on with the child of a `fork` or `clone`.
- `cpuFlags` is what the processor lets ring 3 do to `eflags`: `IF` is for those who have the
  I/O privilege, `IOPL` and `VM` are for ring 0, and the rest, `NT` included, is free.
- What a system call does to the memory and to the signals of the process is left open.
-/

namespace Drunix.Proc

open Lib

/-- `arch_x86_build_launch_isr_frame`. -/
def archX86BuildLaunchIsrFrame (entry userStack : UInt32) : TrapFrame :=
  { gs := 0x23, fs := 0x23, es := 0x23, ds := 0x23, edi := 0, esi := 0, ebp := 0, ebx := 0
    edx := 0, ecx := 0, eax := 0, eip := entry, cs := 0x1B, eflags := 0x202, userEsp := userStack
    userSs := 0x23 }

/-- `arch_process_clone_frame`, for a parent that has a kernel stack. -/
def archProcessCloneFrame (parent : TrapFrame) (childStack : UInt32) : TrapFrame :=
  { parent with eax := 0, userEsp := if childStack ≠ 0 then childStack else parent.userEsp }

/-- `IOPL`. -/
def eflIopl : UInt32 := 0x3000

/-- `IOPL`, `VM`, `NT` and `IF`. -/
def eflPrivileged : UInt32 := 0x27200

/-- The bits of `eflags` that ring 3 cannot change. -/
def cpuKept (old : UInt32) : UInt32 := if old &&& eflIopl = eflIopl then 0x23000 else 0x23200

/-- The flags after ring 3 has asked for `new`. -/
def cpuFlags (old new : UInt32) : UInt32 := (new &&& ~~~cpuKept old) ||| (old &&& cpuKept old)

/-- The registers after ring 3 has asked for `new`. -/
def cpuRegs (old new : TrapFrame) : TrapFrame :=
  { new with
    cs := new.cs ||| 3
    userSs := new.userSs ||| 3
    eflags := cpuFlags old.eflags new.eflags }

/-- What happens to a process. -/
inductive FrameOp where
  | user (regs : TrapFrame) (mem : Buf)
  | interrupt (wr : Bool) (p : SigProc)
  | syscall (ret : UInt32) (mem : Buf) (wr : Bool) (p : SigProc)
  | sigreturn (rd wr : Bool) (p : SigProc)
  | child (stack : UInt32)
  | execve (entry stack : UInt32) (mem : Buf)

/-- A frame goes through `sched_signal_check` on its way out. -/
def leaveKernel (wr : Bool) (p : SigProc) (c : Ctx) : Option Ctx :=
  (schedSignalCheck wr p c).map (·.1)

/-- One step of a process that exists. -/
def frameStep (c : Ctx) : FrameOp → Option Ctx
  | .user regs mem => some { regs := cpuRegs c.regs regs, mem := mem }
  | .interrupt wr p => leaveKernel wr p c
  | .syscall ret mem wr p => leaveKernel wr p { regs := { c.regs with eax := ret }, mem := mem }
  | .sigreturn rd wr p =>
    (syscallCaseSigreturn rd c).bind fun r =>
      leaveKernel wr p { r.2 with regs := { r.2.regs with eax := r.1 } }
  | .child stack => some { c with regs := archProcessCloneFrame c.regs stack }
  | .execve entry stack mem => some { regs := archX86BuildLaunchIsrFrame entry stack, mem := mem }

/-- One step; `none` is a process that is gone. -/
def privStep (s : Option Ctx) (op : FrameOp) : Option Ctx := s.bind fun c => frameStep c op

/-- A frame with ring-3 selectors and without privilege in its flags. -/
structure Unprivileged (f : TrapFrame) : Prop where
  code : f.cs &&& 3 = 3
  stack : f.userSs &&& 3 = 3
  flags : f.eflags &&& eflPrivileged = 0x200

/-- The flags that `sigreturn` is about to take. -/
def sigreturnFlags (c : Ctx) : UInt32 := c.word ((c.regs.userEsp - 4).toNat + 12)

/-- The process does not set `NT`, and gives `sigreturn` flags with the privileged bits
right. -/
def FlagsOk (s : Option Ctx) : FrameOp → Prop
  | .user regs _ => regs.eflags &&& 0x4000 = 0
  | .sigreturn _ _ _ => ∀ c, s = some c → sigreturnFlags c &&& eflPrivileged = 0x200
  | _ => True

/-! ## Bits -/

theorem or_and_u32 (a b m : UInt32) : (a ||| b) &&& m = (a &&& m) ||| (b &&& m) := by
  apply UInt32.toBitVec_inj.mp
  ext i
  simp [Bool.and_or_distrib_right]

theorem or_three_and_three (a : UInt32) : (a ||| 3) &&& 3 = 3 := by
  rw [or_and_u32]
  apply UInt32.toBitVec_inj.mp
  ext i
  simp

/-- Ring 3 without the I/O privilege keeps the privileged bits, but for `NT`. -/
theorem cpuFlags_privileged {old new : UInt32} (hold : old &&& eflPrivileged = 0x200)
    (hnew : new &&& 0x4000 = 0) : cpuFlags old new &&& eflPrivileged = 0x200 := by
  have hsub : ∀ m, eflPrivileged &&& m = m → old &&& m = 0x200 &&& m := by
    intro m hm
    rw [← hm, ← UInt32.and_assoc, hold, ← UInt32.and_assoc]
    rfl
  have hiopl : old &&& eflIopl ≠ eflIopl := by
    rw [hsub eflIopl (by decide)]
    decide
  have hkept : cpuKept old = 0x23200 := if_neg hiopl
  unfold cpuFlags
  rw [hkept, or_and_u32, UInt32.and_assoc, UInt32.and_assoc,
    show (~~~(0x23200 : UInt32)) &&& eflPrivileged = 0x4000 by decide, hnew,
    show (0x23200 : UInt32) &&& eflPrivileged = 0x23200 by decide, hsub 0x23200 (by decide)]
  decide

/-! ## Runs -/

section Runs

variable {c c' : Ctx}

theorem Unprivileged.congr {f f' : TrapFrame} (h : Unprivileged f) (hcs : f'.cs = f.cs)
    (hss : f'.userSs = f.userSs) (hfl : f'.eflags = f.eflags) : Unprivileged f' :=
  ⟨hcs ▸ h.code, hss ▸ h.stack, hfl ▸ h.flags⟩

theorem Unprivileged.sanitized (h : Unprivileged c.regs) (p : SigProc) :
    Unprivileged (c.sanitized p).regs := by
  show Unprivileged (archTrapFrameSanitize p.tls c.regs)
  unfold archTrapFrameSanitize
  split
  · exact h
  split
  · exact h.congr rfl rfl rfl
  · exact h

/-- Signals do not touch the flags. -/
theorem Unprivileged.leaveKernel (h : Unprivileged c.regs) {wr : Bool} {p : SigProc}
    (hl : leaveKernel wr p c = some c') : Unprivileged c'.regs := by
  obtain ⟨⟨c1, p1⟩, hcheck, rfl⟩ := Option.map_eq_some_iff.mp hl
  rcases schedSignalCheck_cases hcheck with rfl | ⟨signum, handler, hframe⟩
  · exact h.sanitized p
  · obtain ⟨handler, hregs⟩ := (archSignalSetupFrame_framed hframe).regs
    rw [hregs]
    exact (h.sanitized p).congr rfl rfl rfl

theorem Unprivileged.launch (entry stack : UInt32) :
    Unprivileged (archX86BuildLaunchIsrFrame entry stack) :=
  ⟨show (0x1B : UInt32) &&& 3 = 3 by decide, show (0x23 : UInt32) &&& 3 = 3 by decide,
    show (0x202 : UInt32) &&& eflPrivileged = 0x200 by decide⟩

/-- One step. -/
theorem Unprivileged.step (h : Unprivileged c.regs) {op : FrameOp} (hok : FlagsOk (some c) op)
    (hs : frameStep c op = some c') : Unprivileged c'.regs := by
  cases op with
  | user regs mem =>
    cases hs
    exact ⟨or_three_and_three _, or_three_and_three _, cpuFlags_privileged h.flags hok⟩
  | interrupt wr p => exact h.leaveKernel hs
  | syscall ret mem wr p =>
    have h' : Unprivileged { c.regs with eax := ret } := h.congr rfl rfl rfl
    exact Unprivileged.leaveKernel h' hs
  | sigreturn rd wr p =>
    obtain ⟨⟨ret, c1⟩, hret, hl⟩ := Option.bind_eq_some_iff.mp hs
    unfold syscallCaseSigreturn at hret
    dsimp only at hret
    split at hret
    · cases hret
      refine Unprivileged.leaveKernel ?_ hl
      exact ⟨h.code, h.stack, hok c rfl⟩
    · cases hret
  | child stack =>
    cases hs
    exact h.congr rfl rfl rfl
  | execve entry stack mem =>
    cases hs
    exact Unprivileged.launch entry stack

/-- In every run from the start of a process, the saved frame has ring-3 selectors and no
privilege in its flags. -/
theorem frames_unprivileged (entry stack : UInt32) (mem : Buf) (s : Option Ctx)
    (h : Reach privStep FlagsOk (some ⟨archX86BuildLaunchIsrFrame entry stack, mem⟩) s) (c : Ctx)
    (hc : s = some c) : Unprivileged c.regs := by
  have hinv : ∀ c, s = some c → Unprivileged c.regs := by
    refine h.inv (fun s => ∀ c, s = some c → Unprivileged c.regs) ?_ ?_
    · intro c hc
      cases hc
      exact Unprivileged.launch entry stack
    · intro s op hs hok c' hc'
      obtain ⟨c, rfl, hstep⟩ := Option.bind_eq_some_iff.mp hc'
      exact (hs c rfl).step hok hstep
  exact hinv c hc

end Runs

/-! ## A frame of the process's own making -/

/-- A process as it is started. -/
def launched : Option Ctx := some ⟨archX86BuildLaunchIsrFrame 0x400000 0xBFFFF000, fun _ => 0⟩

/-- The process puts `flags` where `sigreturn` looks for them. -/
def forge (flags : Nat) : FrameOp :=
  .user { archX86BuildLaunchIsrFrame 0x400010 0xBFFFF000 with eax := sysSigreturn }
    (putLe32 (fun _ => 0) 0xBFFFF008 flags)

/-- The process calls `sigreturn` on that frame. -/
def forged (flags : Nat) : Option Ctx :=
  privStep (privStep launched (forge flags)) (.sigreturn true true idleProc)

/-- A frame with the flags that the process has anyway. -/
theorem frames_unprivileged_forged :
    ∃ c, forged 0x202 = some c ∧ Unprivileged c.regs := by
  have hsome : (forged 0x202).isSome = true := by decide +kernel
  obtain ⟨c, hc⟩ := Option.isSome_iff_exists.mp hsome
  refine ⟨c, hc, frames_unprivileged 0x400000 0xBFFFF000 (fun _ => 0) (forged 0x202) ?_ c hc⟩
  refine Reach.step (FrameOp.sigreturn true true idleProc)
    (Reach.step (forge 0x202) Reach.start ?_) ?_
  · show (0x202 : UInt32) &&& 0x4000 = 0
    decide
  · intro c hc
    cases hc
    decide +kernel

/-- Flags with an I/O privilege level of 3 are taken as they are. -/
theorem sigreturn_gives_iopl :
    (privStep launched (forge 0x3202)).map (fun c => c.regs.eflags &&& eflIopl) = some 0 ∧
    (forged 0x3202).map (fun c => c.regs.eflags &&& eflIopl) = some 0x3000 := by
  decide +kernel

end Drunix.Proc
