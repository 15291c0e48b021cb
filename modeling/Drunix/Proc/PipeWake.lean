import Drunix.Proc.Pipe

/-!
# Wake-ups on pipes

Readers and writers of a pipe sleep on one queue. `pipe_no_lost_wakeup`: nobody sleeps in a
read call while the pipe has bytes or no writer, nor in a write call while it has room or no
reader, in every run in which a write call that stores bytes while a reader sleeps can store
all it has left: there is room, and its buffer can be read to the end. A write call that cannot
leaves without `sched_wake_all`, asleep itself or with a short count, and the reader sleeps on
(`full_pipe_and_reader_asleep`).
-/

namespace Drunix.Proc

open Lib Function

/-! ## Writes that fit -/

/-- The pipe has room for what is left of a buffer that can be read. -/
structure WriteState.Room (env : Env) (s : WriteState) : Prop where
  fits : s.pipe.count + (s.writer.buf.length - s.writer.copied) ≤ pipeBufSize
  word : s.writer.buf.length < 4294967296
  buffer : env.Buffer s.writer.addr s.writer.buf.length

variable {env : Env} {s t : WriteState}

theorem WriteState.Room.stored {bytes : List UInt8} (h : s.Room env) (hst : Stored s t bytes)
    (hok : t.Ok) : t.Room env := by
  have hfits := h.fits
  have hcount := hst.count
  have hcopied := hst.copied
  have hle := hok.writer.le
  rw [hst.buf] at hle
  refine ⟨?_, hst.buf ▸ h.word, ?_⟩ <;> rw [hst.buf]
  · omega
  · rw [hst.addr]
    exact h.buffer

theorem writeLoop_fits {fuel : Nat} (h : s.Ok)
    (hfuel : s.writer.buf.length - s.writer.copied < fuel) (hroom : s.Room env) :
    ∃ r, (writeLoop env fuel s).1 = .wake r := by
  induction fuel generalizing s with
  | zero => omega
  | succ fuel ih =>
    by_cases hmore : s.writer.copied < s.writer.buf.length
    · generalize hchunk : min (s.writer.buf.length - s.writer.copied) userIoChunk = chunk
      have hpos : 0 < chunk := by
        rw [← hchunk]
        exact Nat.lt_min.mpr ⟨by omega, by decide⟩
      have hprep := hroom.buffer.part (show s.writer.copied + chunk ≤ _ by omega) hroom.word
      rcases hstore : storeLoop env (s.load chunk).writer.kbuf (s.load chunk) with ⟨stop, t⟩
      have hspec := storeLoop_spec env (WriteState.load_ok h chunk) rfl
      rw [hstore] at hspec
      obtain ⟨⟨bytes, hst⟩, hok, hstop, hnone⟩ := hspec
      have hlen : (s.load chunk).writer.kbuf.length = chunk := by
        simp only [WriteState.load, List.length_take, List.length_drop]
        omega
      have hfits := hroom.fits
      have hnone := hnone (by rw [hlen]; show s.pipe.count + chunk ≤ _; omega)
      obtain rfl : stop = none := hnone
      rw [writeLoop_round hmore hchunk hprep hstore]
      refine ih hok ?_ (WriteState.Room.stored (s := s.load chunk) ⟨hfits, hroom.word, hroom.buffer⟩
        hst hok)
      have hcopied : t.writer.copied = s.writer.copied + chunk := by
        rw [← hlen]
        exact hstop
      have hbuf : t.writer.buf = s.writer.buf := hst.buf
      rw [hbuf]
      omega
    · simp only [writeLoop, if_neg hmore]
      exact ⟨_, rfl⟩

/-- A run that has room for all that is left ends with `sched_wake_all`. -/
theorem writeRun_fits (h : s.Ok) (hroom : s.Room env) : ∃ r, (writeRun env s).1 = .wake r := by
  unfold writeRun
  obtain ⟨⟨bytes, hst⟩, hok, hstop, hnone⟩ := storeLoop_spec env h rfl
  have hkbuf := h.writer.next.length_le
  rw [List.length_drop] at hkbuf
  have hfits := hroom.fits
  have hnone := hnone (by omega)
  generalize storeLoop env s.writer.kbuf s = r at hst hok hstop hnone
  obtain ⟨_ | stop, t⟩ := r
  · exact writeLoop_fits hok (Nat.lt_succ_of_le (Nat.sub_le _ _)) (hroom.stored hst hok)
  · cases hnone

/-! ## Who sleeps -/

/-- The call waits for what is not there. -/
def Call.Waits (pipe : PipeBuf) : Call → Prop
  | .reading _ _ => pipe.count = 0 ∧ pipe.writeOpen ≠ 0
  | .writing _ => pipe.count = pipeBufSize ∧ pipe.readOpen ≠ 0

/-- Nobody sleeps who could go on. -/
def NoLostWakeup (s : PipeSys) : Prop :=
  ∀ p ∈ s.waiters, ∃ c, s.calls p = some c ∧ c.Waits s.pipe

/-- A reader sleeps. -/
def ReaderSleeps (s : PipeSys) : Prop :=
  ∃ p ∈ s.waiters, ∃ addr count, s.calls p = some (.reading addr count)

/-- A write call that runs while a reader sleeps can store all it has left. -/
def PipeOp.Fits (s : PipeSys) : PipeOp → Prop
  | .write _ addr buf env => ReaderSleeps s →
      s.pipe.count + buf.length ≤ pipeBufSize ∧ env.Whole addr buf.length
  | .resume p env => ∀ w, s.calls p = some (.writing w) → ReaderSleeps s →
      s.pipe.count + (w.buf.length - w.copied) ≤ pipeBufSize ∧ env.Buffer w.addr w.buf.length
  | _ => True

structure WakeInv (s : PipeSys) : Prop where
  awake : NoLostWakeup s
  word : ∀ p w, s.calls p = some (.writing w) → w.buf.length < 4294967296
  freed : s.pipe.inUse = false → s.pipe.readOpen = 0 ∧ s.pipe.writeOpen = 0

variable {p : Nat} {s : PipeSys}

/-- Who sleeps is not the one that runs. -/
theorem calls_of_sleeper {q : Nat} (hp : p ∉ s.waiters) (hq : q ∈ s.waiters)
    (c : Option Call) : update s.calls p c q = s.calls q :=
  update_of_ne (fun hqp : q = p => hp (hqp ▸ hq)) _ _

/-- The run of a write call: it wakes everybody if a reader sleeps, or stores nothing. -/
def WakesReaders (s : PipeSys) (r : Stop × WriteState) : Prop :=
  ReaderSleeps s → (∃ n, r.1 = .wake n) ∨ r.2.pipe = s.pipe

variable {r : Stop × WriteState} {w : Writer}

/-- A run of a write call that does not wake anybody leaves the sleepers what they wait for:
writers sleep at a full pipe, so that nothing was stored. -/
theorem WriteSpec.keeps_sleepers
    (hspec : WriteSpec ⟨s.pipe, w, s.log⟩ r) (h : NoLostWakeup s) (hfits : WakesReaders s r)
    (hstop : ∀ n, r.1 ≠ .wake n) :
    ∀ q ∈ s.waiters, ∃ c, s.calls q = some c ∧ c.Waits r.2.pipe := by
  intro q hq
  obtain ⟨c, hc, hwaits⟩ := h q hq
  refine ⟨c, hc, ?_⟩
  cases c with
  | reading addr count =>
    rcases hfits ⟨q, hq, addr, count, hc⟩ with ⟨n, hn⟩ | hpipe
    · exact absurd hn (hstop n)
    · rw [hpipe]
      exact hwaits
  | writing v =>
    obtain ⟨bytes, hst⟩ := hspec.stored
    have hcount : r.2.pipe.count = s.pipe.count + bytes.length := hst.count
    have hfull : s.pipe.count = pipeBufSize := hwaits.1
    have hle := hspec.ok.ring.le
    exact ⟨by omega, hst.readOpen ▸ hwaits.2⟩

theorem NoLostWakeup.endWrite
    (h : NoLostWakeup s) (hp : p ∉ s.waiters) (hspec : WriteSpec ⟨s.pipe, w, s.log⟩ r)
    (hfits : WakesReaders s r) : NoLostWakeup (s.endWrite p r) := by
  have hkeep := hspec.keeps_sleepers h hfits
  obtain ⟨stop, t⟩ := r
  cases stop with
  | wake n =>
    intro q hq
    exact absurd hq List.not_mem_nil
  | ret n =>
    intro q hq
    obtain ⟨c, hc, hwaits⟩ := hkeep (by simp) q hq
    exact ⟨c, (calls_of_sleeper hp hq _).trans hc, hwaits⟩
  | block =>
    intro q hq
    rcases List.mem_append.mp hq with hq | hq
    · obtain ⟨c, hc, hwaits⟩ := hkeep (by simp) q hq
      exact ⟨c, (calls_of_sleeper hp hq _).trans hc, hwaits⟩
    · rw [List.mem_singleton.mp hq]
      exact ⟨.writing t.writer, update_self .., hspec.ended⟩

theorem NoLostWakeup.endRead {addr count : Nat} {r : Stop × ReadState}
    (h : NoLostWakeup s) (hp : p ∉ s.waiters) (hspec : ReadSpec s.pipe r) :
    NoLostWakeup (s.endRead p addr count r) := by
  obtain ⟨stop, t⟩ := r
  have hended := hspec.ended
  cases stop with
  | wake n =>
    intro q hq
    exact absurd hq List.not_mem_nil
  | ret n =>
    have hpipe : t.pipe = s.pipe := hended
    intro q hq
    obtain ⟨c, hc, hwaits⟩ := h q hq
    exact ⟨c, (calls_of_sleeper hp hq _).trans hc, show c.Waits t.pipe from hpipe ▸ hwaits⟩
  | block =>
    obtain ⟨hpipe, hempty⟩ : t.pipe = s.pipe ∧ _ := hended
    intro q hq
    rcases List.mem_append.mp hq with hq | hq
    · obtain ⟨c, hc, hwaits⟩ := h q hq
      exact ⟨c, (calls_of_sleeper hp hq _).trans hc, show c.Waits t.pipe from hpipe ▸ hwaits⟩
    · rw [List.mem_singleton.mp hq]
      exact ⟨.reading addr count, update_self ..,
        show t.pipe.count = 0 ∧ t.pipe.writeOpen ≠ 0 from hpipe ▸ hempty⟩

theorem WakeInv.start : WakeInv pipeStart where
  awake := fun _ hp => absurd hp List.not_mem_nil
  word := fun _ _ hw => absurd hw (by simp [pipeStart])
  freed := fun _ => ⟨rfl, rfl⟩

theorem WakeInv.endWrite (h : WakeInv s) (hp : p ∉ s.waiters) (hword : w.buf.length < 4294967296)
    (hspec : WriteSpec ⟨s.pipe, w, s.log⟩ r) (hfits : WakesReaders s r) :
    WakeInv (s.endWrite p r) := by
  have hawake := h.awake.endWrite hp hspec hfits
  obtain ⟨stop, t⟩ := r
  obtain ⟨⟨bytes, hst⟩, -, -⟩ := hspec
  refine ⟨hawake, fun q v hq => ?_, ?_⟩
  · have hend := endWrite_end s p stop t
    by_cases hqp : q = p
    · subst hqp
      cases (hend.self hq).1
      exact hst.buf ▸ hword
    · rw [hend.calls_of_ne hqp] at hq
      exact h.word q v hq
  · rw [(endWrite_kept s p stop t).1, hst.inUse, hst.readOpen, hst.writeOpen]
    exact h.freed

theorem WakeInv.endRead {addr count : Nat} {r : Stop × ReadState}
    (h : WakeInv s) (hp : p ∉ s.waiters) (hspec : ReadSpec s.pipe r) :
    WakeInv (s.endRead p addr count r) := by
  have hawake : NoLostWakeup (s.endRead p addr count r) := h.awake.endRead hp hspec
  obtain ⟨stop, t⟩ := r
  refine ⟨hawake, fun q v hq => ?_, ?_⟩
  · by_cases hqp : q = p
    · subst hqp
      cases stop <;> simp [PipeSys.endRead, update_self] at hq
    · refine h.word q v ?_
      cases stop <;> simpa [PipeSys.endRead, update_of_ne hqp] using hq
  · have hopen : t.pipe.inUse = false → t.pipe.readOpen = 0 ∧ t.pipe.writeOpen = 0 := by
      rw [hspec.inUse, hspec.readOpen, hspec.writeOpen]
      exact h.freed
    cases stop <;> exact hopen

/-- Closing an end wakes everybody, and frees the slot with the last one. -/
theorem WakeInv.closed (h : WakeInv s) (pipe : PipeBuf) : WakeInv (s.closed pipe) where
  awake := fun _ hp => absurd hp List.not_mem_nil
  word := h.word
  freed := fun hfree => by
    simp only [PipeSys.closed, decide_eq_false_iff_not, not_or, not_not] at hfree
    exact hfree

theorem WakeInv.step {op : PipeOp} (hinv : PipeInv s) (h : WakeInv s)
    (hok : op.Allowed s) (hreads : op.Delivers s) (hfits : op.Fits s) :
    WakeInv (pipeStep s op) := by
  have hring := hinv.fifo.ring
  -- a process that makes no call does not sleep
  have hidle : ∀ p, s.calls p = none → p ∉ s.waiters := fun p hp hmem => by
    obtain ⟨c, hc, -⟩ := h.awake p hmem
    rw [hp] at hc
    cases hc
  cases op with
  | write p addr buf env =>
    obtain ⟨hcall, hword⟩ := hok
    have hmine := (hinv.fresh p addr buf).2
    have hstart : WriteState.Ok ⟨s.pipe, ⟨s.nextId, addr, buf, 0, []⟩, s.log⟩ := ⟨hring, hmine.ok⟩
    have h' : WakeInv { s with nextId := s.nextId + 1 } := ⟨h.awake, h.word, h.freed⟩
    unfold pipeStep
    dsimp only
    split
    · refine h'.endWrite (hidle p hcall) hword ⟨⟨[], Stored.refl _⟩, hstart, ?_⟩ fun _ => .inr rfl
      exact .inr ⟨rfl, by decide⟩
    · next hrefused =>
      refine h'.endWrite (hidle p hcall) hword (writeRun_spec hstart) fun hreader => .inl ?_
      obtain ⟨hroom, hwhole⟩ := hfits hreader
      refine writeRun_fits hstart ⟨hroom, hword, hwhole ?_⟩
      simp only [writeRefused, Bool.or_eq_true, Bool.not_eq_true', not_or] at hrefused
      simpa using hrefused.2
  | read p addr count env =>
    unfold pipeStep
    dsimp only
    split
    · exact h.endRead (hidle p hok) (readRun_spec hring hreads)
    · exact h
  | resume p env =>
    unfold pipeStep
    dsimp only
    split
    · next w hw =>
      have hstart : WriteState.Ok ⟨s.pipe, w, s.log⟩ := ⟨hring, (hinv.mine p w hw).ok⟩
      have hword := h.word p w hw
      refine h.endWrite hok.2 hword (writeRun_spec hstart) fun hreader => .inl ?_
      obtain ⟨hroom, hbuffer⟩ := hfits w hw hreader
      exact writeRun_fits hstart ⟨hroom, hword, hbuffer⟩
    · next addr count hcall => exact h.endRead hok.2 (readRun_spec hring (hreads addr count hcall))
    · exact h
  | ready p =>
    exact ⟨fun q hq => h.awake q (List.mem_of_mem_filter hq), h.word, h.freed⟩
  | openRead | openWrite =>
    unfold pipeStep
    dsimp only
    split
    · next huse =>
      refine ⟨fun q hq => ?_, h.word, fun hfree => absurd (huse.symm.trans hfree) (by simp)⟩
      obtain ⟨c, hc, hwaits⟩ := h.awake q hq
      refine ⟨c, hc, ?_⟩
      cases c <;> exact ⟨hwaits.1, by first | exact hwaits.2 | exact Nat.succ_ne_zero _⟩
    · exact h
  | closeRead | closeWrite =>
    unfold pipeStep
    dsimp only
    split
    · exact h.closed _
    · exact h
  | alloc =>
    exact ⟨fun q hq => absurd hq List.not_mem_nil, h.word, fun hfree => absurd hfree
      (show ¬ true = false by simp)⟩

/-- Nobody sleeps who could go on, and nobody sleeps at a slot that is free for
`pipe_alloc`. -/
theorem pipe_no_lost_wakeup {s : PipeSys}
    (h : Reach pipeStep (fun s op => op.Allowed s ∧ op.Delivers s ∧ op.Fits s) pipeStart s) :
    (∀ p ∈ s.waiters,
      (∃ addr count, s.calls p = some (.reading addr count) ∧ s.pipe.count = 0 ∧
        s.pipe.writeOpen ≠ 0) ∨
      ∃ w, s.calls p = some (.writing w) ∧ s.pipe.count = pipeBufSize ∧ s.pipe.readOpen ≠ 0) ∧
      (s.pipe.inUse = false → s.waiters = []) := by
  obtain ⟨-, hwake⟩ := h.inv (fun s => PipeInv s ∧ WakeInv s) ⟨PipeInv.start, WakeInv.start⟩
    fun _ _ hs hop => ⟨hs.1.step hop.2.1, hs.2.step hs.1 hop.1 hop.2.1 hop.2.2⟩
  have hsleep : ∀ p ∈ s.waiters,
      (∃ addr count, s.calls p = some (.reading addr count) ∧ s.pipe.count = 0 ∧
        s.pipe.writeOpen ≠ 0) ∨
      ∃ w, s.calls p = some (.writing w) ∧ s.pipe.count = pipeBufSize ∧ s.pipe.readOpen ≠ 0 := by
    intro p hp
    obtain ⟨c, hc, hwaits⟩ := hwake.awake p hp
    cases c with
    | reading addr count => exact .inl ⟨addr, count, hc, hwaits⟩
    | writing w => exact .inr ⟨w, hc, hwaits⟩
  refine ⟨hsleep, fun hfree => List.eq_nil_iff_forall_not_mem.mpr fun p hp => ?_⟩
  obtain ⟨hread, hwrite⟩ := hwake.freed hfree
  rcases hsleep p hp with ⟨_, _, _, _, hopen⟩ | ⟨_, _, _, hopen⟩
  · exact hopen hwrite
  · exact hopen hread

/-- A reader sleeps at the empty pipe. -/
def readerAsleep : PipeSys :=
  pipeStep (pipeStep pipeStart .alloc) (.read 1 0x1000 1 plainEnv)

theorem pipe_no_lost_wakeup_reader_asleep :
    readerAsleep.waiters = [1] ∧ ∀ p ∈ readerAsleep.waiters,
      (∃ addr count, readerAsleep.calls p = some (.reading addr count) ∧
        readerAsleep.pipe.count = 0 ∧ readerAsleep.pipe.writeOpen ≠ 0) ∨
      ∃ w, readerAsleep.calls p = some (.writing w) ∧ readerAsleep.pipe.count = pipeBufSize ∧
        readerAsleep.pipe.readOpen ≠ 0 :=
  ⟨rfl, (pipe_no_lost_wakeup (.step (PipeOp.read 1 0x1000 1 plainEnv)
    (.step PipeOp.alloc .start ⟨rfl, trivial, trivial⟩) ⟨rfl, plainEnv_whole, trivial⟩)).1⟩

/-- Then another process writes one byte more than the pipe holds. -/
def bothAsleep : PipeSys :=
  pipeStep readerAsleep (.write 2 0x1000 (List.replicate 4097 0) plainEnv)

/-- The pipe is full, the writer sleeps, and so does the reader still. -/
theorem full_pipe_and_reader_asleep :
    Reach pipeStep PipeOp.Allowed pipeStart bothAsleep ∧ bothAsleep.waiters = [1, 2] ∧
      bothAsleep.calls 1 = some (.reading 0x1000 1) ∧ bothAsleep.pipe.count = pipeBufSize := by
  refine ⟨?_, by decide +kernel⟩
  have hreader : Reach pipeStep PipeOp.Allowed pipeStart readerAsleep :=
    .step (PipeOp.read 1 0x1000 1 plainEnv) (.step PipeOp.alloc .start rfl) rfl
  exact .step (PipeOp.write 2 0x1000 (List.replicate 4097 0) plainEnv) hreader
    ⟨rfl, by rw [List.length_replicate]; decide⟩

end Drunix.Proc
