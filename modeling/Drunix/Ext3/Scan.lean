import Drunix.Ext3.Log

/-!
# The scan of the log ends

The scan loop of `ext3_replay_journal` counts the positions it passes and stops when it
has passed as many as the log has. A descriptor passes its data blocks with it, and a
log is a ring: where the data run ends on the descriptor itself, no position is counted
and the loop reads the descriptor again.

`replay_ends_iff`: the loop ends if and only if it meets no such descriptor, and then
within `maxlen - first` rounds. A descriptor with `k` tags lies so exactly when
`maxlen - first` divides `k + 1`.
-/

namespace Drunix.Ext3

open Lib Blk

/-! ## Positions in the ring -/

variable {jsb : Buf} {ov : List BlockImage} {pos : Nat}

section Positions

variable {first maxlen : Nat}

theorem jbdNext_lt (hf : first < maxlen) (cur : Nat) : jbdNext cur first maxlen < maxlen := by
  unfold jbdNext
  split <;> omega

/-- `n` steps from a position of the ring. -/
theorem jbdNext_iterate (hf : first < maxlen) (hpos : first ≤ pos) (hlt : pos < maxlen)
    (n : Nat) : (fun p => jbdNext p first maxlen)^[n] pos
      = first + (pos - first + n) % (maxlen - first) := by
  induction n with
  | zero =>
    rw [Function.iterate_zero_apply, Nat.add_zero, Nat.mod_eq_of_lt (by omega)]
    omega
  | succ n ih =>
    rw [Function.iterate_succ_apply', ih]
    have hmod := Nat.mod_lt (pos - first + n) (show 0 < maxlen - first by omega)
    have hsucc : (pos - first + (n + 1)) % (maxlen - first) =
        if (pos - first + n) % (maxlen - first) + 1 = maxlen - first then 0
        else (pos - first + n) % (maxlen - first) + 1 := by
      rw [← Nat.add_assoc, Nat.add_mod, ← Nat.mod_add_mod]
      split
      next he => rw [Nat.mod_add_mod, ← Nat.add_mod, ← Nat.mod_add_mod, he, Nat.mod_self]
      next hne =>
        rw [Nat.mod_add_mod, ← Nat.add_mod, ← Nat.mod_add_mod]
        exact Nat.mod_eq_of_lt (by omega)
    rw [hsucc]
    unfold jbdNext
    split <;> split <;> omega

/-- Before the ring: a start below `first` is passed once and never met again. -/
theorem jbdNext_iterate_gt (hpos : pos < first) (n : Nat) :
    (fun p => jbdNext p first maxlen)^[n + 1] pos > pos := by
  induction n with
  | zero =>
    show jbdNext pos first maxlen > pos
    unfold jbdNext
    split <;> omega
  | succ n ih =>
    rw [Function.iterate_succ_apply']
    unfold jbdNext
    split
    · exact hpos
    · exact Nat.lt_succ_of_lt ih

/-- A tag has its data in the log, and takes them to the next position. -/
theorem parseTags_spec {blockSize : Nat} {blk : Buf} (rounds : Nat) :
    ∀ {off dataPos : Nat} {tags tags' : List Tag} {stop : Nat},
      parseTags blockSize first maxlen blk rounds off dataPos tags = some (tags', stop) →
      (∃ k, tags'.length = tags.length + k ∧
        stop = (fun p => jbdNext p first maxlen)^[k] dataPos) ∧
      (first < maxlen → dataPos < maxlen → (∀ t ∈ tags, t.journalBlock < maxlen) →
        ∀ t ∈ tags', t.journalBlock < maxlen) := by
  induction rounds with
  | zero =>
    intro off dataPos tags tags' stop h
    cases h
    exact ⟨⟨0, rfl, rfl⟩, fun _ _ htags => htags⟩
  | succ rounds ih =>
    intro off dataPos tags tags' stop h
    unfold parseTags at h
    dsimp only at h
    generalize (if (be32 blk (off + 4)).testBit 1 then 8 else 24) = tagSize at h
    split at h
    · split at h
      · cases h
      have hmore : dataPos < maxlen → (∀ t ∈ tags, t.journalBlock < maxlen) →
          ∀ t ∈ tags ++ [⟨be32 blk off, dataPos, be32 blk (off + 4)⟩], t.journalBlock < maxlen :=
        fun hpos htags => List.forall_mem_append.mpr ⟨htags, List.forall_mem_singleton.mpr hpos⟩
      split at h
      · cases h
        exact ⟨⟨1, List.length_append, rfl⟩, fun _ => hmore⟩
      · obtain ⟨⟨k, hlen, hstop⟩, htags⟩ := ih h
        refine ⟨⟨k + 1, ?_, hstop⟩, fun hf hpos ht => htags hf (jbdNext_lt hf _) (hmore hpos ht)⟩
        rw [hlen, List.length_append, List.length_singleton]
        omega
    · cases h
      exact ⟨⟨0, rfl, rfl⟩, fun _ _ htags => htags⟩

theorem jbdParseDescriptor_stop {blockSize stop : Nat} {blk : Buf} {tags : List Tag}
    (h : jbdParseDescriptor blockSize blk pos first maxlen = some (tags, stop)) :
    stop = (fun p => jbdNext p first maxlen)^[tags.length + 1] pos := by
  obtain ⟨⟨k, hlen, hstop⟩, -⟩ := parseTags_spec _ h
  rw [hstop, show tags.length = k by simpa using hlen, Function.iterate_succ_apply]

/-- A data run ends on its descriptor when the log's length divides the tags and one. -/
theorem stop_eq_pos_iff (hf : first < maxlen) (hlt : pos < maxlen) (k : Nat) :
    (fun p => jbdNext p first maxlen)^[k + 1] pos = pos ↔
      first ≤ pos ∧ (maxlen - first) ∣ k + 1 := by
  by_cases hpos : first ≤ pos
  · rw [jbdNext_iterate hf hpos hlt]
    constructor
    · intro h
      refine ⟨hpos, ?_⟩
      have hmod : (pos - first + (k + 1)) % (maxlen - first) = (pos - first) % (maxlen - first) := by
        rw [Nat.mod_eq_of_lt (show pos - first < maxlen - first by omega)]
        omega
      have hdvd := (Nat.modEq_iff_dvd' (Nat.le_add_right (pos - first) (k + 1))).mp hmod.symm
      rwa [Nat.add_sub_cancel_left] at hdvd
    · intro h
      obtain ⟨-, c, hc⟩ := h
      rw [hc, Nat.add_mul_mod_self_left, Nat.mod_eq_of_lt (by omega)]
      omega
  · have hgt : (fun p => jbdNext p first maxlen)^[k + 1] pos > pos :=
      jbdNext_iterate_gt (Nat.lt_of_not_le hpos) k
    constructor
    · intro h
      omega
    · intro h
      exact absurd h.1 hpos

theorem skipTo_self (stop n scanned : Nat) :
    skipTo first maxlen stop n (stop, scanned) = (stop, scanned) := by
  cases n with
  | zero => rfl
  | succ n => exact if_pos rfl

theorem skipTo_spec (hf : first < maxlen) (stop n : Nat) :
    ∀ {pos : Nat} (scanned : Nat), pos < maxlen →
      (skipTo first maxlen stop n (pos, scanned)).1 < maxlen ∧
        scanned ≤ (skipTo first maxlen stop n (pos, scanned)).2 := by
  induction n with
  | zero => exact fun _ hpos => ⟨hpos, Nat.le_refl _⟩
  | succ n ih =>
    intro pos scanned hpos
    unfold skipTo
    split
    · exact ⟨hpos, Nat.le_refl _⟩
    · obtain ⟨hlt, hle⟩ := ih (scanned + 1) (jbdNext_lt hf pos)
      exact ⟨hlt, Nat.le_of_succ_le hle⟩

/-- A data run that ends elsewhere is counted. -/
theorem skipTo_counts (hf : first < maxlen) {stop : Nat} (hne : pos ≠ stop) (n scanned : Nat) :
    scanned < (skipTo first maxlen stop (n + 1) (pos, scanned)).2 := by
  unfold skipTo
  rw [if_neg hne]
  exact (skipTo_spec hf stop n (scanned + 1) (jbdNext_lt hf pos)).2

end Positions

/-! ## What a round counts -/

/-- A descriptor whose data run ends on the descriptor. -/
def SelfLanding (blockSize first maxlen pos : Nat) (blk : Buf) : Prop :=
  be32 blk 4 = 1 ∧ ∃ tags stop, jbdParseDescriptor blockSize blk pos first maxlen = some (tags, stop) ∧
    first ≤ pos ∧ (maxlen - first) ∣ tags.length + 1

/-- The variables after a record: at a descriptor behind its data run, otherwise one
position on. -/
def Passes (blockSize first maxlen : Nat) (sc : Scan) (blk : Buf) (sc' : Scan) : Prop :=
  (be32 blk 4 = 1 ∧ ∃ tags stop,
    jbdParseDescriptor blockSize blk sc.pos first maxlen = some (tags, stop) ∧
    (sc'.pos, sc'.scanned) = skipTo first maxlen stop (tags.length + 1) (sc.pos, sc.scanned)) ∨
  (sc'.pos, sc'.scanned) = (jbdNext sc.pos first maxlen, sc.scanned + 1)

section Counting

variable {blockSize first maxlen : Nat} {journal blk : Buf} {sc sc' : Scan}

theorem Passes.counts (h : Passes blockSize first maxlen sc blk sc') (hf : first < maxlen)
    (hpos : sc.pos < maxlen) :
    sc'.pos < maxlen ∧
      (sc.scanned < sc'.scanned ∨ SelfLanding blockSize first maxlen sc.pos blk) := by
  rcases h with ⟨htype, tags, stop, hparse, hskip⟩ | hnext
  · have hp : sc'.pos = _ := congrArg Prod.fst hskip
    have hs : sc'.scanned = _ := congrArg Prod.snd hskip
    rw [hp, hs]
    refine ⟨(skipTo_spec hf stop _ _ hpos).1, ?_⟩
    by_cases hstop : sc.pos = stop
    · right
      have hiter := jbdParseDescriptor_stop hparse
      rw [← hstop] at hiter
      exact ⟨htype, tags, stop, hparse, (stop_eq_pos_iff hf hpos _).mp hiter.symm⟩
    · exact .inl (skipTo_counts hf hstop _ _)
  · obtain ⟨hp, hs⟩ := Prod.mk.inj hnext
    rw [hp, hs]
    exact ⟨jbdNext_lt hf _, .inl (Nat.lt_succ_self _)⟩

/-- One position on is a pass, whatever else changes. -/
theorem Passes.advance {sc1 : Scan} (hp : sc1.pos = sc.pos) (hs : sc1.scanned = sc.scanned) :
    ∀ sc', some (sc1.advance first maxlen) = some sc' → Passes blockSize first maxlen sc blk sc' := by
  intro sc' hsc
  rw [← Option.some.inj hsc]
  right
  show (jbdNext sc1.pos first maxlen, sc1.scanned + 1) = _
  rw [hp, hs]

theorem scanRecord_passes (s : Fs) : Ends (scanRecord journal first maxlen sc blk) s
      (fun r _ => ∀ sc', r = some sc' → Passes s.blockSize first maxlen sc blk sc')
      fun _ _ => True := by
  unfold scanRecord
  rw [ends_bind, ends_get]
  dsimp only
  split
  next htype =>
    cases hparse : jbdParseDescriptor s.blockSize blk sc.pos first maxlen with
    | none => trivial
    | some p =>
      intro sc' hsc
      rw [← Option.some.inj hsc]
      exact .inl ⟨htype, p.1, p.2, hparse, rfl⟩
  split
  · split
    · split
      · trivial
      · exact Passes.advance rfl rfl
    · exact Passes.advance rfl rfl
  split
  · split
    · exact (ends_any _ s).bind (fun _ _ _ => Passes.advance rfl rfl) fun _ _ _ => trivial
    · exact Passes.advance rfl rfl
  split
  · exact Passes.advance rfl rfl
  · intro sc' hc
    cases hc

theorem logRecord_passes (log : Log) (ov : List BlockImage) :
    Ends (logRecord log first maxlen sc blk) ov
      (fun r _ => ∀ sc', r = some sc' → Passes 4096 first maxlen sc blk sc') fun _ _ => True := by
  refine logRecord_rule trivial nofun (fun tags stop htype hparse => ?_)
    (fun _ => Passes.advance rfl rfl)
    ((ends_any _ ov).mono (fun _ _ _ => Passes.advance rfl rfl) fun _ _ _ => trivial)
  intro p sc' hsc
  rw [← Option.some.inj hsc]
  exact .inl ⟨htype, tags, stop, hparse, rfl⟩

/-- The tags that the scan keeps have their data in the log. -/
theorem logRecord_positions {log : Log} (hf : first < maxlen)
    (htags : ∀ t ∈ sc.tags, t.journalBlock < maxlen) : Ends (logRecord log first maxlen sc blk) ov
      (fun r _ => ∀ sc', r = some sc' → ∀ t ∈ sc'.tags, t.journalBlock < maxlen)
      fun _ _ => True := by
  refine logRecord_rule trivial nofun (fun tags stop _ hparse sc' hsc => ?_)
    (fun _ sc' hsc => ?_) ((ends_any _ ov).mono (fun _ _ _ sc' hsc => ?_) fun _ _ _ => trivial)
  all_goals rw [← Option.some.inj hsc]
  · exact (parseTags_spec _ hparse).2 hf (jbdNext_lt hf _) nofun
  · exact htags
  · exact fun _ ht => absurd ht (by simp [Scan.advance])

end Counting

/-! ## No other call changes the block size -/

section Size

theorem require_keeps (p : Bool) : Keeps Fs.blockSize (require p) := by
  intro s
  rw [ends_require]
  split <;> rfl

theorem onBlk_keeps {α : Type} (f : Cache → Except Stop α × Cache) : Keeps Fs.blockSize (onBlk f) := by
  intro s
  rw [ends_onBlk]
  split <;> rfl

theorem kmalloc_keeps : Keeps Fs.blockSize kmalloc := by
  intro s
  rw [ends_kmalloc]
  split <;> rfl

theorem Keeps.orZero {x : Call Nat} (hx : Keeps Fs.blockSize x) : Keeps Fs.blockSize (orZero x) := by
  intro s
  rw [ends_orZero]
  exact (hx s).mono (fun _ _ h => h) fun _ _ h => ⟨fun _ => h, fun _ => h⟩

theorem readDiskBlock_keeps (block : Nat) (buf : Buf) : Keeps Fs.blockSize (ext3ReadDiskBlock block buf) :=
  Keeps.get.bind fun _ => (require_keeps _).bind fun _ =>
    (onBlk_keeps _).bind fun _ => Keeps.pure _

theorem readBlock_keeps (block : Nat) (buf : Buf) : Keeps Fs.blockSize (ext3ReadBlock block buf) := by
  refine Keeps.get.bind fun s => ?_
  cases findImage s.tx block with
  | some data => exact Keeps.pure _
  | none =>
    cases findImage s.overlay block with
    | some data => exact Keeps.pure _
    | none => exact readDiskBlock_keeps block buf

theorem readTable_keeps (block : Nat) (buf : Buf) : Keeps Fs.blockSize (readTable block buf) :=
  (require_keeps _).bind fun _ => readBlock_keeps block buf

theorem blockIndex_keeps (inode : Buf) (l : Nat) : Keeps Fs.blockSize (ext3BlockIndex inode l) := by
  refine Keeps.get.bind fun s => ?_
  dsimp only
  split
  · exact Keeps.pure _
  refine Keeps.orZero (kmalloc_keeps.bind fun blk => ?_)
  split
  · exact (readTable_keeps _ _).bind fun _ => Keeps.pure _
  split
  · exact (readTable_keeps _ _).bind fun _ => (readTable_keeps _ _).bind fun _ => Keeps.pure _
  · exact (require_keeps _).bind fun _ => (readTable_keeps _ _).bind fun _ =>
      (readTable_keeps _ _).bind fun _ => (readTable_keeps _ _).bind fun _ => Keeps.pure _

theorem journalReadBlock_keeps (journal : Buf) (l : Nat) (buf : Buf) :
    Keeps Fs.blockSize (ext3JournalReadBlock journal l buf) :=
  (blockIndex_keeps journal l).bind fun _ => (require_keeps _).bind fun _ => readDiskBlock_keeps _ _

theorem overlayPut_keeps (b : Nat) (data : Buf) : Keeps Fs.blockSize (ext3OverlayPut b data) := by
  refine Keeps.get.bind fun s => ?_
  split
  · exact fun _ => rfl
  · exact (require_keeps _).bind fun _ => kmalloc_keeps.bind fun _ _ => rfl

theorem applyTags_keeps (journal : Buf) (revokes : List Nat) (tags : List Tag) :
    ∀ data, Keeps Fs.blockSize (applyTags journal revokes tags data) := by
  induction tags with
  | nil => exact fun _ => Keeps.pure _
  | cons t ts ih =>
    intro data
    unfold applyTags
    split
    · exact ih data
    · exact (journalReadBlock_keeps _ _ _).bind fun _ => (overlayPut_keeps _ _).bind fun _ => ih _

theorem scanRecord_keeps (journal : Buf) (first maxlen : Nat) (sc : Scan) (blk : Buf) :
    Keeps Fs.blockSize (scanRecord journal first maxlen sc blk) := by
  refine Keeps.get.bind fun s => ?_
  dsimp only
  split
  · split
    · exact Keeps.throw _
    · exact Keeps.pure _
  split
  · split
    · split
      · exact Keeps.throw _
      · exact Keeps.pure _
    · exact Keeps.pure _
  split
  · split
    · exact (kmalloc_keeps.bind fun _ => applyTags_keeps _ _ _ _).bind fun _ => Keeps.pure _
    · exact Keeps.pure _
  split
  · exact Keeps.pure _
  · exact Keeps.pure _

end Size

/-! ## Rounds -/

/-- A round of the loop after which it goes on; the buffer holds the block read in it. -/
def ScanStep (journal : Buf) (first maxlen : Nat) (a b : Scan × Buf × Fs) : Prop :=
  a.1.scanned < maxlen - first ∧
    scanRound journal first maxlen a.1 a.2.1 a.2.2 = .ok (some (b.1, b.2.1)) b.2.2

/-- The same over a log. -/
def LogStep (log : Log) (first maxlen : Nat) (a b : Scan × List BlockImage) : Prop :=
  a.1.scanned < maxlen - first ∧
    ∃ blk, logRound log first maxlen a.1 a.2 = .ok (some (b.1, blk)) b.2

/-- The scan of a log gets to a descriptor that lands on itself. -/
def Trapped (log : Log) (first maxlen : Nat) (a : Scan × List BlockImage) : Prop :=
  ∃ n b blk, Steps (LogStep log first maxlen) n a b ∧ b.1.scanned < maxlen - first ∧
    log b.2 b.1.pos = some blk ∧ be32 blk 0 = jbdMagic ∧ SelfLanding 4096 first maxlen b.1.pos blk

section Rounds

variable {first maxlen : Nat} {journal : Buf}

theorem ScanStep.passes {a b : Scan × Buf × Fs} (h : ScanStep journal first maxlen a b) :
    b.2.2.blockSize = a.2.2.blockSize ∧ Passes a.2.2.blockSize first maxlen a.1 b.2.1 b.1 := by
  suffices hall : Ends (scanRound journal first maxlen a.1 a.2.1) a.2.2
      (fun r s' => s'.blockSize = a.2.2.blockSize ∧
        ∀ sc' blk, r = some (sc', blk) → Passes a.2.2.blockSize first maxlen a.1 blk sc')
      fun _ _ => True by
    obtain ⟨hsize, hpass⟩ := hall.of_ok h.2
    exact ⟨hsize, hpass _ _ rfl⟩
  refine (journalReadBlock_keeps _ _ _ _).bind (fun r s1 h1 => ?_) fun _ _ _ => trivial
  split
  · exact ⟨h1, nofun⟩
  · refine ((scanRecord_keeps _ _ _ _ _ s1).and (scanRecord_passes s1)).bind (fun sc' s2 h2 => ?_)
      fun _ _ _ => trivial
    refine ⟨h2.1.trans h1, fun sc blk hsc => ?_⟩
    obtain ⟨sc1, rfl, hpair⟩ := Option.map_eq_some_iff.mp hsc
    cases hpair
    rw [← h1]
    exact h2.2 _ rfl

theorem LogStep.passes {log : Log} {a b : Scan × List BlockImage} (h : LogStep log first maxlen a b) :
    ∃ blk, log a.2 a.1.pos = some blk ∧ be32 blk 0 = jbdMagic ∧ Passes 4096 first maxlen a.1 blk b.1 := by
  obtain ⟨-, blk, hround⟩ := h
  obtain ⟨hlog, hmagic, hrec⟩ := logRound_ok hround
  exact ⟨blk, hlog, hmagic, (logRecord_passes log a.2).of_ok hrec _ rfl⟩

/-- Rounds of the loop are no more than the positions it may count, unless one of them
meets a descriptor that lands on itself: on every device, with every block size. -/
theorem scanSteps_le (hf : first < maxlen) {n : Nat} {a b : Scan × Buf × Fs} (hpos : a.1.pos < maxlen)
    (h : Steps (ScanStep journal first maxlen) n a b) :
    (n + a.1.scanned ≤ b.1.scanned ∧ (n = 0 ∨ n + a.1.scanned ≤ maxlen - first)) ∨
      ∃ m u u', m < n ∧ Steps (ScanStep journal first maxlen) m a u ∧
        ScanStep journal first maxlen u u' ∧
        SelfLanding a.2.2.blockSize first maxlen u.1.pos u'.2.1 := by
  refine Steps.counted (fun c => c.1.pos < maxlen ∧ c.2.2.blockSize = a.2.2.blockSize)
    (fun c => c.1.scanned) _ (fun u u' => SelfLanding a.2.2.blockSize first maxlen u.1.pos u'.2.1)
    (fun u u' hu hI => ?_) h ⟨hpos, rfl⟩
  obtain ⟨hsize, hpass⟩ := hu.passes
  obtain ⟨hpos', hcount⟩ := hpass.counts hf hI.1
  rw [hI.2] at hcount hsize
  exact ⟨hu.1, ⟨hpos', hsize⟩, hcount⟩

section OverLog

variable {log : Log}

/-- In a log without a trap every round counts. -/
theorem logSteps_le (hf : first < maxlen) {n : Nat} {a b : Scan × List BlockImage}
    (hpos : a.1.pos < maxlen) (ht : ¬ Trapped log first maxlen a)
    (h : Steps (LogStep log first maxlen) n a b) : n + a.1.scanned ≤ b.1.scanned := by
  have hcount := Steps.counted (fun c => c.1.pos < maxlen) (fun c => c.1.scanned) (maxlen - first)
    (fun u _ => ∃ blk, log u.2 u.1.pos = some blk ∧ be32 blk 0 = jbdMagic ∧
      SelfLanding 4096 first maxlen u.1.pos blk)
    (fun u u' hu hI => by
      obtain ⟨blk, hlog, hmagic, hpass⟩ := hu.passes
      obtain ⟨hpos', hcount⟩ := hpass.counts hf hI
      exact ⟨hu.1, hpos', hcount.imp_right fun hland => ⟨blk, hlog, hmagic, hland⟩⟩)
    h hpos
  rcases hcount with hle | ⟨m, u, u', -, hu, hstep, blk, hland⟩
  · exact hle.1
  · exact absurd ⟨m, u, blk, hu, hstep.1, hland⟩ ht

/-- The call does not return. -/
def Hangs {σ α : Type} (x : EStateM Stop σ α) (s : σ) : Prop := ∃ s', x s = .error .hang s'

theorem LogStep.loop {a b : Scan × List BlockImage} (h : LogStep log first maxlen a b) (n : Nat) :
    logLoop log first maxlen (n + 1) a.1 a.2 = logLoop log first maxlen n b.1 b.2 := by
  obtain ⟨hlt, blk, hround⟩ := h
  show (if _ then _ else _ : LogCall Unit) a.2 = _
  rw [if_pos hlt, run_bind, hround]

/-- A descriptor that lands on itself is read again. -/
theorem logRound_lands (hf : first < maxlen) {sc : Scan} {blk : Buf}
    (hpos : sc.pos < maxlen) (hlog : log ov sc.pos = some blk) (hmagic : be32 blk 0 = jbdMagic)
    (hland : SelfLanding 4096 first maxlen sc.pos blk) :
    ∃ sc', logRound log first maxlen sc ov = .ok (some (sc', blk)) ov ∧
      sc'.pos = sc.pos ∧ sc'.scanned = sc.scanned := by
  obtain ⟨htype, tags, stop, hparse, hdvd⟩ := hland
  have hstop : stop = sc.pos :=
    (jbdParseDescriptor_stop hparse).trans ((stop_eq_pos_iff hf hpos _).mpr hdvd)
  have hskip : skipTo first maxlen stop (tags.length + 1) (sc.pos, sc.scanned) =
      (sc.pos, sc.scanned) := by
    rw [hstop]
    exact skipTo_self _ _ _
  refine ⟨⟨sc.pos, sc.scanned, be32 blk 8, tags, [], true⟩, ?_, rfl, rfl⟩
  rw [logRound_eq, hlog]
  unfold logRecord
  dsimp only
  rw [if_neg (not_not.mpr hmagic), if_pos htype, hparse]
  dsimp only
  rw [hskip]
  rfl

theorem landed_hangs (hf : first < maxlen) {blk : Buf} (n : Nat) :
    ∀ {sc : Scan}, sc.scanned < maxlen - first → sc.pos < maxlen → log ov sc.pos = some blk →
      be32 blk 0 = jbdMagic → SelfLanding 4096 first maxlen sc.pos blk →
      Hangs (logLoop log first maxlen n sc) ov := by
  induction n with
  | zero =>
    intro sc hlt _ _ _ _
    exact ⟨ov, by unfold logLoop; rw [if_pos hlt]; rfl⟩
  | succ n ih =>
    intro sc hlt hpos hlog hmagic hland
    obtain ⟨sc', hround, hp, hs⟩ := logRound_lands hf hpos hlog hmagic hland
    have hstep : LogStep log first maxlen (sc, ov) (sc', ov) := ⟨hlt, blk, hround⟩
    unfold Hangs
    rw [hstep.loop n]
    exact ih (by rw [hs]; exact hlt) (by rw [hp]; exact hpos) (by rw [hp]; exact hlog) hmagic
      (by rw [hp]; exact hland)

/-- Once trapped, the scan goes on for any number of rounds. -/
theorem Trapped.hangs (hf : first < maxlen) {a : Scan × List BlockImage} (hpos : a.1.pos < maxlen)
    (ht : Trapped log first maxlen a) (n : Nat) : Hangs (logLoop log first maxlen n a.1) a.2 := by
  obtain ⟨m, b, blk, hsteps, hlt, hlog, hmagic, hland⟩ := ht
  induction hsteps generalizing n with
  | refl a => exact landed_hangs hf n hlt hpos hlog hmagic hland
  | @head m a a' b hstep _ ih =>
    obtain ⟨blk, -, -, hpass⟩ := hstep.passes
    cases n with
    | zero => exact ⟨a.2, by unfold logLoop; rw [if_pos hstep.1]; rfl⟩
    | succ n =>
      unfold Hangs
      rw [hstep.loop n]
      exact ih (hpass.counts hf hpos).1 n hlt hlog hland

theorem logApply_fails (revokes : List Nat) (tags : List Tag) (ov : List BlockImage) :
    Ends (logApply log revokes tags) ov (fun _ _ => True) fun e _ => e = .fail := by
  induction tags generalizing ov with
  | nil => trivial
  | cons t ts ih =>
    unfold logApply
    split
    · exact ih ov
    · refine (ends_logRead log _ ov).bind (fun data ov1 _ => ?_) fun _ _ he => he.1
      rw [ends_bind]
      unfold Ends logPut
      cases putImage ov1 t.fsBlock (unescape t.flags data) with
      | none => rfl
      | some ov2 => exact ih ov2

/-- A round ends: a log has no blocks that cannot be read for ever. -/
theorem logRound_fails (sc : Scan) (ov : List BlockImage) :
    Ends (logRound log first maxlen sc) ov (fun _ _ => True) fun e _ => e = .fail := by
  refine (ends_logRead log _ ov).bind (fun blk ov1 _ => ?_) fun _ _ he => he.1
  split
  · trivial
  have hrec : Ends (logRecord log first maxlen sc blk) ov1 (fun _ _ => True) fun e _ => e = .fail :=
    logRecord_rule rfl trivial (fun _ _ _ _ => trivial) (fun _ => trivial) (logApply_fails _ _ ov1)
  exact hrec.bind (fun _ _ _ => trivial) fun _ _ he => he

/-- A loop that has not ended has made its rounds. -/
theorem Hangs.steps (n : Nat) : ∀ {sc : Scan} {ov : List BlockImage},
    Hangs (logLoop log first maxlen n sc) ov →
      ∃ b, Steps (LogStep log first maxlen) n (sc, ov) b ∧ b.1.scanned < maxlen - first := by
  induction n with
  | zero =>
    intro sc ov h
    obtain ⟨ov', h⟩ := h
    refine ⟨(sc, ov), Steps.refl _, ?_⟩
    unfold logLoop at h
    split at h
    next hlt => exact hlt
    · exact absurd h (by simp [pure, EStateM.pure])
  | succ n ih =>
    intro sc ov h
    obtain ⟨ov', h⟩ := h
    unfold logLoop at h
    split at h
    next hlt =>
      rw [run_bind] at h
      cases hround : logRound log first maxlen sc ov with
      | error e ov1 =>
        have he : e = .fail := (logRound_fails sc ov).of_error hround
        rw [hround, he] at h
        cases h
      | ok r ov1 =>
        rw [hround] at h
        cases r with
        | none => exact absurd h (by simp [pure, EStateM.pure])
        | some p =>
          obtain ⟨b, hsteps, hb⟩ := ih ⟨ov', h⟩
          exact ⟨b, Steps.head ⟨hlt, p.2, hround⟩ hsteps, hb⟩
    · exact absurd h (by simp [pure, EStateM.pure])

end OverLog

end Rounds

/-! ## The replay ends -/

section Replay

variable {D : Set Nat} {s : Fs}

theorem journalAccepted_bounds {blockSize : Nat}
    (h : journalAccepted blockSize jsb = true) : be32 jsb 20 < be32 jsb 16 ∧ be32 jsb 28 < be32 jsb 16 := by
  simp only [journalAccepted, Bool.and_eq_true, decide_eq_true_eq] at h
  exact ⟨h.1.2.1.2, h.1.2.2⟩

theorem Follows.hangs {α : Type} {x : Call α} {y : LogCall α} (h : Follows D s x y) {s1 : Fs}
    (hs1 : Replays D s s1) : Hangs x s1 ↔ Hangs y s1.overlay := by
  have hx := h s1 hs1
  unfold Ends at hx
  unfold Hangs
  cases hxs : x s1 with
  | ok a s2 | error a s2 =>
    rw [hxs] at hx
    simp [hx.1]

/-- The scan of the journal that the mount opens meets a descriptor that lands on itself. -/
def Fs.journalTrap (s : Fs) : Prop :=
  ∃ journal jsb, s.openJournal = some (journal, jsb) ∧
    Trapped (s.log journal) (be32 jsb 20) (be32 jsb 16) (Scan.start jsb, s.overlay)

theorem logScan_hangs {log : Log} (hacc : journalAccepted 4096 jsb = true) :
    Hangs (logScan log jsb) ov ↔
      Trapped log (be32 jsb 20) (be32 jsb 16) (Scan.start jsb, ov) := by
  obtain ⟨hf, hpos⟩ := journalAccepted_bounds hacc
  constructor
  · intro hhang
    by_contra ht
    -- as many rounds as positions were made, and each has counted one
    obtain ⟨b, hsteps, hlt⟩ := hhang.steps
    have hle := logSteps_le hf hpos ht hsteps
    omega
  · exact fun ht => ht.hangs hf hpos _

theorem Sound.replay_hangs (h : Sound D s) (hh : HeapOk s) :
    Hangs ext3ReplayJournal s ↔ s.journalTrap := by
  suffices hends : Ends ext3ReplayJournal s (fun _ _ => ¬ s.journalTrap)
      fun e _ => (e = .hang ↔ s.journalTrap) by
    unfold Ends at hends
    unfold Hangs
    cases hx : ext3ReplayJournal s with
    | ok a s' =>
      rw [hx] at hends
      simp [hends]
    | error e s' =>
      rw [hx] at hends
      simp [← hends]
  refine h.replay_rule hh (fun journal jsb hopen hclip s1 h1 => ?_) fun hopen s1 _ => ?_
  · obtain ⟨-, hacc, hstart⟩ := Fs.openJournal_some hopen
    have hov : s1.overlay = s.overlay := by rw [h1.rest]
    have htrap : s.journalTrap ↔ Hangs (logScan (s.log journal) jsb) s.overlay := by
      rw [logScan_hangs hacc]
      constructor
      · intro ht
        obtain ⟨journal', jsb', hopen', ht⟩ := ht
        obtain ⟨rfl, rfl⟩ := Prod.mk.inj (Option.some.inj (hopen.symm.trans hopen'))
        exact ht
      · exact fun ht => ⟨journal, jsb, hopen, ht⟩
    rw [htrap, ← hov]
    refine (h.scanJournal hh hclip hstart s1 ((Replays.refl h).reads h1)).mono
      (fun _ s2 hx => ?_) fun e s2 hx => ?_
    · simp [Hangs, hx.1]
    · simp [Hangs, hx.1]
  · have htrap : ¬ s.journalTrap := by
      intro ht
      obtain ⟨journal, jsb, hopen', -⟩ := ht
      rw [hopen] at hopen'
      cases hopen'
    exact ⟨htrap, by simp [htrap]⟩

/-- In a trap the loop is not over after any number of rounds. -/
theorem Sound.trap_hangs (h : Sound D s) (hh : HeapOk s) {journal : Buf}
    (hopen : s.openJournal = some (journal, jsb))
    (ht : Trapped (s.log journal) (be32 jsb 20) (be32 jsb 16) (Scan.start jsb, s.overlay)) (n : Nat) :
    Hangs (Ext3.scanLoop journal (be32 jsb 20) (be32 jsb 16) n (Scan.start jsb) jsb) s := by
  obtain ⟨hlog, hacc, -⟩ := Fs.openJournal_some hopen
  obtain ⟨hf, hpos⟩ := journalAccepted_bounds hacc
  exact ((h.scanLoop hh journal _ _ n _ (h.log_clipped hlog)).hangs (Replays.refl h)).mpr
    (ht.hangs hf hpos n)

/-- The replay ends if and only if no descriptor it meets lands on itself; otherwise its
loop is not over after any number of rounds. On any device and with any block size the
rounds without such a descriptor are no more than the positions of the log. -/
theorem replay_ends_iff (journal jsb : Buf) :
    (∀ s n a, journalAccepted s.blockSize jsb = true →
      Steps (ScanStep journal (be32 jsb 20) (be32 jsb 16)) n (Scan.start jsb, jsb, s) a →
      n ≤ be32 jsb 16 - be32 jsb 20 ∨
        ∃ m u u', m < n ∧
          Steps (ScanStep journal (be32 jsb 20) (be32 jsb 16)) m (Scan.start jsb, jsb, s) u ∧
          ScanStep journal (be32 jsb 20) (be32 jsb 16) u u' ∧
          SelfLanding s.blockSize (be32 jsb 20) (be32 jsb 16) u.1.pos u'.2.1) ∧
    ∀ D s, Sound D s → HeapOk s →
      (¬ Hangs ext3ReplayJournal s ↔ ¬ s.journalTrap) ∧
      (s.openJournal = some (journal, jsb) →
        Trapped (s.log journal) (be32 jsb 20) (be32 jsb 16) (Scan.start jsb, s.overlay) →
        ∀ n, Hangs (scanLoop journal (be32 jsb 20) (be32 jsb 16) n (Scan.start jsb) jsb) s) := by
  refine ⟨fun s n a hacc hsteps => ?_, fun D s h hh => ⟨?_, fun hopen ht n => ?_⟩⟩
  · obtain ⟨hf, hpos⟩ := journalAccepted_bounds hacc
    rcases scanSteps_le hf hpos hsteps with ⟨-, hle⟩ | hland
    · left
      omega
    · exact .inr hland
  · exact not_congr (h.replay_hangs hh)
  · exact h.trap_hangs hh hopen ht n

/-- A mount with a journal of one descriptor, in block 4, with one tag; the log has two
positions. -/
def trapImage : Bytes := fun _ a =>
  match a with
  -- superblock: inodes, block size, magic, inode size, features, journal inode
  | 1024 => 16 | 1048 => 2 | 1064 => 16 | 1080 => 83 | 1081 => 239 | 1112 => 128
  | 1116 => 4 | 1120 => 4 | 1248 => 8
  -- group descriptor: inode table in block 2
  | 4104 => 2
  -- inode 8: mode, blocks 3 and 4
  | 9089 => 128 | 9128 => 3 | 9132 => 4
  -- journal superblock: magic, type, block size, maxlen, first, sequence, start
  | 12288 => 192 | 12289 => 59 | 12290 => 57 | 12291 => 152 | 12295 => 4 | 12302 => 16
  | 12307 => 3 | 12311 => 1 | 12315 => 1 | 12319 => 1
  -- descriptor: magic, type, sequence, a tag for block 5 that is the last
  | 16384 => 192 | 16385 => 59 | 16386 => 57 | 16387 => 152 | 16391 => 1 | 16395 => 1
  | 16399 => 5 | 16403 => 10
  | _ => 0

theorem trapImage_trapped : ∃ journal jsb, (loadedFs trapImage).openJournal = some (journal, jsb) ∧
      Trapped ((loadedFs trapImage).log journal) (be32 jsb 20) (be32 jsb 16)
        (Scan.start jsb, (loadedFs trapImage).overlay) := by
  -- the journal superblock, and the record the scan finds first
  have heval : ((loadedFs trapImage).openJournal.map fun p =>
      ((be32 p.2 16, be32 p.2 20, be32 p.2 28),
        ((loadedFs trapImage).log p.1 (loadedFs trapImage).overlay 1).map fun blk =>
          (be32 blk 0, be32 blk 4, (jbdParseDescriptor 4096 blk 1 1 3).map fun r => r.1.length))) =
      some ((3, 1, 1), some (jbdMagic, 1, some 1)) := by
    decide +kernel
  obtain ⟨⟨journal, jsb⟩, hopen, hp⟩ := Option.map_eq_some_iff.mp heval
  simp only [Prod.mk.injEq, Option.map_eq_some_iff] at hp
  obtain ⟨⟨hmax, hfirst, hstart⟩, blk, hlog, hmagic, htype, r, hparse, hlen⟩ := hp
  refine ⟨journal, jsb, hopen, 0, _, blk, Steps.refl _, ?_⟩
  have hpos : (Scan.start jsb).pos = 1 := hstart
  dsimp only
  rw [hmax, hfirst, hpos]
  exact ⟨Nat.zero_lt_succ 1, hlog, hmagic, htype, r.1, r.2, hparse, Nat.le_refl 1, by rw [hlen]⟩

/-- The replay of that image does not return. -/
theorem trapImage_replay_hangs : Hangs ext3ReplayJournal (loadedFs trapImage) := by
  obtain ⟨hs, hh⟩ := loadedFs_sound trapImage (by decide +kernel) (by decide +kernel)
  by_contra hno
  exact ((replay_ends_iff (fun _ => 0) fun _ => 0).2 {1} _ hs hh).1.mp hno trapImage_trapped

/-- Its loop is not over after any number of rounds. -/
theorem one_tag_in_two_hangs :
    ∃ journal jsb, (loadedFs trapImage).openJournal = some (journal, jsb) ∧
      ∀ n, Hangs (scanLoop journal (be32 jsb 20) (be32 jsb 16) n (Scan.start jsb) jsb)
        (loadedFs trapImage) := by
  obtain ⟨hs, hh⟩ := loadedFs_sound trapImage (by decide +kernel) (by decide +kernel)
  obtain ⟨journal, jsb, hopen, ht⟩ := trapImage_trapped
  exact ⟨journal, jsb, hopen, hs.trap_hangs hh hopen ht⟩

end Replay

end Drunix.Ext3
