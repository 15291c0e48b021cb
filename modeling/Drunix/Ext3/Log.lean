import Drunix.Ext3.Journal
import Drunix.Ext3.DiskBlock

/-!
# The log as a scan finds it

On a mounted file system over a working device the replay reads nothing but journal
blocks, and changes nothing that shows but the overlay. `logLoop` is the scan loop over
that alone: a log, which says what the journal's blocks hold, and an overlay.

`Sound.scanLoop`: the loop of `ext3_replay_journal` does what `logLoop` does. What the
log holds at a position depends on the overlay, since the journal's own map of blocks is
read through it.
-/

namespace Drunix.Ext3

open Lib Blk

/-- What the blocks of a journal hold under an overlay; `none` for one without a place. -/
abbrev Log := List BlockImage → Nat → Option Buf

/-- A call that reads a log and changes the overlay. -/
abbrev LogCall (α : Type) := EStateM Stop (List BlockImage) α

/-- A block as `ext3_read_block` delivers it under the overlay `ov`. -/
def Fs.under (s : Fs) (ov : List BlockImage) (b : Nat) : Buf :=
  ((findImage s.tx b).or (findImage ov b)).getD (s.cached b)

/-- The log in the journal with the inode `journal`. -/
def Fs.log (s : Fs) (journal : Buf) : Log := fun ov l =>
  if indexOf (s.under ov) journal l = 0 then none
  else some (s.cached (indexOf (s.under ov) journal l))

/-- The overlay with an image put into it; it holds 32. -/
def putImage (ov : List BlockImage) (b : Nat) (data : Buf) : Option (List BlockImage) :=
  if (findImage ov b).isSome then some (ov.map fun p => if p.1 = b then (p.1, data) else p)
  else if ov.length < 32 then some (ov ++ [(b, data)])
  else none

/-! ## The scan over a log -/

section Model

variable (log : Log) (first maxlen : Nat)

def logRead (l : Nat) : LogCall Buf := fun ov =>
  match log ov l with
  | none => .error .fail ov
  | some blk => .ok blk ov

def logPut (b : Nat) (data : Buf) : LogCall Unit := fun ov =>
  match putImage ov b data with
  | none => .error .fail ov
  | some ov => .ok () ov

/-- A data block as it was before it was escaped. -/
def unescape (flags : Nat) (data : Buf) : Buf :=
  if flags.testBit 0 then putBe32 data 0 jbdMagic else data

def logApply (revokes : List Nat) : List Tag → LogCall Unit
  | [] => pure ()
  | t :: ts =>
    if revokes.contains t.fsBlock then logApply revokes ts
    else do
      let data ← logRead log t.journalBlock
      logPut t.fsBlock (unescape t.flags data)
      logApply revokes ts

/-- What the scan does with a record. -/
def logRecord (sc : Scan) (blk : Buf) : LogCall (Option Scan) :=
  if be32 blk 4 = 1 then
    match jbdParseDescriptor 4096 blk sc.pos first maxlen with
    | none => throw .fail
    | some (tags, stop) =>
      let p := skipTo first maxlen stop (tags.length + 1) (sc.pos, sc.scanned)
      pure (some ⟨p.1, p.2, be32 blk 8, tags, [], true⟩)
  else if be32 blk 4 = 5 then
    if sc.active then
      match jbdParseRevoke 4096 blk (be32 blk 8) sc.curSeq sc.revokes with
      | none => throw .fail
      | some revokes => pure (some ({ sc with revokes }.advance first maxlen))
    else pure (some (sc.advance first maxlen))
  else if be32 blk 4 = 2 then
    if sc.active && be32 blk 8 = sc.curSeq then do
      logApply log sc.revokes sc.tags
      pure (some ({ sc with active := false, tags := [], revokes := [] }.advance first maxlen))
    else pure (some (sc.advance first maxlen))
  else if be32 blk 4 = 3 ∨ be32 blk 4 = 4 then pure (some (sc.advance first maxlen))
  else pure none

/-- One round of the scan; it returns the block it has read as well. -/
def logRound (sc : Scan) : LogCall (Option (Scan × Buf)) := do
  let blk ← logRead log sc.pos
  if be32 blk 0 ≠ jbdMagic then pure none
  else do
    let sc ← logRecord log first maxlen sc blk
    pure (sc.map fun sc => (sc, blk))

/-- The scan, for a number of rounds. -/
def logLoop : Nat → Scan → LogCall Unit
  | 0, sc => if sc.scanned < maxlen - first then throw .hang else pure ()
  | rounds + 1, sc =>
    if sc.scanned < maxlen - first then do
      match ← logRound log first maxlen sc with
      | none => pure ()
      | some (sc, _) => logLoop rounds sc
    else pure ()

end Model

/-! ## The code does what the model does -/

variable {journal blk : Buf} {α : Type}

variable {data buf jsb : Buf} {l : Nat}

section Follows

variable {D : Set Nat} {s s₁ : Fs}

/-- A state the replay started in `s` can be in. -/
structure Replays (D : Set Nat) (s s₁ : Fs) : Prop where
  rest : s₁ = { s with blk := s₁.blk, mallocs := s₁.mallocs, overlay := s₁.overlay }
  inv : CacheInv (blockKeys D) ∅ s₁.blk
  hidden : Hidden (blockKeys D) ∅ s.blk s₁.blk
  clip : ∀ p ∈ s₁.overlay, Clipped 4096 p.2

/-- In every state of the replay, `x` does to the overlay what `y` does. -/
def Follows {α : Type} (D : Set Nat) (s : Fs) (x : Call α) (y : LogCall α) : Prop :=
  ∀ s₁, Replays D s s₁ → Ends x s₁
    (fun a s₂ => y s₁.overlay = .ok a s₂.overlay ∧ Replays D s s₂)
    fun e s₂ => y s₁.overlay = .error e s₂.overlay ∧ Replays D s s₂

theorem Replays.sound (h : Replays D s s₁) (hs : Sound D s) : Sound D s₁ := by
  have hr := h.rest
  refine ⟨?_, ?_, ?_, h.inv, hs.works.env h.hidden.toEnv, ?_⟩
  · rw [hr]; exact hs.dev
  · rw [hr]; exact hs.size
  · rw [hr]; exact hs.sectors
  · intro p hp
    rcases List.mem_append.mp hp with hp | hp
    · refine hs.clip p (List.mem_append_left _ ?_)
      rw [hr] at hp
      exact hp
    · exact h.clip p hp

theorem Replays.heapOk (h : Replays D s s₁) (hh : HeapOk s) : HeapOk s₁ := by
  rw [h.rest]
  exact hh

theorem Replays.reads {s2 : Fs} (h : Replays D s s₁) (hr : Reads D s₁ s2) : Replays D s s2 := by
  refine ⟨?_, hr.inv, h.hidden.trans hr.hidden, ?_⟩
  · rw [hr.rest, h.rest]
  · rw [hr.rest]
    exact h.clip

theorem Replays.cached (h : Replays D s s₁) (hs : Sound D s) (b : Nat) :
    s₁.cached b = s.cached b := by
  have hhome : s₁.home b = s.home b := by
    rw [h.rest]
    rfl
  unfold Fs.cached
  rw [hhome]
  exact h.hidden.view _ (hs.home_mem b) fun hc => hc

theorem Replays.content (h : Replays D s s₁) (hs : Sound D s) :
    s₁.content = s.under s₁.overlay := by
  funext b
  unfold Fs.content Fs.under
  rw [h.cached hs b, show s₁.tx = s.tx from by rw [h.rest]]

theorem Replays.refl (h : Sound D s) : Replays D s s :=
  ⟨rfl, h.inv, Hidden.refl _ _ _, fun p hp => h.clip p (List.mem_append_right _ hp)⟩

theorem Replays.toReads (h : Replays D s s₁) (hov : s₁.overlay = s.overlay) : Reads D s s₁ := by
  refine ⟨?_, h.inv, h.hidden⟩
  rw [h.rest, hov]

theorem Follows.pure (a : α) : Follows D s (pure a) (pure a) :=
  fun _ hs1 => ⟨rfl, hs1⟩

theorem Follows.throw (e : Stop) : Follows D s (throw e : Call α) (throw e : LogCall α) :=
  fun _ hs1 => ⟨rfl, hs1⟩

theorem Follows.bind {β : Type} {x : Call α} {y : LogCall α} {f : α → Call β}
    {g : α → LogCall β} (h : Follows D s x y)
    (hf : ∀ a, (∃ ov ov', y ov = .ok a ov') → Follows D s (f a) (g a)) :
    Follows D s (x >>= f) (y >>= g) := by
  intro s₁ hs1
  refine (h s₁ hs1).bind (fun a s2 ha => ?_) fun e s2 he => ?_
  · obtain ⟨hy, hs2⟩ := ha
    rw [run_bind, hy]
    exact hf a ⟨_, _, hy⟩ s2 hs2
  · rw [run_bind, he.1]
    exact ⟨rfl, he.2⟩

/-- A call that looks at the state. -/
theorem Follows.get_bind {f : Fs → Call α} {y : LogCall α}
    (h : ∀ s₁, Replays D s s₁ → Follows D s (f s₁) y) : Follows D s (get >>= f) y := by
  intro s₁ hs1
  rw [ends_bind, ends_get]
  exact h s₁ hs1 s₁ hs1

/-- A block copied over a whole block. -/
theorem memcpy_whole {p q : Buf} (hq : Clipped 4096 q) (hp : Clipped 4096 p) :
    memcpy q 0 p 0 4096 = p := by
  rw [hq.memcpy_all, hp.slice_self]

theorem ends_logRead (log : Log) (l : Nat) (ov : List BlockImage) :
    Ends (logRead log l) ov (fun blk ov' => log ov l = some blk ∧ ov' = ov)
      fun e ov' => e = .fail ∧ log ov l = none ∧ ov' = ov := by
  unfold Ends logRead
  cases log ov l with
  | none => exact ⟨rfl, rfl, rfl⟩
  | some blk => exact ⟨rfl, rfl⟩

theorem Sound.log_clipped (h : Sound D s) {ov : List BlockImage}
    (hl : s.log journal ov l = some blk) : Clipped 4096 blk := by
  unfold Fs.log at hl
  split at hl
  · cases hl
  · rw [← Option.some.inj hl]
    exact h.inv.view_clipped _

theorem Sound.logRead_clipped (h : Sound D s)
    (hr : ∃ ov ov', logRead (s.log journal) l ov = .ok blk ov') : Clipped 4096 blk := by
  obtain ⟨ov, ov', hr⟩ := hr
  exact h.log_clipped ((ends_logRead _ l ov).of_ok hr).1

/-- A journal block is what the cache has at the place the map gives. -/
theorem Sound.readJournal (h : Sound D s) (journal : Buf) (l : Nat) (hbuf : Clipped 4096 buf) :
    Ends (ext3JournalReadBlock journal l buf) s
      (fun r s' => indexOf s.content journal l ≠ 0 ∧
        r = s.cached (indexOf s.content journal l) ∧ Reads D s s')
      fun e s' => e = .fail ∧ (indexOf s.content journal l = 0 ∨ ¬ HeapOk s) ∧ Reads D s s' := by
  refine (h.blockIndex journal l).bind (fun phys s₁ hphys => ?_) fun _ _ hc => hc.elim
  obtain ⟨hr, hphys⟩ := hphys
  rw [ends_bind, ends_require]
  rcases found_cases hphys with ⟨hz, hno⟩ | ⟨rfl, hz⟩
  · rw [if_neg (by simp [hz])]
    exact ⟨rfl, hno, hr⟩
  · rw [if_pos (by simp [hz])]
    refine ((hr.sound h).readDiskBlock _ buf).mono (fun r s' hread => ?_) fun _ _ hc => hc.elim
    obtain ⟨rfl, hreads⟩ := hread
    refine ⟨hz, ?_, hr.trans hreads⟩
    rw [hr.cached h]
    exact memcpy_whole hbuf (h.inv.view_clipped _)

/-- Reading a journal block is reading the log. -/
theorem Sound.journalRead (h : Sound D s) (hh : HeapOk s) (journal : Buf) (l : Nat)
    (hbuf : Clipped 4096 buf) :
    Follows D s (ext3JournalReadBlock journal l buf) (logRead (s.log journal) l) := by
  intro s₁ hs1
  have hlog : s.log journal s₁.overlay l =
      if indexOf s₁.content journal l = 0 then none
      else some (s.cached (indexOf s₁.content journal l)) := by
    rw [hs1.content h]
    rfl
  unfold logRead
  rw [hlog]
  refine ((hs1.sound h).readJournal journal l hbuf).mono (fun r s2 hr => ?_) fun e s2 he => ?_
  · obtain ⟨hne, rfl, hr⟩ := hr
    rw [if_neg hne, hs1.cached h, show s2.overlay = s₁.overlay from by rw [hr.rest]]
    exact ⟨rfl, hs1.reads hr⟩
  · obtain ⟨rfl, hz | hno, hr⟩ := he
    · rw [if_pos hz, show s2.overlay = s₁.overlay from by rw [hr.rest]]
      exact ⟨rfl, hs1.reads hr⟩
    · exact absurd (hs1.heapOk hh) hno

/-- Putting an image into the overlay. -/
theorem Sound.overlayPut (h : Sound D s) (hh : HeapOk s) (b : Nat)
    (hdata : Clipped 4096 data) : Follows D s (ext3OverlayPut b data) (logPut b data) := by
  intro s₁ hs1
  have hs := hs1.sound h
  -- whatever the call stores is a whole block
  have hput : ∀ {ov : List BlockImage} (m : Nat), (∀ p ∈ ov, Clipped 4096 p.2) →
      Replays D s { s₁ with overlay := ov, mallocs := m } :=
    fun m hclip => ⟨by rw [hs1.rest], hs1.inv, hs1.hidden, hclip⟩
  have hfresh : memcpy (fun _ => 0) 0 data 0 s₁.blockSize = data := by
    rw [hs.size]
    exact memcpy_fresh hdata
  unfold ext3OverlayPut logPut putImage
  rw [ends_bind, ends_get]
  by_cases hf : (findImage s₁.overlay b).isSome
  · rw [if_pos hf, if_pos hf, ends_modify]
    have hstore : storeImage s₁.overlay b data s₁.blockSize =
        s₁.overlay.map fun p => if p.1 = b then (p.1, data) else p := by
      refine List.map_congr_left fun p hp => ?_
      rw [hs.size, memcpy_whole (hs1.clip p hp) hdata]
    refine ⟨by rw [hstore], hput s₁.mallocs fun p hp => ?_⟩
    rw [hstore] at hp
    obtain ⟨q, hq, rfl⟩ := List.mem_map.mp hp
    split
    · exact hdata
    · exact hs1.clip q hq
  · rw [if_neg hf, if_neg hf, ends_bind, ends_require]
    by_cases hlen : s₁.overlay.length < 32
    · rw [if_pos hlen, decide_eq_true hlen, if_pos rfl, ends_bind, ends_kmalloc,
        if_neg (by simp [(hs1.heapOk hh) s₁.mallocs]), ends_modify]
      refine ⟨?_, hput (s₁.mallocs + 1) fun p hp => ?_⟩
      · show EStateM.Result.ok () (s₁.overlay ++ [(b, data)]) = .ok () (s₁.overlay ++ [(b, _)])
        rw [hfresh]
      rw [hfresh] at hp
      rcases List.mem_append.mp hp with hp | hp
      · exact hs1.clip p hp
      · rw [List.mem_singleton.mp hp]
        exact hdata
    · rw [if_neg hlen, decide_eq_false hlen]
      exact ⟨rfl, hs1⟩

theorem unescape_clipped {flags : Nat} (h : Clipped 4096 data) :
    Clipped 4096 (unescape flags data) := by
  unfold unescape
  split
  · exact h.putBe32 (by decide) _
  · exact h

/-- The images of a transaction go into the overlay. -/
theorem Sound.applyTags (h : Sound D s) (hh : HeapOk s) (journal : Buf) (revokes : List Nat)
    (tags : List Tag) : ∀ {data : Buf}, Clipped 4096 data →
      Follows D s (applyTags journal revokes tags data) (logApply (s.log journal) revokes tags) := by
  induction tags with
  | nil => exact fun _ => Follows.pure ()
  | cons t ts ih =>
    intro data hdata
    unfold Ext3.applyTags logApply
    split
    · exact ih hdata
    · refine (h.journalRead hh journal _ hdata).bind fun r hr => ?_
      have hclip : Clipped 4096 (unescape t.flags r) :=
        unescape_clipped (h.logRead_clipped hr)
      exact (h.overlayPut hh _ hclip).bind fun _ _ => ih hclip

/-- The call changes the count of allocations alone. -/
theorem Follows.malloc_bind (hh : HeapOk s) {f : Buf → Call α} {y : LogCall α}
    (hf : Follows D s (f fun _ => 0) y) : Follows D s (kmalloc >>= f) y := by
  intro s₁ hs1
  rw [ends_bind, ends_kmalloc, if_neg (by simp [(hs1.heapOk hh) s₁.mallocs])]
  exact hf _ ⟨by rw [hs1.rest], hs1.inv, hs1.hidden, hs1.clip⟩

theorem Sound.scanRecord (h : Sound D s) (hh : HeapOk s) (journal : Buf) (first maxlen : Nat)
    (sc : Scan) (blk : Buf) :
    Follows D s (scanRecord journal first maxlen sc blk)
      (logRecord (s.log journal) first maxlen sc blk) := by
  have hzero : Clipped 4096 fun _ => 0 := fun _ _ => rfl
  unfold Ext3.scanRecord logRecord
  refine Follows.get_bind fun s₁ hs1 => ?_
  rw [(hs1.sound h).size]
  by_cases h1 : be32 blk 4 = 1
  · rw [if_pos h1, if_pos h1]
    cases jbdParseDescriptor 4096 blk sc.pos first maxlen with
    | none => exact Follows.throw _
    | some p => exact Follows.pure _
  rw [if_neg h1, if_neg h1]
  by_cases h5 : be32 blk 4 = 5
  · rw [if_pos h5, if_pos h5]
    cases sc.active with
    | false => exact Follows.pure _
    | true =>
      cases jbdParseRevoke 4096 blk (be32 blk 8) sc.curSeq sc.revokes with
      | none => exact Follows.throw _
      | some revokes => exact Follows.pure _
  rw [if_neg h5, if_neg h5]
  by_cases h2 : be32 blk 4 = 2
  · rw [if_pos h2, if_pos h2]
    cases sc.active && be32 blk 8 = sc.curSeq with
    | false => exact Follows.pure _
    | true =>
      refine Follows.bind ?_ fun _ _ => Follows.pure _
      exact Follows.malloc_bind hh (h.applyTags hh journal _ _ hzero)
  rw [if_neg h2, if_neg h2]
  split
  · exact Follows.pure _
  · exact Follows.pure _

theorem Sound.scanRound (h : Sound D s) (hh : HeapOk s) (journal : Buf) (first maxlen : Nat)
    (sc : Scan) (hblk : Clipped 4096 blk) :
    Follows D s (scanRound journal first maxlen sc blk)
      (logRound (s.log journal) first maxlen sc) := by
  refine (h.journalRead hh journal _ hblk).bind fun r _ => ?_
  split
  · exact Follows.pure _
  · exact (h.scanRecord hh journal first maxlen sc r).bind fun _ _ => Follows.pure _

section Rounds

variable {log : Log} {first maxlen : Nat} {sc sc' : Scan} {ov ov' : List BlockImage}

/-- A record fails, ends the scan, opens a transaction, is passed, or commits. -/
theorem logRecord_rule {Q : Option Scan → List BlockImage → Prop}
    {E : Stop → List BlockImage → Prop} (hfail : E .fail ov) (hnone : Q none ov)
    (hdesc : ∀ tags stop, be32 blk 4 = 1 →
      jbdParseDescriptor 4096 blk sc.pos first maxlen = some (tags, stop) →
      let p := skipTo first maxlen stop (tags.length + 1) (sc.pos, sc.scanned)
      Q (some ⟨p.1, p.2, be32 blk 8, tags, [], true⟩) ov)
    (hpass : ∀ revokes, Q (some ({ sc with revokes }.advance first maxlen)) ov)
    (hcommit : Ends (logApply log sc.revokes sc.tags) ov (fun _ => Q (some
      ({ sc with active := false, tags := [], revokes := [] }.advance first maxlen))) E) :
    Ends (logRecord log first maxlen sc blk) ov Q E := by
  unfold logRecord
  split
  next htype =>
    cases hparse : jbdParseDescriptor 4096 blk sc.pos first maxlen with
    | none => exact hfail
    | some p => exact hdesc p.1 p.2 htype hparse
  split
  · split
    · split
      · exact hfail
      · exact hpass _
    · exact hpass sc.revokes
  split
  · split
    · exact hcommit.bind (fun _ _ h => h) fun _ _ h => h
    · exact hpass sc.revokes
  split
  · exact hpass sc.revokes
  · exact hnone

theorem logRound_eq : logRound log first maxlen sc ov = match log ov sc.pos with
    | none => .error .fail ov
    | some blk =>
      if be32 blk 0 ≠ jbdMagic then .ok none ov
      else
        match logRecord log first maxlen sc blk ov with
        | .ok r ov' => .ok (r.map fun sc => (sc, blk)) ov'
        | .error e ov' => .error e ov' := by
  unfold logRound
  rw [run_bind]
  unfold logRead
  cases log ov sc.pos with
  | none => rfl
  | some blk =>
    dsimp only
    split
    · rfl
    · rw [run_bind]
      cases logRecord log first maxlen sc blk ov <;> rfl

/-- The block a round returns is the one at the position. -/
theorem logRound_ok (h : logRound log first maxlen sc ov = .ok (some (sc', blk)) ov') :
    log ov sc.pos = some blk ∧ be32 blk 0 = jbdMagic ∧
      logRecord log first maxlen sc blk ov = .ok (some sc') ov' := by
  rw [logRound_eq] at h
  split at h
  · cases h
  next r hlog =>
  split at h
  · cases h
  next hm =>
    split at h
    next sc2 ov2 hrec =>
      injection h with hr hov
      obtain ⟨sc3, rfl, hpair⟩ := Option.map_eq_some_iff.mp hr
      cases hpair
      exact ⟨hlog, not_not.mp hm, hov ▸ hrec⟩
    · cases h

end Rounds

/-- The scan loop follows the model's, for any number of rounds. -/
theorem Sound.scanLoop (h : Sound D s) (hh : HeapOk s) (journal : Buf) (first maxlen n : Nat) :
    ∀ (sc : Scan) {blk : Buf}, Clipped 4096 blk →
      Follows D s (scanLoop journal first maxlen n sc blk)
        (logLoop (s.log journal) first maxlen n sc) := by
  induction n with
  | zero =>
    intro sc blk _
    unfold Ext3.scanLoop logLoop
    split
    · exact Follows.throw _
    · exact Follows.pure _
  | succ n ih =>
    intro sc blk hblk
    unfold Ext3.scanLoop logLoop
    split
    · refine (h.scanRound hh journal first maxlen sc hblk).bind fun r hr => ?_
      cases r with
      | none => exact Follows.pure _
      | some p =>
        obtain ⟨ov, ov', hr⟩ := hr
        exact ih p.1 (h.log_clipped (logRound_ok hr).1)
    · exact Follows.pure _

end Follows

/-! ## The replay -/

/-- The superblock says that there is a journal to replay, in a regular file. -/
def Fs.Journaled (s : Fs) : Prop :=
  Super.featureCompat s.super &&& 4 ≠ 0 ∧ Super.featureIncompat s.super &&& 4 ≠ 0 ∧
  Super.journalDev s.super = 0 ∧
  (Super.journalInum s.super ≠ 0 ∧ Super.journalInum s.super ≤ Super.inodesCount s.super) ∧
  Inode.format (s.inodeIn s.content (Super.journalInum s.super)) = 32768

instance (s : Fs) : Decidable s.Journaled := by
  unfold Fs.Journaled
  infer_instance

/-- The inode and the superblock of the journal, where the replay gets as far as its scan. -/
def Fs.openJournal (s : Fs) : Option (Buf × Buf) :=
  let journal := s.inodeIn s.content (Super.journalInum s.super)
  if s.Journaled then
    match s.log journal s.overlay 0 with
    | none => none
    | some jsb => if journalAccepted 4096 jsb ∧ be32 jsb 28 ≠ 0 then some (journal, jsb) else none
  else none

/-- The variables before the first round. -/
def Scan.start (jsb : Buf) : Scan := ⟨be32 jsb 28, 0, 0, [], [], false⟩

/-- The scan of a journal, for as many rounds as it may count. -/
def logScan (log : Log) (jsb : Buf) : LogCall Unit :=
  logLoop log (be32 jsb 20) (be32 jsb 16) (be32 jsb 16 - be32 jsb 20) (Scan.start jsb)

section Replay

variable {D : Set Nat} {s : Fs}

/-- The replay scans the journal that is open, or ends without a scan. -/
theorem Sound.replay_rule (h : Sound D s) (hh : HeapOk s) {Q : Unit → Fs → Prop}
    {E : Stop → Fs → Prop}
    (hscan : ∀ journal jsb, s.openJournal = some (journal, jsb) → Clipped 4096 jsb →
      ∀ s', Reads D s s' → Ends (scanJournal journal jsb) s' Q E)
    (hidle : s.openJournal = none → ∀ s', Reads D s s' → Q () s' ∧ E .fail s') :
    Ends ext3ReplayJournal s Q E := by
  have hzero : Clipped 4096 fun _ => 0 := fun _ _ => rfl
  unfold Fs.openJournal at hscan hidle
  unfold ext3ReplayJournal
  rw [ends_bind, ends_get]
  by_cases hcompat : Super.featureCompat s.super &&& 4 = 0
  · rw [if_pos hcompat]
    rw [if_neg (fun hc => hc.1 hcompat)] at hidle
    exact (hidle rfl _ (Reads.refl h)).1
  rw [if_neg hcompat]
  by_cases hrecover : Super.featureIncompat s.super &&& 4 = 0
  · rw [if_pos hrecover]
    rw [if_neg (fun hc => hc.2.1 hrecover)] at hidle
    exact (hidle rfl _ (Reads.refl h)).1
  rw [if_neg hrecover, ends_bind, ends_require]
  split
  case isFalse hdev =>
    rw [if_neg (fun hc => hdev (by simp [hc.2.2.1, hc.2.2.2.1.1]))] at hidle
    exact (hidle rfl _ (Reads.refl h)).2
  next hdev =>
  have hdev : Super.journalDev s.super = 0 ∧ Super.journalInum s.super ≠ 0 := by simpa using hdev
  refine (h.readInode _).bind (fun journal s₁ hj => ?_) fun e s₁ he => ?_
  · obtain ⟨hino, rfl, h1⟩ := hj
    rw [ends_bind, ends_require]
    split
    case isFalse hformat =>
      rw [if_neg (fun hc => hformat (by simp [hc.2.2.2.2]))] at hidle
      exact (hidle rfl _ h1).2
    next hformat =>
    have hformat : Inode.format (s.inodeIn s.content (Super.journalInum s.super)) = 32768 := by
      simpa using hformat
    rw [if_pos ⟨hcompat, hrecover, hdev.1, hino, hformat⟩] at hscan hidle
    have hmalloc : ¬ ((List.range 3).any fun i => s₁.heap (s₁.mallocs + i)) = true := by
      simp [(h1.heapOk hh) _]
    rw [ends_bind, ends_kmallocs, if_neg hmalloc]
    have h2 := h1.trans ((h1.sound h).malloc 3)
    have hov : s₁.overlay = s.overlay := by rw [h1.rest]
    refine (h.journalRead hh _ 0 hzero _ ((Replays.refl h).reads h2)).bind (fun jsb s3 hj => ?_)
      fun e s3 he => ?_
    · obtain ⟨hlog, hov3⟩ := (ends_logRead _ _ _).of_ok hj.1
      have h3 := hj.2.toReads (hov3.trans hov)
      rw [show _ = s.overlay from hov] at hlog
      rw [hlog] at hscan hidle
      dsimp only at hscan hidle
      rw [ends_bind, ends_require, h.size]
      split
      case isFalse hacc =>
        rw [if_neg (fun hc => hacc hc.1)] at hidle
        exact (hidle rfl _ h3).2
      next hacc =>
      by_cases hstart : be32 jsb 28 = 0
      · unfold scanJournal
        rw [if_pos hstart]
        rw [if_neg (fun hc => hc.2 hstart)] at hidle
        exact (hidle rfl _ h3).1
      · rw [if_pos ⟨hacc, hstart⟩] at hscan
        exact hscan _ _ rfl (h.log_clipped hlog) s3 h3
    · obtain ⟨rfl, hlog, hov3⟩ := (ends_logRead _ _ _).of_error he.1
      rw [show _ = s.overlay from hov] at hlog
      rw [hlog] at hidle
      exact (hidle rfl _ (he.2.toReads (hov3.trans hov))).2
  · obtain ⟨rfl, hno, h1⟩ := he
    rw [if_neg (fun hc => hno hc.2.2.2.1 hh)] at hidle
    exact (hidle rfl _ h1).2

/-- The scan of an open journal. -/
theorem Sound.scanJournal (h : Sound D s) (hh : HeapOk s)
    (hjsb : Clipped 4096 jsb) (hstart : be32 jsb 28 ≠ 0) :
    Follows D s (scanJournal journal jsb) (logScan (s.log journal) jsb) := by
  unfold Ext3.scanJournal
  rw [if_neg hstart]
  exact h.scanLoop hh journal _ _ _ _ hjsb

theorem Fs.openJournal_some (h : s.openJournal = some (journal, jsb)) :
    s.log journal s.overlay 0 = some jsb ∧ journalAccepted 4096 jsb = true ∧ be32 jsb 28 ≠ 0 := by
  unfold Fs.openJournal at h
  dsimp only at h
  split at h
  · split at h
    · cases h
    next hlog =>
      split at h
      next hacc =>
        cases h
        exact ⟨hlog, hacc⟩
      · cases h
  · cases h

/-- The replay of an open journal does to the overlay what the scan of its log does. -/
theorem Sound.replay_open (h : Sound D s) (hh : HeapOk s)
    (hopen : s.openJournal = some (journal, jsb)) :
    Ends ext3ReplayJournal s
      (fun _ s' => logScan (s.log journal) jsb s.overlay = .ok () s'.overlay ∧ Replays D s s')
      fun e s' => logScan (s.log journal) jsb s.overlay = .error e s'.overlay ∧ Replays D s s' := by
  refine h.replay_rule hh (fun journal' jsb' hopen' hclip s₁ h1 => ?_) fun hnone => ?_
  · obtain ⟨rfl, rfl⟩ := Prod.mk.inj (Option.some.inj (hopen.symm.trans hopen'))
    rw [← show s₁.overlay = s.overlay from by rw [h1.rest]]
    exact h.scanJournal hh hclip (Fs.openJournal_some hopen).2.2 s₁ ((Replays.refl h).reads h1)
  · rw [hopen] at hnone
    cases hnone

/-- Without an open journal the overlay stays as it is. -/
theorem Sound.replay_closed (h : Sound D s) (hh : HeapOk s) (hopen : s.openJournal = none) :
    Ends ext3ReplayJournal s (fun _ s' => Reads D s s') fun e s' => e = .fail ∧ Reads D s s' := by
  refine h.replay_rule hh (fun journal jsb hopen' => ?_) fun _ s₁ h1 => ⟨h1, rfl, h1⟩
  rw [hopen] at hopen'
  cases hopen'

/-- The group descriptor is read, and nothing else changes. -/
theorem Sound.loadBg (h : Sound D s) : Ends ext3LoadBg s
      (fun _ s' => ∃ s₁, Reads D s s₁ ∧
        s' = { s₁ with bg := slice (s.content s.bgdtBlock) 0 Bg.size })
      fun e s' => e = .fail ∧ ¬ HeapOk s ∧ Reads D s s' := by
  unfold ext3LoadBg
  rw [ends_bind, ends_get]
  exact h.fresh_bind (fun s' hr => ⟨s', hr, rfl⟩) fun s' hh hr => ⟨rfl, hh, hr⟩

/-- A fresh system as it is before the replay. -/
def loadedFs (base : Bytes) : Fs := after ext3LoadBg (after (ext3LoadSuper 1) (freshFs base))

/-- After the superblock the group descriptor is all that is read. -/
theorem loadedFs_eq {base : Bytes} (hload : value (ext3LoadSuper 1) (freshFs base) = some ())
    (hsize : (after (ext3LoadSuper 1) (freshFs base)).blockSize = 4096) :
    ∃ s bg, Sound {1} (after (ext3LoadSuper 1) (freshFs base)) ∧
      HeapOk (after (ext3LoadSuper 1) (freshFs base)) ∧
      Reads {1} (after (ext3LoadSuper 1) (freshFs base)) s ∧ loadedFs base = { s with bg } := by
  have hsuper := eq_ok_of_value hload
  have hs := (freshFs_idle hsuper).sound hsuper hsize
  obtain ⟨-, -, -, -, -, hheap, -⟩ := (ext3LoadSuper_spec 1 _).of_ok hsuper
  have hh : HeapOk (after (ext3LoadSuper 1) (freshFs base)) := by
    intro n
    rw [hheap]
    rfl
  have hends : Ends ext3LoadBg (after (ext3LoadSuper 1) (freshFs base))
      (fun _ s' => ∃ s bg, Reads {1} (after (ext3LoadSuper 1) (freshFs base)) s ∧ s' = { s with bg })
      fun _ s' => ∃ s bg, Reads {1} (after (ext3LoadSuper 1) (freshFs base)) s ∧ s' = { s with bg } :=
    hs.loadBg.mono (fun _ s' hs' => ⟨hs'.choose, _, hs'.choose_spec⟩) fun e s' he => absurd hh he.2.1
  obtain ⟨s, bg, hr, he⟩ := hends.after
  exact ⟨s, bg, hs, hh, hr, he⟩

theorem loadedFs_sound (base : Bytes) (hload : value (ext3LoadSuper 1) (freshFs base) = some ())
    (hsize : (after (ext3LoadSuper 1) (freshFs base)).blockSize = 4096) :
    Sound {1} (loadedFs base) ∧ HeapOk (loadedFs base) := by
  obtain ⟨s, bg, hs, hh, hr, he⟩ := loadedFs_eq hload hsize
  have hs' := hr.sound hs
  rw [he]
  exact ⟨⟨hs'.dev, hs'.size, hs'.sectors, hs'.inv, hs'.works, hs'.clip⟩, hr.heapOk hh⟩

end Replay

end Drunix.Ext3
