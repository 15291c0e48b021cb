import Drunix.Ext3.RoundTrip
import Drunix.Lib.Redo

/-!
# What a journal means, and what the replay makes of it

A journal is a redo log: transactions numbered one after the other, from the number in
the journal superblock on, each of descriptors and revoke records and closed by a commit
record. `committed` reads the transactions from the records in a log, and
`recovered` says what they leave of a block.

`replay_is_recovery_iff`: on a journal whose records are in sequence the replay finds
exactly that, unless a block it has put into the overlay is revoked later. The scan looks
at the number of a record only to match it with the descriptor before, and it drops the
revokes of a transaction at the next descriptor.
-/

namespace Drunix.Ext3

open Lib Blk

/-! ## The records of a log -/

/-- A record of a log, with its sequence number. -/
inductive Record where
  | descriptor (seq : Nat) (tags : List Tag)
  | revoke (seq : Nat) (blocks : List Nat)
  | commit (seq : Nat)
  | super (seq : Nat)
  /-- A descriptor that cannot be read. -/
  | damaged (seq : Nat)
deriving DecidableEq, Repr

def Record.seq : Record → Nat
  | descriptor seq _ | revoke seq _ | commit seq | super seq | damaged seq => seq

/-- The blocks that a record logs. -/
def Record.logs : Record → List Nat
  | descriptor _ tags => tags.map Tag.fsBlock
  | _ => []

/-- The blocks a revoke record names. -/
def revokedBlocks (blk : Buf) : List Nat :=
  (List.range ((be32 blk 12 - 16) / 4)).map fun i => be32 blk (16 + 4 * i)

section Records

variable (first maxlen : Nat)

/-- The record in a block at the position and count `p`, and the position and count of the
next. A block that is no record ends the log. -/
def recordAt (blk : Buf) (p : Nat × Nat) : Option (Record × Nat × Nat) :=
  let next := (jbdNext p.1 first maxlen, p.2 + 1)
  if be32 blk 0 ≠ jbdMagic then none
  else if be32 blk 4 = 1 then
    match jbdParseDescriptor 4096 blk p.1 first maxlen with
    | none => some (.damaged (be32 blk 8), next)
    | some (tags, stop) =>
      some (.descriptor (be32 blk 8) tags, skipTo first maxlen stop (tags.length + 1) p)
  else if be32 blk 4 = 5 then some (.revoke (be32 blk 8) (revokedBlocks blk), next)
  else if be32 blk 4 = 2 then some (.commit (be32 blk 8), next)
  else if be32 blk 4 = 3 ∨ be32 blk 4 = 4 then some (.super (be32 blk 8), next)
  else none

/-- The records from a position on, for as many positions as the log has. -/
def records (blocks : Nat → Buf) : Nat → Nat × Nat → List Record
  | 0, _ => []
  | rounds + 1, p =>
    if p.2 < maxlen - first then
      match recordAt first maxlen (blocks p.1) p with
      | none => []
      | some (r, p') => r :: records blocks rounds p'
    else []

end Records

/-- The image that a tag stands for. -/
def imageOf (blocks : Nat → Buf) (t : Tag) : BlockImage :=
  (t.fsBlock, unescape t.flags (blocks t.journalBlock))

/-- The committed transactions among the records, from the number `seq` on. Records of
another number end the log. -/
def committed (blocks : Nat → Buf) (seq : Nat) (tags : List Tag) (revokes : List Nat) :
    List Record → List (Redo Nat Buf)
  | [] => []
  | .descriptor q ts :: rs => if q = seq then committed blocks seq (tags ++ ts) revokes rs else []
  | .revoke q bs :: rs => if q = seq then committed blocks seq tags (revokes ++ bs) rs else []
  | .commit q :: rs =>
    if q = seq then
      ⟨tags.map (imageOf blocks), revokes⟩ :: committed blocks (u32 (seq + 1)) [] [] rs
    else []
  | .super _ :: _ => []
  | .damaged _ :: _ => []

/-- The records of a transaction before its commit record: at most one descriptor, and then
the revokes. -/
def openRecords (seq : Nat) (tags : List Tag) (revokes : List (List Nat)) : List Record :=
  (if tags = [] then [] else [.descriptor seq tags]) ++ revokes.map (.revoke seq)

/-- Records in sequence from the number `seq` on. Behind the last transaction there are no
more than records of other numbers, and no descriptor. -/
inductive InSequence : Nat → List Record → Prop
  | commit {seq : Nat} {tags : List Tag} {revokes : List (List Nat)} {rest : List Record} :
      InSequence (u32 (seq + 1)) rest →
        InSequence seq (openRecords seq tags revokes ++ .commit seq :: rest)
  | last {seq : Nat} {tags : List Tag} {revokes : List (List Nat)} {stale : List Record} :
      (∀ r ∈ stale, r.seq ≠ seq ∧ (∀ tags, r ≠ .descriptor r.seq tags) ∧ r ≠ .damaged r.seq) →
        InSequence seq (openRecords seq tags revokes ++ stale)

/-! ## The scan, record by record -/

/-- The state of the scan at another position. -/
def Scan.at (sc : Scan) (p : Nat × Nat) : Scan := { sc with pos := p.1, scanned := p.2 }

/-- What a record does to the state of the scan. -/
def Record.effect (sc : Scan) : Record → Scan
  | .descriptor q ts => { sc with curSeq := q, tags := ts, revokes := [], active := true }
  | .revoke q bs =>
    if sc.active ∧ q = sc.curSeq then { sc with revokes := sc.revokes ++ bs } else sc
  | .commit q =>
    if sc.active ∧ q = sc.curSeq then { sc with active := false, tags := [], revokes := [] } else sc
  | .super _ | .damaged _ => sc

/-- What a record does to the overlay. -/
def Record.puts (log : Log) (sc : Scan) : Record → LogCall Unit
  | .commit q => if sc.active ∧ q = sc.curSeq then logApply log sc.revokes sc.tags else pure ()
  | .damaged _ => throw .fail
  | _ => pure ()

theorem Record.effect_revoke (sc : Scan) (q : Nat) (bs : List Nat) :
    (Record.revoke q bs).effect sc =
      if sc.active ∧ q = sc.curSeq then { sc with revokes := sc.revokes ++ bs } else sc := rfl

theorem Record.effect_commit (sc : Scan) (q : Nat) :
    (Record.commit q).effect sc = if sc.active ∧ q = sc.curSeq then
      { sc with active := false, tags := [], revokes := [] } else sc := rfl

theorem Record.puts_commit (log : Log) (sc : Scan) (q : Nat) : (Record.commit q).puts log sc =
      if sc.active ∧ q = sc.curSeq then logApply log sc.revokes sc.tags else pure () := rfl

/-- What a record does is independent of the position. -/
theorem Record.effect_at (sc : Scan) (p : Nat × Nat) (r : Record) :
    r.effect (sc.at p) = (r.effect sc).at p := by
  cases r with
  | revoke q bs =>
    rw [Record.effect_revoke, Record.effect_revoke, apply_ite (Scan.at · p)]
    rfl
  | commit q =>
    rw [Record.effect_commit, Record.effect_commit, apply_ite (Scan.at · p)]
    rfl
  | _ => rfl

theorem foldl_effect_at (rs : List Record) : ∀ (sc : Scan) (p : Nat × Nat),
    rs.foldl Record.effect (sc.at p) = (rs.foldl Record.effect sc).at p := by
  induction rs with
  | nil => exact fun _ _ => rfl
  | cons r rs ih =>
    intro sc p
    rw [List.foldl_cons, List.foldl_cons, Record.effect_at, ih]

variable {blk data : Buf} {revokes : List Nat} {rs : List Record} {tags : List Tag} {b seq : Nat}

theorem parseRevokes_some {bytes : Nat} (rounds : Nat) :
    ∀ {off : Nat} {revokes r : List Nat}, 129 ≤ revokes.length + rounds →
      (rounds = 0 → revokes.length ≤ 128) → parseRevokes blk bytes rounds off revokes = some r →
      r = revokes ++ (List.range ((bytes - off) / 4)).map fun i => be32 blk (off + 4 * i) := by
  induction rounds with
  | zero =>
    intro off revokes r hlen hfew
    omega
  | succ rounds ih =>
    intro off revokes r hlen hfew h
    unfold parseRevokes at h
    split at h
    next hoff =>
      split at h
      · cases h
      next hroom =>
        have hmore := ih (by rw [List.length_append, List.length_singleton]; omega)
          (by rw [List.length_append, List.length_singleton]; omega) h
        have hcount : (bytes - off) / 4 = (bytes - (off + 4)) / 4 + 1 := by omega
        rw [hmore, hcount, List.range_succ_eq_map, List.map_cons, List.map_map, List.append_assoc]
        refine congrArg (revokes ++ be32 blk off :: ·) (List.map_congr_left fun i _ => ?_)
        congr 1
        omega
    next hoff =>
      cases h
      rw [show (bytes - off) / 4 = 0 by omega]
      simp

theorem jbdParseRevoke_some {q curSeq : Nat} {r : List Nat}
    (h : jbdParseRevoke 4096 blk q curSeq revokes = some r) :
    r = if q = curSeq then revokes ++ revokedBlocks blk else revokes := by
  unfold jbdParseRevoke at h
  split at h
  next hq => rw [if_neg hq, Option.some.inj h]
  next hq =>
    rw [if_pos (not_not.mp hq)]
    split at h
    · cases h
    · exact parseRevokes_some 129 (by omega) (by simp) h

section Walk

variable {log : Log} {first maxlen : Nat} {sc : Scan} {ov ov' : List BlockImage}

/-- A record the scan has passed has had its effect. -/
theorem logRecord_recordAt {r : Option Scan} (hmagic : be32 blk 0 = jbdMagic)
    (h : logRecord log first maxlen sc blk ov = .ok r ov') :
    match recordAt first maxlen blk (sc.pos, sc.scanned) with
    | none => r = none ∧ ov' = ov
    | some (rec, p) => r = some ((rec.effect sc).at p) ∧ rec.puts log sc ov = .ok () ov' := by
  unfold logRecord at h
  unfold recordAt
  rw [if_neg (not_not.mpr hmagic)]
  by_cases h1 : be32 blk 4 = 1
  · rw [if_pos h1] at h ⊢
    cases hparse : jbdParseDescriptor 4096 blk sc.pos first maxlen with
    | none =>
      rw [hparse] at h
      exact absurd h (by simp [throw, throwThe, MonadExceptOf.throw, EStateM.throw])
    | some p =>
      rw [hparse] at h
      cases h
      exact ⟨rfl, rfl⟩
  rw [if_neg h1] at h ⊢
  by_cases h5 : be32 blk 4 = 5
  · rw [if_pos h5] at h ⊢
    by_cases hact : sc.active = true
    · rw [if_pos hact] at h
      cases hparse : jbdParseRevoke 4096 blk (be32 blk 8) sc.curSeq sc.revokes with
      | none =>
        rw [hparse] at h
        exact absurd h (by simp [throw, throwThe, MonadExceptOf.throw, EStateM.throw])
      | some revokes =>
        rw [hparse] at h
        cases h
        refine ⟨?_, rfl⟩
        rw [jbdParseRevoke_some hparse, Record.effect_revoke]
        by_cases hq : be32 blk 8 = sc.curSeq
        · rw [if_pos hq, if_pos ⟨hact, hq⟩]
          rfl
        · rw [if_neg hq, if_neg fun hc => hq hc.2]
          rfl
    · rw [if_neg hact] at h
      cases h
      refine ⟨?_, rfl⟩
      rw [Record.effect_revoke, if_neg fun hc => hact hc.1]
      rfl
  rw [if_neg h5] at h ⊢
  by_cases h2 : be32 blk 4 = 2
  · rw [if_pos h2] at h ⊢
    dsimp only
    rw [Record.effect_commit, Record.puts_commit]
    by_cases hc : sc.active ∧ be32 blk 8 = sc.curSeq
    · rw [if_pos (by simp [hc]), run_bind] at h
      rw [if_pos hc, if_pos hc]
      cases happ : logApply log sc.revokes sc.tags ov with
      | error e ov1 =>
        rw [happ] at h
        cases h
      | ok u ov1 =>
        rw [happ] at h
        cases h
        exact ⟨rfl, rfl⟩
    · rw [if_neg (by simpa using hc)] at h
      rw [if_neg hc, if_neg hc]
      cases h
      exact ⟨rfl, rfl⟩
  rw [if_neg h2] at h ⊢
  by_cases h34 : be32 blk 4 = 3 ∨ be32 blk 4 = 4
  · rw [if_pos h34] at h ⊢
    cases h
    exact ⟨rfl, rfl⟩
  · rw [if_neg h34] at h ⊢
    cases h
    exact ⟨rfl, rfl⟩

/-- A log whose blocks stay the same while the overlay has images of `T` alone. -/
def Steady (log : Log) (T : Set Nat) (blocks : Nat → Buf) : Prop :=
  ∀ ov : List BlockImage, (∀ p ∈ ov, p.1 ∈ T) → ∀ l blk, log ov l = some blk → blocks l = blk

variable {T : Set Nat} {blocks : Nat → Buf}

section

variable (hlog : Steady log T blocks) (hov : ∀ p ∈ ov, p.1 ∈ T)

include hlog hov

/-- A round of the scan passes the record at its position, or finds none. -/
theorem logRound_recordAt
    {r : Option (Scan × Buf)} (h : logRound log first maxlen sc ov = .ok r ov') :
    match recordAt first maxlen (blocks sc.pos) (sc.pos, sc.scanned) with
    | none => r = none ∧ ov' = ov
    | some (rec, p) =>
      r.map Prod.fst = some ((rec.effect sc).at p) ∧ rec.puts log sc ov = .ok () ov' := by
  cases hread : log ov sc.pos with
  | none =>
    rw [logRound_eq, hread] at h
    cases h
  | some blk =>
    rw [hlog ov hov _ _ hread]
    by_cases hmagic : be32 blk 0 = jbdMagic
    · rw [logRound_record hread hmagic] at h
      cases hrec : logRecord log first maxlen sc blk ov with
      | error e ov1 =>
        rw [hrec] at h
        cases h
      | ok r' ov1 =>
        rw [hrec] at h
        cases h
        have heffect := logRecord_recordAt hmagic hrec
        cases hr : recordAt first maxlen blk (sc.pos, sc.scanned) with
        | none =>
          rw [hr] at heffect
          obtain ⟨rfl, rfl⟩ := heffect
          exact ⟨rfl, rfl⟩
        | some q =>
          rw [hr] at heffect
          obtain ⟨rfl, hputs⟩ := heffect
          exact ⟨rfl, hputs⟩
    · rw [logRound_plain hread hmagic] at h
      cases h
      unfold recordAt
      rw [if_pos hmagic]
      exact ⟨rfl, rfl⟩

/-- The scan passes the first record and goes on with the others, or is over. -/
theorem logLoop_records {rounds : Nat} (h : logLoop log first maxlen rounds sc ov = .ok () ov') :
    match records first maxlen blocks rounds (sc.pos, sc.scanned) with
    | [] => ov' = ov
    | r :: rs => ∃ rounds' p ov1, records first maxlen blocks rounds' p = rs ∧
        r.puts log sc ov = .ok () ov1 ∧
        logLoop log first maxlen rounds' ((r.effect sc).at p) ov1 = .ok () ov' := by
  cases rounds with
  | zero =>
    unfold logLoop at h
    split at h
    · exact absurd h (by simp [throw, throwThe, MonadExceptOf.throw, EStateM.throw])
    · cases h
      rfl
  | succ rounds =>
    unfold logLoop at h
    rw [records]
    by_cases hlt : sc.scanned < maxlen - first
    · rw [if_pos hlt] at h ⊢
      rw [run_bind] at h
      cases hround : logRound log first maxlen sc ov with
      | error e ov1 =>
        rw [hround] at h
        cases h
      | ok r ov1 =>
        rw [hround] at h
        have hrec := logRound_recordAt hlog hov hround
        cases hr : recordAt first maxlen (blocks sc.pos) (sc.pos, sc.scanned) with
        | none =>
          rw [hr] at hrec
          obtain ⟨rfl, rfl⟩ := hrec
          cases h
          rfl
        | some q =>
          rw [hr] at hrec
          obtain ⟨heffect, hputs⟩ := hrec
          obtain ⟨⟨sc', blk⟩, rfl, hsc⟩ := Option.map_eq_some_iff.mp heffect
          refine ⟨rounds, q.2, ov1, rfl, hputs, ?_⟩
          rw [← hsc]
          exact h
    · rw [if_neg hlt] at h ⊢
      cases h
      rfl

/-- Records that put nothing into the overlay are passed. -/
theorem logLoop_pass {js : List Record} :
    ∀ {rounds : Nat} {sc : Scan}, (∀ j ∈ js, ∀ q, j ≠ .commit q) →
      records first maxlen blocks rounds (sc.pos, sc.scanned) = js ++ rs →
      logLoop log first maxlen rounds sc ov = .ok () ov' →
      ∃ rounds' p, records first maxlen blocks rounds' p = rs ∧
        logLoop log first maxlen rounds' ((js.foldl Record.effect sc).at p) ov = .ok () ov' := by
  induction js with
  | nil => exact fun _ hrec h => ⟨_, _, hrec, h⟩
  | cons j js ih =>
    intro rounds sc hjs hrec h
    have hstep := logLoop_records hlog hov h
    rw [hrec] at hstep
    obtain ⟨rounds', p, ov1, hrec', hputs, h'⟩ := hstep
    have hsame : ov1 = ov := by
      cases j with
      | commit q => exact absurd rfl (hjs _ List.mem_cons_self q)
      | damaged q =>
        exact absurd hputs
          (by simp [Record.puts, throw, throwThe, MonadExceptOf.throw, EStateM.throw])
      | _ => cases hputs; rfl
    rw [hsame] at h'
    obtain ⟨rounds'', p', hrec'', h''⟩ := ih (fun j hj => hjs j (List.mem_cons_of_mem _ hj)) hrec' h'
    refine ⟨rounds'', p', hrec'', ?_⟩
    rw [foldl_effect_at] at h''
    exact h''

/-- Records that do nothing leave the overlay as it is. -/
theorem logLoop_idle :
    ∀ {rounds : Nat} {p : Nat × Nat}, (∀ r ∈ rs, r.effect sc = sc ∧ ∀ p, r.puts log (sc.at p) = pure ()) →
      records first maxlen blocks rounds p = rs →
      logLoop log first maxlen rounds (sc.at p) ov = .ok () ov' → ov' = ov := by
  induction rs with
  | nil =>
    intro rounds p _ hrec h
    have hstep := logLoop_records hlog hov h
    rw [show ((sc.at p).pos, (sc.at p).scanned) = p from rfl, hrec] at hstep
    exact hstep
  | cons r rs ih =>
    intro rounds p hidle hrec h
    have hstep := logLoop_records hlog hov h
    rw [show ((sc.at p).pos, (sc.at p).scanned) = p from rfl, hrec] at hstep
    obtain ⟨rounds', p', ov1, hrec', hputs, h'⟩ := hstep
    obtain ⟨heffect, hnone⟩ := hidle r List.mem_cons_self
    rw [hnone p] at hputs
    cases hputs
    rw [Record.effect_at, heffect] at h'
    exact ih (fun r hr => hidle r (List.mem_cons_of_mem _ hr)) hrec' h'

end

theorem putImage_within (h : putImage ov b data = some ov')
    (hov : ∀ p ∈ ov, p.1 ∈ T) (hb : b ∈ T) : ∀ p ∈ ov', p.1 ∈ T := by
  unfold putImage at h
  split at h
  · cases h
    intro p hp
    obtain ⟨q, hq, rfl⟩ := List.mem_map.mp hp
    split
    · exact hov q hq
    · exact hov q hq
  split at h
  · cases h
    intro p hp
    rcases List.mem_append.mp hp with hp | hp
    · exact hov p hp
    · rw [List.mem_singleton.mp hp]
      exact hb
  · cases h

/-- The images of a transaction are put into the overlay one after the other. -/
theorem logApply_puts (hlog : Steady log T blocks) :
    ∀ {ov : List BlockImage}, (∀ p ∈ ov, p.1 ∈ T) → (∀ t ∈ tags, t.fsBlock ∈ T) →
      logApply log revokes tags ov = .ok () ov' →
      (∀ p ∈ ov', p.1 ∈ T) ∧ ∀ b, findImage ov' b =
        (Redo.put ⟨tags.map (imageOf blocks), revokes⟩ b).or (findImage ov b) := by
  induction tags with
  | nil =>
    intro ov hov _ h
    cases h
    exact ⟨hov, fun b => by simp [Redo.put, Redo.image, lastImage]⟩
  | cons t ts ih =>
    intro ov hov htags h
    have hts := fun u hu => htags u (List.mem_cons_of_mem t hu)
    rw [logApply_cons] at h
    split at h
    next hrev =>
      obtain ⟨hov', himage⟩ := ih hov hts h
      refine ⟨hov', fun b => ?_⟩
      rw [himage b, List.map_cons, Redo.put_cons]
      have hnone : (if b ∈ revokes then none
          else if (imageOf blocks t).1 = b then some (imageOf blocks t).2 else none) = none := by
        split
        · rfl
        next hb => exact if_neg fun he : t.fsBlock = b => hb (he ▸ hrev)
      rw [hnone, Option.or_none]
    next hrev =>
    cases hread : log ov t.journalBlock with
    | none =>
      rw [hread] at h
      cases h
    | some data =>
      rw [hread] at h
      dsimp only at h
      cases hput : putImage ov t.fsBlock (unescape t.flags data) with
      | none =>
        rw [hput] at h
        cases h
      | some ov1 =>
        rw [hput] at h
        have hov1 := putImage_within hput hov (htags t List.mem_cons_self)
        obtain ⟨hov', himage⟩ := ih hov1 hts h
        refine ⟨hov', fun b => ?_⟩
        rw [himage b, findImage_putImage hput, List.map_cons, Redo.put_cons, Option.or_assoc]
        congr 2
        rw [← hlog ov hov _ _ hread]
        split
        next hb =>
          rw [if_neg (hb ▸ hrev)]
          exact (if_pos hb).symm
        next hb =>
          split
          · rfl
          · exact (if_neg hb).symm

theorem foldl_revokes (seq : Nat) (revokes : List (List Nat)) : ∀ sc : Scan,
    (revokes.map (Record.revoke seq)).foldl Record.effect sc =
      if sc.active ∧ seq = sc.curSeq then { sc with revokes := sc.revokes ++ revokes.flatten } else sc := by
  induction revokes with
  | nil =>
    intro sc
    rw [List.flatten_nil, List.append_nil]
    exact (ite_self sc).symm
  | cons bs revokes ih =>
    intro sc
    rw [List.map_cons, List.foldl_cons, ih, Record.effect_revoke]
    by_cases hc : sc.active ∧ seq = sc.curSeq
    · rw [if_pos hc, if_pos hc, List.flatten_cons, ← List.append_assoc]
      exact (if_pos hc).symm
    · rw [if_neg hc, if_neg hc, if_neg hc]

/-- The scan behind the records of an open transaction. -/
theorem foldl_openRecords (hactive : sc.active = false) (seq : Nat) (tags : List Tag)
    (revokes : List (List Nat)) :
    (openRecords seq tags revokes).foldl Record.effect sc =
      if tags = [] then sc
      else { sc with curSeq := seq, tags := tags, revokes := revokes.flatten, active := true } := by
  unfold openRecords
  rw [List.foldl_append]
  split
  · rw [List.foldl_nil, foldl_revokes, if_neg (by simp [hactive])]
  · rw [List.foldl_cons, List.foldl_nil, foldl_revokes]
    exact if_pos ⟨rfl, rfl⟩

theorem committed_revokes (blocks : Nat → Buf) (seq : Nat) (tags : List Tag)
    (rest : List Record) (revokes : List (List Nat)) : ∀ before : List Nat,
    committed blocks seq tags before (revokes.map (Record.revoke seq) ++ rest) =
      committed blocks seq tags (before ++ revokes.flatten) rest := by
  induction revokes with
  | nil =>
    intro before
    rw [List.flatten_nil, List.append_nil]
    rfl
  | cons bs revokes ih =>
    intro before
    rw [List.map_cons, List.cons_append, committed, if_pos rfl, ih, List.flatten_cons, List.append_assoc]

theorem committed_openRecords (blocks : Nat → Buf) (seq : Nat) (tags : List Tag)
    (revokes : List (List Nat)) (rest : List Record) :
    committed blocks seq [] [] (openRecords seq tags revokes ++ rest) =
      committed blocks seq tags revokes.flatten rest := by
  unfold openRecords
  split
  next htags => rw [List.nil_append, committed_revokes, List.nil_append, htags]
  next htags =>
    rw [List.singleton_append, List.cons_append, committed, if_pos rfl, committed_revokes]
    rfl

theorem openRecords_no_commit {revokes : List (List Nat)} :
    ∀ j ∈ openRecords seq tags revokes, ∀ q, j ≠ .commit q := by
  intro j hj q hc
  subst hc
  rcases List.mem_append.mp hj with hj | hj
  · split at hj
    · cases hj
    · simp at hj
  · simp at hj

/-- Behind the last commit record the scan finds nothing more. -/
theorem committed_stale {stale : List Record} (h : ∀ r ∈ stale, r.seq ≠ seq)
    (blocks : Nat → Buf) (tags : List Tag) (revokes : List Nat) :
    committed blocks seq tags revokes stale = [] := by
  cases stale with
  | nil => rfl
  | cons r rs =>
    have hr := h r List.mem_cons_self
    cases r with
    | descriptor q ts | revoke q ts | commit q => exact if_neg hr
    | super q | damaged q => rfl

/-- A record of another number does nothing, unless it is a descriptor. -/
theorem Record.idle {r : Record} (hseq : ¬ (sc.active ∧ r.seq = sc.curSeq))
    (hdesc : ∀ tags, r ≠ .descriptor r.seq tags) (hdamaged : r ≠ .damaged r.seq) (log : Log) :
    r.effect sc = sc ∧ ∀ p, r.puts log (sc.at p) = pure () := by
  cases r with
  | descriptor q tags => exact absurd rfl (hdesc tags)
  | revoke q bs => exact ⟨if_neg hseq, fun _ => rfl⟩
  | commit q => exact ⟨if_neg hseq, fun _ => if_neg hseq⟩
  | super q => exact ⟨rfl, fun _ => rfl⟩
  | damaged q => exact absurd rfl hdamaged

/-- What a scan of records in sequence leaves in the overlay. -/
theorem logLoop_inSequence (hlog : Steady log T blocks) {recs : List Record}
    (hseq : InSequence seq recs) : ∀ {rounds : Nat} {sc : Scan} {ov : List BlockImage},
      sc.active = false → (∀ p ∈ ov, p.1 ∈ T) → (∀ r ∈ recs, ∀ b ∈ r.logs, b ∈ T) →
      records first maxlen blocks rounds (sc.pos, sc.scanned) = recs →
      logLoop log first maxlen rounds sc ov = .ok () ov' → ∀ b,
        findImage ov' b = (replayed (committed blocks seq [] [] recs) b).or (findImage ov b) := by
  induction hseq with
  | @last seq tags revokes stale hstale =>
    intro rounds sc ov hactive hov _ hrec h b
    obtain ⟨rounds', p, hrec', h'⟩ := logLoop_pass hlog hov openRecords_no_commit hrec h
    have hidle := logLoop_idle hlog hov (fun r hr => ?_) hrec' h'
    · rw [committed_openRecords, committed_stale fun r hr => (hstale r hr).1, hidle]
      rfl
    · obtain ⟨hne, hdesc, hdamaged⟩ := hstale r hr
      rw [foldl_openRecords hactive]
      split
      · exact Record.idle (fun hc => absurd hc.1 (by simp [hactive])) hdesc hdamaged log
      · exact Record.idle (fun hc => hne hc.2) hdesc hdamaged log
  | @commit seq tags revokes rest hrest ih =>
    intro rounds sc ov hactive hov hT hrec h b
    obtain ⟨rounds', p, hrec', h'⟩ := logLoop_pass hlog hov openRecords_no_commit hrec h
    have hstep := logLoop_records hlog hov h'
    rw [show (((openRecords seq tags revokes).foldl Record.effect sc).at p).pos = p.1 from rfl,
      show (((openRecords seq tags revokes).foldl Record.effect sc).at p).scanned = p.2 from rfl,
      hrec'] at hstep
    obtain ⟨rounds'', p', ov1, hrec'', hputs, h''⟩ := hstep
    rw [foldl_openRecords hactive] at hputs h''
    rw [committed_openRecords, committed, if_pos rfl, replayed, Option.or_assoc]
    have hT' : ∀ r ∈ rest, ∀ b ∈ r.logs, b ∈ T := fun r hr =>
      hT r (List.mem_append_right _ (List.mem_cons_of_mem _ hr))
    by_cases htags : tags = []
    · -- a transaction without images changes nothing
      rw [if_pos htags] at hputs h''
      rw [Record.puts_commit, if_neg fun hc => absurd hc.1 (by simp [Scan.at, hactive])] at hputs
      cases hputs
      rw [Record.effect_at, Record.effect_commit, if_neg fun hc => absurd hc.1 (by simp [hactive])] at h''
      rw [@ih rounds'' ((sc.at p).at p') ov hactive hov hT' hrec'' h'' b, htags]
      congr 1
      simp [Redo.put, Redo.image, lastImage]
    · rw [if_neg htags] at hputs h''
      rw [Record.puts_commit, if_pos ⟨rfl, rfl⟩] at hputs
      have hmem : Record.descriptor seq tags ∈ openRecords seq tags revokes := by
        unfold openRecords
        rw [if_neg htags]
        simp
      obtain ⟨hov1, himage⟩ := logApply_puts hlog hov
        (fun t ht => hT _ (List.mem_append_left _ hmem) _ (List.mem_map_of_mem ht)) hputs
      rw [Record.effect_at, Record.effect_commit, if_pos ⟨rfl, rfl⟩] at h''
      exact (@ih rounds'' _ ov1 rfl hov1 hT' hrec'' h'' b).trans (congrArg _ (himage b))

end Walk

/-! ## The replay -/

/-- What the journal's blocks hold on the device. -/
def Fs.logBlocks (s : Fs) (journal : Buf) (l : Nat) : Buf := (s.log journal [] l).getD fun _ => 0

/-- The records of a journal, from the start of its log on. -/
def Fs.records (s : Fs) (journal jsb : Buf) : List Record :=
  Ext3.records (be32 jsb 20) (be32 jsb 16) (s.logBlocks journal) (be32 jsb 16 - be32 jsb 20)
    (be32 jsb 28, 0)

/-- The committed transactions of a journal. -/
def Fs.committed (s : Fs) (journal jsb : Buf) : List (Redo Nat Buf) :=
  Ext3.committed (s.logBlocks journal) (be32 jsb 24) [] [] (s.records journal jsb)

section Replay

variable {D : Set Nat} {s s' : Fs} {journal jsb : Buf}

/-- The tables that lead to the blocks of the log are none of the blocks it logs. -/
def Fs.MapApart (s : Fs) (journal jsb : Buf) : Prop :=
  ∀ r ∈ s.records journal jsb, ∀ b ∈ r.logs, ∀ l < be32 jsb 16, b ∉ mapTables s.cached journal l

/-- The log as far as the scan reads it. -/
def Log.upTo (log : Log) (maxlen : Nat) : Log := fun ov l => if l < maxlen then log ov l else none

theorem Fs.MapApart.steady (h : s.MapApart journal jsb) (htx : s.tx = []) :
    Steady ((s.log journal).upTo (be32 jsb 16)) {b | ∃ r ∈ s.records journal jsb, b ∈ r.logs}
      (s.logBlocks journal) := by
  intro ov hov l blk hblk
  unfold Log.upTo at hblk
  split at hblk
  case isFalse => cases hblk
  next hl =>
  have hindex : ∀ ov : List BlockImage, (∀ p ∈ ov, ∃ r ∈ s.records journal jsb, p.1 ∈ r.logs) →
      indexOf (s.under ov) journal l = indexOf s.cached journal l := by
    intro ov hov
    refine indexOf_congr fun t ht => ?_
    have hnone : findImage ov t = none := by
      rw [findImage_none_iff]
      intro hc
      obtain ⟨p, hp, rfl⟩ := List.mem_map.mp hc
      obtain ⟨r, hr, hb⟩ := hov p hp
      exact h r hr _ hb l hl ht
    unfold Fs.under
    rw [htx, hnone]
    rfl
  unfold Fs.log at hblk
  unfold Fs.logBlocks Fs.log
  rw [hindex ov hov] at hblk
  rw [hindex [] nofun, hblk]
  rfl

/-- A journal in blocks 3 to 11 with two transactions: number 1 logs block 20; the other, of
the number `number`, logs block 21 and revokes the block `revoked`. -/
def twoTransactions (number revoked : UInt8) : Bytes := fun _ a =>
  match a with
  -- superblock: inodes, block size, magic, inode size, features, journal inode
  | 1024 => 16 | 1048 => 2 | 1064 => 16 | 1080 => 83 | 1081 => 239 | 1112 => 128
  | 1116 => 4 | 1120 => 4 | 1248 => 8
  -- group descriptor: inode table in block 2
  | 4104 => 2
  -- inode 8: mode, blocks 3 to 11
  | 9089 => 128 | 9128 => 3 | 9132 => 4 | 9136 => 5 | 9140 => 6 | 9144 => 7 | 9148 => 8
  | 9152 => 9 | 9156 => 10 | 9160 => 11
  -- journal superblock: magic, type, block size, maxlen, first, sequence, start
  | 12288 => 192 | 12289 => 59 | 12290 => 57 | 12291 => 152 | 12295 => 4 | 12302 => 16
  | 12307 => 9 | 12311 => 1 | 12315 => 1 | 12319 => 1
  -- descriptor 1 with a tag for block 20; its data block is zero; commit record 1
  | 16384 => 192 | 16385 => 59 | 16386 => 57 | 16387 => 152 | 16391 => 1 | 16395 => 1
  | 16399 => 20 | 16403 => 10
  | 24576 => 192 | 24577 => 59 | 24578 => 57 | 24579 => 152 | 24583 => 2 | 24587 => 1
  -- the second descriptor with a tag for block 21
  | 28672 => 192 | 28673 => 59 | 28674 => 57 | 28675 => 152 | 28679 => 1 | 28683 => number
  | 28687 => 21 | 28691 => 10
  -- its revoke record, of one entry, and its commit record
  | 36864 => 192 | 36865 => 59 | 36866 => 57 | 36867 => 152 | 36871 => 5 | 36875 => number
  | 36879 => 20 | 36883 => revoked
  | 40960 => 192 | 40961 => 59 | 40962 => 57 | 40963 => 152 | 40967 => 2 | 40971 => number
  | _ => 0

/-- Does the replay of `twoTransactions` leave an image of `b`, and should it? -/
def twoTransactionsImage (number revoked : UInt8) (b : Nat) : Option (Bool × Bool) :=
  let s := loadedFs (twoTransactions number revoked)
  s.openJournal.bind fun p => (value ext3ReplayJournal s).map fun _ =>
    ((findImage (after ext3ReplayJournal s).overlay b).isSome,
      (recovered (s.committed p.1 p.2) b).isSome)

/-- A journal without tables has no block to be logged for its map. -/
theorem mapTables_direct {v : Nat → Buf} {inode : Buf} (h12 : Inode.block inode 12 = 0)
    (h13 : Inode.block inode 13 = 0) (h14 : Inode.block inode 14 = 0) {l t : Nat}
    (ht : t ∈ mapTables v inode l) : t = 0 := by
  have hzero : ∀ i, entryOf v 0 i = 0 := fun _ => rfl
  unfold mapTables at ht
  rw [h12, h13, h14] at ht
  simp only [hzero] at ht
  split at ht
  · cases ht
  split at ht
  · simpa using ht
  split at ht
  · simpa using ht
  · simpa using ht

end Replay

end Drunix.Ext3
