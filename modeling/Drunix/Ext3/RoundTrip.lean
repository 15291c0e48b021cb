import Drunix.Ext3.LogWrite
import Drunix.Ext3.Scan

/-!
# A transaction through the log and back

`jbd_write_transaction` against `ext3_replay_journal`: what the writer puts into the log
and what the reader makes of it after a crash. The reader's limits are not the writer's.
It takes 64 tags and 32 images where the writer takes 128 blocks, counts positions from
the journal's `first` on where the writer starts at 1, and refuses a tag for block 0,
which with blocks of 4096 bytes is where the superblock lies.

`round_trip_iff`: the overlay is the transaction again if and only if the transaction
keeps to the reader's limits and what older transactions have left behind its commit record,
where the reader goes on, adds nothing (`AddsNothing`; `QuietFrom` is the plain case, no
descriptor there).
-/

namespace Drunix.Ext3

open Lib Blk

/-! ## A descriptor and its tags -/

variable {blk : Buf} {ov : List BlockImage} {sc : Scan}

section Tags

variable {first maxlen : Nat}

theorem tagFlags_spec (last : Bool) (data : Buf) :
    tagFlags last data < 4294967296 ∧ (tagFlags last data).testBit 1 = true ∧
      (tagFlags last data).testBit 3 = last ∧
      (tagFlags last data).testBit 0 = decide (be32 data 0 = jbdMagic) := by
  unfold tagFlags
  by_cases hm : be32 data 0 = jbdMagic <;> cases last <;> simp [hm] <;> decide

/-- The block has the tags of `ps` from the offset `off` on. -/
def HasTags (blk : Buf) : Nat → List BlockImage → Prop
  | _, [] => True
  | off, p :: ps =>
    be32 blk off = p.1 ∧ be32 blk (off + 4) = tagFlags ps.isEmpty p.2 ∧ HasTags blk (off + 8) ps

theorem putTags_below (ps : List BlockImage) : ∀ {desc : Buf} {off o : Nat}, o + 4 ≤ off →
    be32 (putTags desc off ps) o = be32 desc o := by
  induction ps with
  | nil => exact fun _ => rfl
  | cons p ps ih =>
    intro desc off o ho
    unfold putTags
    rw [ih (by omega), be32_putBe32_ne _ _ (by omega), be32_putBe32_ne _ _ (by omega)]

theorem putTags_hasTags (ps : List BlockImage) (hps : ∀ p ∈ ps, p.1 < 4294967296) :
    ∀ (desc : Buf) (off : Nat), HasTags (putTags desc off ps) off ps := by
  induction ps with
  | nil => exact fun _ _ => trivial
  | cons p ps ih =>
    intro desc off
    have hp := hps p List.mem_cons_self
    unfold putTags
    refine ⟨?_, ?_, ih (fun q hq => hps q (List.mem_cons_of_mem _ hq)) _ _⟩
    · rw [putTags_below ps (by omega), be32_putBe32_ne _ _ (by omega), be32_putBe32 hp]
    · rw [putTags_below ps (by omega), be32_putBe32 (tagFlags_spec _ _).1]

/-- The tags of `ps`, with their data from position `pos` on. -/
def tagsFrom : Nat → List BlockImage → List Tag
  | _, [] => []
  | pos, p :: ps => ⟨p.1, pos, tagFlags ps.isEmpty p.2⟩ :: tagsFrom (pos + 1) ps

theorem jbdNext_of_lt {cur : Nat} (h : cur + 1 < maxlen) : jbdNext cur first maxlen = cur + 1 :=
  if_neg (by omega)

/-- The reader finds the writer's tags, or refuses them. -/
theorem parseTags_hasTags (ps : List BlockImage) :
    ∀ {rounds off pos : Nat} {tags : List Tag}, ps ≠ [] → HasTags blk off ps →
      off + ps.length * 8 ≤ 4096 → pos + ps.length < maxlen → rounds + tags.length = 65 →
      tags.length ≤ 64 →
      parseTags 4096 first maxlen blk rounds off pos tags =
        if (∀ p ∈ ps, p.1 ≠ 0) ∧ tags.length + ps.length ≤ 64 then
          some (tags ++ tagsFrom pos ps, pos + ps.length)
        else none := by
  induction ps with
  | nil => exact fun hne => absurd rfl hne
  | cons p ps ih =>
    intro rounds off pos tags _ htags hfit hpos hrounds hlen
    obtain ⟨hblock, hflags, hrest⟩ := htags
    obtain ⟨-, hbit1, hbit3, -⟩ := tagFlags_spec ps.isEmpty p.2
    rw [List.length_cons] at hfit hpos
    obtain ⟨rounds, rfl⟩ : ∃ n, rounds = n + 1 := ⟨rounds - 1, by omega⟩
    unfold parseTags
    rw [if_pos (by omega), hblock, hflags]
    dsimp only
    rw [hbit1, hbit3]
    by_cases hbad : p.1 = 0 ∨ tags.length ≥ 64
    · rw [if_pos (by simp only [if_true]; omega), if_neg]
      intro hc
      have hp := hc.1 p List.mem_cons_self
      have hle := hc.2
      rw [List.length_cons] at hle
      omega
    · rw [if_neg (by simp only [if_true]; omega), jbdNext_of_lt (by omega)]
      cases ps with
      | nil =>
        rw [if_pos (by rfl), if_pos]
        · rfl
        · refine ⟨fun q hq => ?_, by rw [List.length_singleton]; omega⟩
          rw [List.mem_singleton.mp hq]
          omega
      | cons q qs =>
        rw [if_neg (by simp), if_pos rfl, ih (by simp) hrest (by omega) (by omega)
          (by rw [List.length_append, List.length_singleton]; omega)
          (by rw [List.length_append, List.length_singleton]; omega)]
        rw [List.length_append, List.length_singleton, List.append_assoc]
        have hcond : ((∀ p' ∈ q :: qs, p'.1 ≠ 0) ∧ tags.length + 1 + (q :: qs).length ≤ 64) ↔
            (∀ p' ∈ p :: q :: qs, p'.1 ≠ 0) ∧ tags.length + (p :: q :: qs).length ≤ 64 := by
          rw [List.forall_mem_cons (a := p), List.length_cons (a := p)]
          constructor
          · exact fun hc => ⟨⟨by omega, hc.1⟩, by omega⟩
          · exact fun hc => ⟨hc.1.2, by omega⟩
        simp only [hcond]
        congr 3
        rw [List.length_cons (a := p)]
        omega

theorem descriptorBlock_header (seq : Nat) (hseq : seq < 4294967296) (tx : List BlockImage) :
    be32 (descriptorBlock seq tx) 0 = jbdMagic ∧ be32 (descriptorBlock seq tx) 4 = 1 ∧
      be32 (descriptorBlock seq tx) 8 = seq := by
  unfold descriptorBlock jbdWriteHeader
  refine ⟨?_, ?_, ?_⟩
  · rw [putTags_below tx (by decide), be32_putBe32_ne _ _ (by decide),
      be32_putBe32_ne _ _ (by decide), be32_putBe32 (by decide)]
  · rw [putTags_below tx (by decide), be32_putBe32_ne _ _ (by decide), be32_putBe32 (by decide)]
  · rw [putTags_below tx (by decide), be32_putBe32 hseq]

theorem commitBlock_header (seq : Nat) (hseq : seq < 4294967296) :
    be32 (commitBlock seq) 0 = jbdMagic ∧ be32 (commitBlock seq) 4 = 2 ∧
      be32 (commitBlock seq) 8 = seq := by
  unfold commitBlock jbdWriteHeader
  refine ⟨?_, ?_, ?_⟩
  · rw [be32_putBe32_ne _ _ (by decide), be32_putBe32_ne _ _ (by decide), be32_putBe32 (by decide)]
  · rw [be32_putBe32_ne _ _ (by decide), be32_putBe32 (by decide)]
  · rw [be32_putBe32 hseq]

/-- What the reader makes of a descriptor in block 1. -/
theorem parse_descriptorBlock {tx : List BlockImage} (htx : tx ≠ [])
    (hblocks : ∀ p ∈ tx, p.1 < 4294967296) (hfit : 12 + tx.length * 8 ≤ 4096)
    (hlen : tx.length + 2 < maxlen) (seq : Nat) :
    jbdParseDescriptor 4096 (descriptorBlock seq tx) 1 first maxlen =
      if (∀ p ∈ tx, p.1 ≠ 0) ∧ tx.length ≤ 64 then some (tagsFrom 2 tx, 2 + tx.length) else none := by
  unfold jbdParseDescriptor
  rw [jbdNext_of_lt (by omega)]
  have hparse : parseTags 4096 first maxlen (descriptorBlock seq tx) 65 12 2 [] = _ :=
    parseTags_hasTags tx htx (putTags_hasTags tx hblocks _ 12) hfit (by omega) rfl (by simp)
  rwa [List.length_nil, Nat.zero_add, List.nil_append] at hparse

/-- A data block comes out of the log as it went in. -/
theorem unescape_escapeBlock {data : Buf} (h : Clipped 4096 data) (last : Bool) :
    unescape (tagFlags last data) (escapeBlock 4096 data) = data := by
  unfold unescape escapeBlock
  rw [(tagFlags_spec last data).2.2.2, memcpy_fresh h]
  by_cases hm : be32 data 0 = jbdMagic
  · rw [if_pos (by simpa using hm), if_pos hm, ← hm]
    exact putBe32_be32 fun i hi => if_neg (by omega)
  · rw [if_neg (by simpa using hm), if_neg hm]

end Tags

/-! ## The scan of a log with one transaction -/

/-- The overlays a replay of `tx` can have: no image of any other block. -/
def Within (tx ov : List BlockImage) : Prop := ∀ b, findImage tx b = none → findImage ov b = none

/-- A log that holds the blocks of `blocks` at its first `n` positions, under every overlay
that a replay of `tx` can have. -/
def LogHolds (log : Log) (tx : List BlockImage) (n : Nat) (blocks : Nat → Buf) : Prop :=
  ∀ ov, Within tx ov → ∀ l < n, log ov l = some (blocks l)

theorem findImage_none_iff {images : List BlockImage} {b : Nat} :
    findImage images b = none ↔ b ∉ images.map Prod.fst := by
  unfold findImage
  simp only [Option.map_eq_none_iff, List.find?_eq_none, decide_eq_true_eq, List.mem_map, not_exists,
    not_and]

theorem within_append {tx rest : List BlockImage} (h : tx = ov ++ rest) : Within tx ov := by
  intro b hb
  rw [findImage_none_iff] at hb ⊢
  rw [h, List.map_append] at hb
  exact fun hc => hb (List.mem_append_left _ hc)

theorem findImage_map (images : List BlockImage) (b : Nat) (data : Buf) (k : Nat) :
    findImage (images.map fun p => if p.1 = b then (p.1, data) else p) k =
      if b = k then (findImage images k).map fun _ => data else findImage images k := by
  unfold findImage
  induction images with
  | nil => simp
  | cons p images ih =>
    have hkey : (if p.1 = b then (p.1, data) else p).1 = p.1 := by split <;> rfl
    rw [List.map_cons, List.find?_cons, List.find?_cons, hkey]
    by_cases hp : p.1 = k
    · rw [hp]
      by_cases hb : k = b
      · simp [hb]
      · simp [hb, Ne.symm hb]
    · simp only [hp, decide_false]
      exact ih

theorem findImage_putImage {ov' : List BlockImage} {b : Nat} {data : Buf} (h : putImage ov b data = some ov') (k : Nat) :
    findImage ov' k = (if b = k then some data else none).or (findImage ov k) := by
  unfold putImage at h
  split at h
  next hfound =>
    cases h
    obtain ⟨old, hold⟩ := Option.isSome_iff_exists.mp hfound
    rw [findImage_map]
    split
    next hb => rw [← hb, hold]; rfl
    · rfl
  next hnew =>
  split at h
  · cases h
    have hnone : findImage ov b = none := Option.not_isSome_iff_eq_none.mp hnew
    unfold findImage at hnone ⊢
    rw [List.find?_append, Option.map_or]
    by_cases hb : b = k
    · rw [← hb, hnone, if_pos rfl]
      simp
    · simp [hb]
  · cases h

/-- What becomes of the first image of a transaction. -/
theorem logApply_cons (log : Log) (revokes : List Nat) (t : Tag) (ts : List Tag)
    (ov : List BlockImage) :
    logApply log revokes (t :: ts) ov =
      if t.fsBlock ∈ revokes then logApply log revokes ts ov
      else match log ov t.journalBlock with
        | none => .error .fail ov
        | some data =>
          match putImage ov t.fsBlock (unescape t.flags data) with
          | none => .error .fail ov
          | some ov1 => logApply log revokes ts ov1 := by
  rw [logApply]
  by_cases hrev : t.fsBlock ∈ revokes
  · rw [if_pos hrev, if_pos (List.contains_iff_mem.mpr hrev)]
  rw [if_neg hrev, if_neg fun hc => hrev (List.contains_iff_mem.mp hc), run_bind]
  unfold logRead
  cases log ov t.journalBlock with
  | none => rfl
  | some data =>
    dsimp only
    rw [run_bind]
    unfold logPut
    cases putImage ov t.fsBlock (unescape t.flags data) <;> rfl

/-! ## Two logs with the same blocks -/

section Grows

variable {log : Log} {first maxlen b : Nat} {revokes : List Nat}

/-- What the overlay has an image of stays in it. -/
theorem logApply_grows (tags : List Tag) : ∀ {ov : List BlockImage}, findImage ov b ≠ none →
    Ends (logApply log revokes tags) ov (fun _ ov' => findImage ov' b ≠ none) fun _ _ => True := by
  induction tags with
  | nil => exact fun h => h
  | cons t ts ih =>
    intro ov h
    unfold Ends
    rw [logApply_cons]
    by_cases hrev : t.fsBlock ∈ revokes
    · rw [if_pos hrev]
      exact ih h
    · rw [if_neg hrev]
      cases log ov t.journalBlock with
      | none => trivial
      | some data =>
        dsimp only
        cases hput : putImage ov t.fsBlock (unescape t.flags data) with
        | none => trivial
        | some ov1 =>
          refine ih ?_
          rw [findImage_putImage hput]
          split
          · simp
          · exact h

theorem logLoop_grows (rounds : Nat) : ∀ {sc : Scan} {ov : List BlockImage}, findImage ov b ≠ none →
    Ends (logLoop log first maxlen rounds sc) ov (fun _ ov' => findImage ov' b ≠ none)
      fun _ _ => True := by
  induction rounds with
  | zero =>
    intro sc ov h
    unfold logLoop
    split
    · trivial
    · exact h
  | succ rounds ih =>
    intro sc ov h
    unfold logLoop
    split
    · have hround : Ends (logRound log first maxlen sc) ov (fun _ ov' => findImage ov' b ≠ none)
          fun _ _ => True := by
        refine (ends_logRead log sc.pos ov).bind (fun blk ov1 hb => ?_) fun _ _ _ => trivial
        obtain ⟨-, rfl⟩ := hb
        split
        · exact h
        · refine (logRecord_rule trivial h (fun _ _ _ _ => h) (fun _ => h)
            (logApply_grows _ h)).bind (fun _ _ hr => hr) fun _ _ _ => trivial
      refine hround.bind (fun r ov1 hr => ?_) fun _ _ _ => trivial
      cases r with
      | none => exact hr
      | some p => exact ih hr
    · exact h

/-- An overlay that grows into one of `tx` has been one all the time. -/
theorem Within.before {tx : List BlockImage} (ov ov' : List BlockImage)
    (hgrows : ∀ b, findImage ov b ≠ none → findImage ov' b ≠ none) (hov' : Within tx ov') :
    Within tx ov := by
  intro b hb
  by_contra hne
  exact hgrows b hne (hov' b hb)

end Grows

section OneTransaction

variable {log : Log} {tx : List BlockImage} {n : Nat} {blocks : Nat → Buf}

/-- The log has the data blocks of `ps` from position `pos` on. -/
def HasData (blocks : Nat → Buf) : Nat → List BlockImage → Prop
  | _, [] => True
  | pos, p :: ps => blocks pos = escapeBlock 4096 p.2 ∧ HasData blocks (pos + 1) ps

section

variable (hlog : LogHolds log tx n blocks) (hnodup : (tx.map Prod.fst).Nodup) (hclip : ∀ p ∈ tx, Clipped 4096 p.2)

include hlog hnodup hclip

/-- The next image goes into the overlay, if there is room. -/
theorem logApply_next {p : BlockImage} {ps : List BlockImage}
    (htx : tx = ov ++ p :: ps) {pos : Nat} (hpos : pos < n)
    (hdata : blocks pos = escapeBlock 4096 p.2) :
    logApply log [] (tagsFrom pos (p :: ps)) ov =
      if ov.length < 32 then logApply log [] (tagsFrom (pos + 1) ps) (ov ++ [p])
      else .error .fail ov := by
  have hp : p ∈ tx := by simp [htx]
  have hnew : findImage ov p.1 = none := by
    rw [findImage_none_iff]
    rw [htx, List.map_append, List.nodup_append] at hnodup
    exact fun hc => hnodup.2.2 _ hc _ (by simp) rfl
  have hread : logRead log pos ov = .ok (blocks pos) ov := by
    unfold logRead
    rw [hlog ov (within_append htx) pos hpos]
  show (do let data ← logRead log pos; logPut p.1 _; _ : LogCall Unit) ov = _
  rw [run_bind, hread]
  dsimp only
  rw [run_bind, hdata, unescape_escapeBlock (hclip p hp)]
  unfold logPut putImage
  rw [hnew]
  by_cases hroom : ov.length < 32
  · rw [if_pos hroom, if_pos hroom]
    rfl
  · rw [if_neg hroom, if_neg hroom]
    rfl

/-- The images of a transaction fill the overlay in its order. -/
theorem logApply_fits (hroom : tx.length ≤ 32) (ps : List BlockImage) :
    ∀ {pos : Nat} {ov : List BlockImage}, tx = ov ++ ps → pos + ps.length ≤ n →
      HasData blocks pos ps → logApply log [] (tagsFrom pos ps) ov = .ok () tx := by
  induction ps with
  | nil =>
    intro pos ov htx _ _
    rw [htx, List.append_nil]
    rfl
  | cons p ps ih =>
    intro pos ov htx hpos hdata
    rw [List.length_cons] at hpos
    have hlen : tx.length = ov.length + (ps.length + 1) := by rw [htx, List.length_append, List.length_cons]
    rw [logApply_next hlog hnodup hclip htx (by omega) hdata.1, if_pos (by omega)]
    exact ih (by rw [htx, List.append_assoc]; rfl) (by omega) hdata.2

/-- A transaction with more images than the overlay takes is given up. -/
theorem logApply_overflows (hroom : 32 < tx.length) (ps : List BlockImage) :
    ∀ {pos : Nat} {ov : List BlockImage}, tx = ov ++ ps → ov.length ≤ 32 → pos + ps.length ≤ n →
      HasData blocks pos ps → ∃ ov', logApply log [] (tagsFrom pos ps) ov = .error .fail ov' := by
  induction ps with
  | nil =>
    intro pos ov htx hov _ _
    rw [htx, List.append_nil] at hroom
    omega
  | cons p ps ih =>
    intro pos ov htx hov hpos hdata
    rw [List.length_cons] at hpos
    rw [logApply_next hlog hnodup hclip htx (by omega) hdata.1]
    split
    next hlt =>
      exact ih (by rw [htx, List.append_assoc]; rfl)
        (by rw [List.length_append, List.length_singleton]; omega) (by omega) hdata.2
    · exact ⟨ov, rfl⟩

end

variable {first maxlen : Nat}

theorem tagsFrom_length (ps : List BlockImage) : ∀ pos, (tagsFrom pos ps).length = ps.length := by
  induction ps with
  | nil => exact fun _ => rfl
  | cons p ps ih => exact fun pos => congrArg Nat.succ (ih (pos + 1))

theorem skipTo_straight (k : Nat) : ∀ {pos : Nat} (scanned : Nat), pos + k < maxlen →
    skipTo first maxlen (pos + k) k (pos, scanned) = (pos + k, scanned + k) := by
  induction k with
  | zero => exact fun _ _ => rfl
  | succ k ih =>
    intro pos scanned h
    unfold skipTo
    rw [if_neg (by simp), jbdNext_of_lt (by omega), show pos + (k + 1) = pos + 1 + k by omega,
      ih (scanned + 1) (by omega)]
    congr 1
    omega

section Agree

variable {log' : Log} {revokes : List Nat} {Ok : List BlockImage → Prop}
  (h : ∀ ov, Ok ov → ∀ l < maxlen, log ov l = log' ov l)
  (hback : ∀ ov ov', (∀ b, findImage ov b ≠ none → findImage ov' b ≠ none) → Ok ov' → Ok ov)

include h hback

theorem logApply_agree (tags : List Tag) (htags : ∀ t ∈ tags, t.journalBlock < maxlen) :
    ∀ {ov ov' : List BlockImage}, logApply log revokes tags ov = .ok () ov' → Ok ov' →
      logApply log' revokes tags ov = .ok () ov' := by
  induction tags with
  | nil => exact fun hx _ => hx
  | cons t ts ih =>
    intro ov ov' hx hov'
    have hts : ∀ u ∈ ts, u.journalBlock < maxlen := fun u hu => htags u (List.mem_cons_of_mem t hu)
    have hov : Ok ov := hback ov ov' (fun b hb => (logApply_grows _ hb).of_ok hx) hov'
    rw [logApply_cons, h ov hov _ (htags t List.mem_cons_self)] at hx
    rw [logApply_cons]
    split at hx
    next hrev =>
      rw [if_pos hrev]
      exact ih hts hx hov'
    next hrev =>
      rw [if_neg hrev]
      cases hread : log' ov t.journalBlock with
      | none =>
        rw [hread] at hx
        cases hx
      | some data =>
        rw [hread] at hx
        dsimp only at hx ⊢
        split at hx
        · cases hx
        · exact ih hts hx hov'

theorem logRecord_agree (htags : ∀ t ∈ sc.tags, t.journalBlock < maxlen) {r : Option Scan}
    {ov' : List BlockImage} (hx : logRecord log first maxlen sc blk ov = .ok r ov')
    (hov' : Ok ov') : logRecord log' first maxlen sc blk ov = .ok r ov' := by
  unfold logRecord at hx ⊢
  split at hx
  next h1 => rwa [if_pos h1]
  next h1 =>
  rw [if_neg h1]
  split at hx
  next h5 => rwa [if_pos h5]
  next h5 =>
  rw [if_neg h5]
  split at hx
  next h2 =>
    rw [if_pos h2]
    split at hx
    next hc =>
      rw [if_pos hc, run_bind]
      rw [run_bind] at hx
      cases happ : logApply log sc.revokes sc.tags ov with
      | error e ov1 =>
        rw [happ] at hx
        cases hx
      | ok u ov1 =>
        rw [happ] at hx
        cases hx
        rw [logApply_agree h hback _ htags happ hov']
        rfl
    next hc => rwa [if_neg hc]
  next h2 => rwa [if_neg h2]

/-- A scan that ends well is the same over two logs that agree on the positions of the log. -/
theorem logLoop_agree (hf : first < maxlen) (rounds : Nat) :
    ∀ {sc : Scan} {ov ov' : List BlockImage}, sc.pos < maxlen →
      (∀ t ∈ sc.tags, t.journalBlock < maxlen) →
      logLoop log first maxlen rounds sc ov = .ok () ov' → Ok ov' →
      logLoop log' first maxlen rounds sc ov = .ok () ov' := by
  induction rounds with
  | zero => exact fun _ _ hx _ => hx
  | succ rounds ih =>
    intro sc ov ov' hpos htags hx hov'
    have hov : Ok ov := hback ov ov' (fun b hb => (logLoop_grows _ hb).of_ok hx) hov'
    unfold logLoop at hx ⊢
    split at hx
    next hlt =>
      rw [if_pos hlt, run_bind, logRound_eq]
      rw [run_bind, logRound_eq, h ov hov _ hpos] at hx
      cases hread : log' ov sc.pos with
      | none =>
        rw [hread] at hx
        cases hx
      | some blk =>
      rw [hread] at hx
      dsimp only at hx ⊢
      by_cases hmagic : be32 blk 0 ≠ jbdMagic
      · rw [if_pos hmagic] at hx ⊢
        exact hx
      rw [if_neg hmagic] at hx ⊢
      cases hrec : logRecord log first maxlen sc blk ov with
      | error e ov1 =>
        rw [hrec] at hx
        cases hx
      | ok r ov1 =>
        rw [hrec] at hx
        cases r with
        | none =>
          cases hx
          rw [logRecord_agree h hback htags hrec hov']
          rfl
        | some sc1 =>
          have hov1 : Ok ov1 := hback ov1 ov' (fun b hb => (logLoop_grows _ hb).of_ok hx) hov'
          rw [logRecord_agree h hback htags hrec hov1]
          have hpass := (logRecord_passes log ov).of_ok hrec sc1 rfl
          refine ih (hpass.counts hf hpos).1 ?_ hx hov'
          exact (logRecord_positions hf htags).of_ok hrec sc1 rfl
    next hlt => rwa [if_neg hlt]

end Agree

/-- A round that finds a record. -/
theorem logRound_record (hlog : log ov sc.pos = some blk) (hmagic : be32 blk 0 = jbdMagic) :
    logRound log first maxlen sc ov =
      match logRecord log first maxlen sc blk ov with
      | .ok r ov' => .ok (r.map fun sc => (sc, blk)) ov'
      | .error e ov' => .error e ov' := by
  rw [logRound_eq, hlog]
  exact if_neg (not_not.mpr hmagic)

/-- A round that finds no record. -/
theorem logRound_plain (hlog : log ov sc.pos = some blk) (hmagic : be32 blk 0 ≠ jbdMagic) :
    logRound log first maxlen sc ov = .ok none ov := by
  rw [logRound_eq, hlog]
  exact if_pos hmagic

/-- Outside a transaction a record that is no descriptor is passed, or ends the scan. -/
theorem logRecord_inactive (hactive : sc.active = false)
    (htype : be32 blk 4 ≠ 1) (ov : List BlockImage) :
    logRecord log first maxlen sc blk ov =
      .ok (if 2 ≤ be32 blk 4 ∧ be32 blk 4 ≤ 5 then some (sc.advance first maxlen) else none) ov := by
  unfold logRecord
  rw [if_neg htype, hactive]
  by_cases h5 : be32 blk 4 = 5
  · rw [if_pos h5, if_neg (by simp), if_pos (by omega)]
    rfl
  rw [if_neg h5]
  by_cases h2 : be32 blk 4 = 2
  · rw [if_pos h2, if_neg (by simp), if_pos (by omega)]
    rfl
  rw [if_neg h2]
  by_cases h34 : be32 blk 4 = 3 ∨ be32 blk 4 = 4
  · rw [if_pos h34, if_pos (by omega)]
    rfl
  · rw [if_neg h34, if_neg (by omega)]
    rfl

/-- Records behind the transaction that change nothing: no descriptor comes before the scan
ends. -/
def QuietFrom (blocks : Nat → Buf) : Nat → Nat → Prop
  | 0, _ => True
  | rounds + 1, pos => be32 (blocks pos) 0 = jbdMagic → be32 (blocks pos) 4 ≠ 1 ∧
      (2 ≤ be32 (blocks pos) 4 ∧ be32 (blocks pos) 4 ≤ 5 → QuietFrom blocks rounds (pos + 1))

/-- A round that finds no record to pass is the last. -/
theorem logLoop_last {ov' : List BlockImage} (hlt : sc.scanned < maxlen - first)
    (hround : logRound log first maxlen sc ov = .ok none ov') (rounds : Nat) :
    logLoop log first maxlen (rounds + 1) sc ov = .ok () ov' := by
  unfold logLoop
  rw [if_pos hlt, run_bind, hround]
  rfl

/-- A round that fails ends the scan. -/
theorem logLoop_error {ov' : List BlockImage} {e : Stop} (hlt : sc.scanned < maxlen - first)
    (hround : logRound log first maxlen sc ov = .error e ov') (rounds : Nat) :
    logLoop log first maxlen (rounds + 1) sc ov = .error e ov' := by
  unfold logLoop
  rw [if_pos hlt, run_bind, hround]

/-- All positions are counted. -/
theorem logLoop_over (hover : ¬ sc.scanned < maxlen - first) (rounds : Nat)
    (ov : List BlockImage) : logLoop log first maxlen rounds sc ov = .ok () ov := by
  cases rounds <;> unfold logLoop <;> rw [if_neg hover] <;> rfl

theorem logLoop_quiet (hlog : LogHolds log tx maxlen blocks) (hov : Within tx ov) (rounds : Nat) :
    ∀ {sc : Scan} {fuel : Nat}, rounds ≤ fuel → sc.active = false →
      sc.scanned + rounds = maxlen - first → sc.pos + rounds ≤ maxlen →
      QuietFrom blocks rounds sc.pos → logLoop log first maxlen fuel sc ov = .ok () ov := by
  induction rounds with
  | zero =>
    intro sc fuel _ _ hcount _ _
    exact logLoop_over (by omega) fuel ov
  | succ rounds ih =>
    intro sc fuel hfuel hactive hcount hpos hquiet
    obtain ⟨fuel, rfl⟩ : ∃ n, fuel = n + 1 := ⟨fuel - 1, by omega⟩
    have hlt : sc.scanned < maxlen - first := by omega
    have hblk := hlog ov hov sc.pos (by omega)
    by_cases hmagic : be32 (blocks sc.pos) 0 = jbdMagic
    · obtain ⟨htype, hq⟩ := hquiet hmagic
      have hround : logRound log first maxlen sc ov = _ := logRound_record hblk hmagic
      rw [logRecord_inactive hactive htype] at hround
      by_cases hpass : 2 ≤ be32 (blocks sc.pos) 4 ∧ be32 (blocks sc.pos) 4 ≤ 5
      · rw [if_pos hpass] at hround
        have hstep : LogStep log first maxlen (sc, ov) (sc.advance first maxlen, ov) :=
          ⟨hlt, _, hround⟩
        rw [hstep.loop fuel]
        cases rounds with
        | zero => exact logLoop_over (by show ¬ sc.scanned + 1 < _; omega) fuel ov
        | succ rounds =>
          have hp : (sc.advance first maxlen).pos = sc.pos + 1 := jbdNext_of_lt (by omega)
          refine ih (by omega) hactive ?_ ?_ ?_
          · show sc.scanned + 1 + (rounds + 1) = _
            omega
          · rw [hp]
            omega
          · rw [hp]
            exact hq hpass
      · rw [if_neg hpass] at hround
        exact logLoop_last hlt hround fuel
    · refine logLoop_last hlt ?_ fuel
      exact logRound_plain hblk hmagic

/-- The log has the transaction `tx`, with the sequence number `seq`, from block 1 on. -/
structure HasTx (blocks : Nat → Buf) (tx : List BlockImage) (seq : Nat) : Prop where
  descriptor : blocks 1 = descriptorBlock seq tx
  data : HasData blocks 2 tx
  commit : blocks (2 + tx.length) = commitBlock seq

/-- The variables behind the descriptor. -/
def Scan.inTx (tx : List BlockImage) (seq : Nat) : Scan :=
  ⟨2 + tx.length, tx.length + 1, seq, tagsFrom 2 tx, [], true⟩

/-- What writer and reader agree on before the limits. -/
structure TxFits (tx : List BlockImage) (seq maxlen : Nat) : Prop where
  ne : tx ≠ []
  nodup : (tx.map Prod.fst).Nodup
  clip : ∀ p ∈ tx, Clipped 4096 p.2
  blocks : ∀ p ∈ tx, p.1 < 4294967296
  seq : seq < 4294967296
  room : tx.length + 2 < maxlen
  fit : 12 + tx.length * 8 ≤ 4096

section Rounds

variable {seq : Nat} {jsb : Buf}

/-- The descriptor is read, or the replay gives up. -/
theorem logRound_descriptor (hlog : LogHolds log tx maxlen blocks) (hfit : TxFits tx seq maxlen)
    (htx : HasTx blocks tx seq) (hpos : sc.pos = 1) (hscanned : sc.scanned = 0) :
    logRound log first maxlen sc [] =
      if (∀ p ∈ tx, p.1 ≠ 0) ∧ tx.length ≤ 64 then
        .ok (some (Scan.inTx tx seq, descriptorBlock seq tx)) []
      else .error .fail [] := by
  have hroom := hfit.room
  obtain ⟨hmagic, htype, hseq⟩ := descriptorBlock_header seq hfit.seq tx
  have hblk : log [] sc.pos = some (descriptorBlock seq tx) := by
    rw [hpos, ← htx.descriptor]
    exact hlog [] (within_append (List.nil_append tx).symm) 1 (by omega)
  rw [logRound_record hblk hmagic]
  unfold logRecord
  rw [if_pos htype, hpos, parse_descriptorBlock hfit.ne hfit.blocks hfit.fit hroom, hscanned, hseq]
  by_cases hok : (∀ p ∈ tx, p.1 ≠ 0) ∧ tx.length ≤ 64
  · have hskip : skipTo first maxlen (2 + tx.length) ((tagsFrom 2 tx).length + 1) (1, 0) =
        (2 + tx.length, tx.length + 1) := by
      rw [tagsFrom_length, show 2 + tx.length = 1 + (tx.length + 1) by omega,
        skipTo_straight _ _ (by omega), Nat.zero_add]
    rw [if_pos hok, if_pos hok]
    dsimp only
    rw [hskip]
    rfl
  · rw [if_neg hok, if_neg hok]
    rfl

/-- The commit record: the images go into the overlay. -/
theorem logRecord_commit (hfit : TxFits tx seq maxlen) :
    logRecord log first maxlen (Scan.inTx tx seq) (commitBlock seq) ov =
      match logApply log [] (tagsFrom 2 tx) ov with
      | .ok _ ov' => .ok (some ({ Scan.inTx tx seq with
          active := false, tags := [], revokes := [] }.advance first maxlen)) ov'
      | .error e ov' => .error e ov' := by
  obtain ⟨-, htype, hseq⟩ := commitBlock_header seq hfit.seq
  unfold logRecord
  rw [if_neg (by omega), if_neg (by omega), if_pos htype, hseq, if_pos (by simp [Scan.inTx]), run_bind,
    show (Scan.inTx tx seq).revokes = [] from rfl, show (Scan.inTx tx seq).tags = tagsFrom 2 tx from rfl]
  cases logApply log [] (tagsFrom 2 tx) ov <;> rfl

/-- The variables behind the commit record. -/
def Scan.behind (tx : List BlockImage) (seq first maxlen : Nat) : Scan :=
  ⟨jbdNext (2 + tx.length) first maxlen, tx.length + 2, seq, [], [], false⟩

/-- The scan of a log with the transaction `tx` comes to the end of it, or does not. -/
theorem scan_one (hlog : LogHolds log tx maxlen blocks) (hfit : TxFits tx seq maxlen)
    (htx : HasTx blocks tx seq) (hf : first < maxlen) (sc : Scan)
    (hpos : sc.pos = 1) (hscanned : sc.scanned = 0) :
    if (∀ p ∈ tx, p.1 ≠ 0) ∧ tx.length ≤ 32 ∧ first + tx.length + 1 < maxlen then
      logLoop log first maxlen (maxlen - first) sc [] =
        logLoop log first maxlen (maxlen - first - 2) (Scan.behind tx seq first maxlen) tx
    else Ends (logLoop log first maxlen (maxlen - first) sc) [] (fun _ ov => ov = [])
      fun e _ => e = .fail := by
  have hnil : Within tx [] := within_append (List.nil_append tx).symm
  obtain ⟨n, hn⟩ : ∃ n, maxlen - first = n + 1 := ⟨maxlen - first - 1, by omega⟩
  have hlt : sc.scanned < maxlen - first := by omega
  have hdesc : logRound log first maxlen sc [] = _ := logRound_descriptor hlog hfit htx hpos hscanned
  unfold Ends
  rw [hn]
  by_cases h64 : (∀ p ∈ tx, p.1 ≠ 0) ∧ tx.length ≤ 64
  case neg =>
    rw [if_neg h64] at hdesc
    rw [if_neg (fun hc => h64 ⟨hc.1, by omega⟩), logLoop_error hlt hdesc n]
  rw [if_pos h64] at hdesc
  have hstep : LogStep log first maxlen (sc, []) (Scan.inTx tx seq, []) := ⟨hlt, _, hdesc⟩
  rw [hstep.loop n]
  dsimp only
  have hcount' : (Scan.inTx tx seq).scanned = tx.length + 1 := rfl
  have hpos' : (Scan.inTx tx seq).pos = 2 + tx.length := rfl
  by_cases hcount : first + tx.length + 1 < maxlen
  case neg =>
    rw [if_neg (fun hc => hcount hc.2.2), logLoop_over (by omega) n []]
  have hroom := hfit.room
  -- the commit record lies within the positions counted
  obtain ⟨m, rfl⟩ : ∃ m, n = m + 1 := ⟨n - 1, by omega⟩
  have hblk : log [] (Scan.inTx tx seq).pos = some (commitBlock seq) := by
    rw [← htx.commit, hpos']
    exact hlog [] hnil _ (by omega)
  have hround : logRound log first maxlen (Scan.inTx tx seq) [] = _ :=
    logRound_record hblk (commitBlock_header seq hfit.seq).1
  rw [logRecord_commit hfit] at hround
  by_cases h32 : tx.length ≤ 32
  · rw [if_pos ⟨h64.1, h32, hcount⟩]
    rw [logApply_fits hlog hfit.nodup hfit.clip h32 tx (List.nil_append tx).symm
      (by omega) htx.data] at hround
    have hstep' : LogStep log first maxlen (Scan.inTx tx seq, []) (_, tx) :=
      ⟨by dsimp only; omega, _, hround⟩
    rw [hstep'.loop m]
    rfl
  · obtain ⟨ov', happly⟩ := logApply_overflows hlog hfit.nodup hfit.clip (by omega) tx
      (List.nil_append tx).symm (Nat.zero_le 32) (by omega) htx.data
    rw [happly] at hround
    rw [if_neg (fun hc => h32 hc.2.1), logLoop_error (by omega) hround m]

/-- The scan of `blocks` from behind the commit record on, with the images of `tx` in the
overlay, succeeds and leaves them as they are. -/
def AddsNothing (blocks : Nat → Buf) (tx : List BlockImage) (seq first maxlen : Nat) : Prop :=
  ∃ ov, logLoop (fun _ l => some (blocks l)) first maxlen (maxlen - first - 2)
      (Scan.behind tx seq first maxlen) tx = .ok () ov ∧ ∀ b, findImage ov b = findImage tx b

/-- The plain case: no descriptor comes before the scan ends. -/
theorem QuietFrom.addsNothing (hf' : 0 < first) (hlen : first + tx.length + 1 < maxlen)
    (h : QuietFrom blocks (maxlen - first - (tx.length + 2)) (3 + tx.length)) :
    AddsNothing blocks tx seq first maxlen := by
  refine ⟨tx, ?_, fun _ => rfl⟩
  obtain ⟨rest, hrest⟩ : ∃ rest, maxlen - first - (tx.length + 2) = rest := ⟨_, rfl⟩
  rw [hrest] at h
  cases rest with
  | zero => exact logLoop_over (by show ¬ tx.length + 2 < _; omega) _ tx
  | succ rest =>
    have hnext : jbdNext (2 + tx.length) first maxlen = 3 + tx.length := by
      rw [jbdNext_of_lt (by omega)]
      omega
    have hstill : LogHolds (fun _ l => some (blocks l)) tx maxlen blocks := fun _ _ _ _ => rfl
    refine logLoop_quiet hstill (fun _ hb => hb) (rest + 1) (by omega) rfl ?_ ?_ ?_
    · show tx.length + 2 + (rest + 1) = _
      omega
    · show jbdNext (2 + tx.length) first maxlen + (rest + 1) ≤ maxlen
      omega
    · show QuietFrom blocks (rest + 1) (jbdNext (2 + tx.length) first maxlen)
      rw [hnext]
      exact h

/-- What the scan finds behind the commit record is what `blocks` has there. -/
theorem LogHolds.addsNothing (h : LogHolds log tx maxlen blocks) (hf : first < maxlen) :
    (∃ ov, logLoop log first maxlen (maxlen - first - 2) (Scan.behind tx seq first maxlen) tx =
      .ok () ov ∧ ∀ b, findImage ov b = findImage tx b) ↔
      AddsNothing blocks tx seq first maxlen := by
  have hwithin : ∀ ov : List BlockImage, (∀ b, findImage ov b = findImage tx b) → Within tx ov :=
    fun ov hmap b hb => (hmap b).trans hb
  refine exists_congr fun ov => and_congr_left fun hmap => ⟨fun hx => ?_, fun hx => ?_⟩
  · exact logLoop_agree h Within.before hf _ (jbdNext_lt hf _) nofun hx (hwithin ov hmap)
  · exact logLoop_agree (fun ov hov l hl => (h ov hov l hl).symm) Within.before hf _
      (jbdNext_lt hf _) nofun hx (hwithin ov hmap)

end Rounds

end OneTransaction

/-! ## What the writer leaves -/

section Written

variable {D : Set Nat} {s s' r : Fs} {journal : Buf} {n seq : Nat}

/-- The writes of `jbd_update_super` and `jbd_write_transaction`. -/
def commitWrites (s : Fs) (journal : Buf) (seq : Nat) : List (Key × Buf) :=
  (s.logKey journal 0, superAfter (s.blk.view (s.logKey journal 0)) 1 seq) :: txWrites s journal seq

/-- The blocks of the log after them. -/
def writtenBlocks (s : Fs) (journal : Buf) (seq : Nat) (l : Nat) : Buf :=
  stored s.blk.view (commitWrites s journal seq) (s.logKey journal l)

theorem dataWrites_keys (ps : List BlockImage) : ∀ pos, (dataWrites s journal pos ps).map Prod.fst =
      (List.range' pos ps.length).map (s.logKey journal) := by
  induction ps with
  | nil => exact fun _ => rfl
  | cons p ps ih =>
    intro pos
    rw [dataWrites, List.map_cons, ih (pos + 1)]
    rfl

theorem commitWrites_keys : (commitWrites s journal seq).map Prod.fst =
      (List.range (3 + s.tx.length)).map (s.logKey journal) := by
  rw [commitWrites, txWrites, List.map_cons, List.cons_append, List.map_cons, List.map_append,
    dataWrites_keys, List.range_eq_range', show 3 + s.tx.length = s.tx.length + 1 + 1 + 1 by omega,
    List.range'_succ, List.range'_succ, List.range'_concat]
  simp

theorem Layout.nodup (h : Layout s journal n) (hlen : s.tx.length + 2 < n) (seq : Nat) :
    ((commitWrites s journal seq).map Prod.fst).Nodup := by
  rw [commitWrites_keys]
  refine List.Nodup.map_on (fun l hl l' hl' he => ?_) List.nodup_range
  rw [List.mem_range] at hl hl'
  exact h.apart l (by omega) l' (by omega) he

theorem hasData_of_mem {ws : List (Key × Buf)} (hnodup : (ws.map Prod.fst).Nodup)
    (ps : List BlockImage) : ∀ {pos : Nat}, (∀ w ∈ dataWrites s journal pos ps, w ∈ ws) →
      HasData (fun l => stored s.blk.view ws (s.logKey journal l)) pos ps := by
  induction ps with
  | nil => exact fun _ => trivial
  | cons p ps ih =>
    intro pos hmem
    rw [dataWrites] at hmem
    exact ⟨stored_mem hnodup (hmem _ List.mem_cons_self) _,
      ih fun w hw => hmem w (List.mem_cons_of_mem _ hw)⟩

theorem Layout.hasTx (h : Layout s journal n) (hlen : s.tx.length + 2 < n) (seq : Nat) :
    HasTx (writtenBlocks s journal seq) s.tx seq := by
  have hnodup := h.nodup hlen seq
  refine ⟨?_, ?_, ?_⟩
  · exact stored_mem hnodup (w := (s.logKey journal 1, descriptorBlock seq s.tx))
      (by simp [commitWrites, txWrites]) _
  · refine hasData_of_mem hnodup s.tx fun w hw => ?_
    simp [commitWrites, txWrites, hw]
  · exact stored_mem hnodup (w := (s.logKey journal (2 + s.tx.length), commitBlock seq))
      (by simp [commitWrites, txWrites]) _

theorem Layout.super_written (h : Layout s journal n) (hlen : s.tx.length + 2 < n) (seq : Nat) :
    writtenBlocks s journal seq 0 = superAfter (s.blk.view (s.logKey journal 0)) 1 seq :=
  stored_mem (h.nodup hlen seq)
    (w := (s.logKey journal 0, superAfter (s.blk.view (s.logKey journal 0)) 1 seq))
    (by simp [commitWrites]) _

/-- Behind the commit record the log is as it was. -/
theorem Layout.behind (h : Layout s journal n) {l : Nat} (hl : l < n) (hbehind : 3 + s.tx.length ≤ l) :
    writtenBlocks s journal seq l = s.blk.view (s.logKey journal l) := by
  refine stored_other (fun w hw he => ?_) _
  have hkey : w.1 ∈ (commitWrites s journal seq).map Prod.fst := List.mem_map_of_mem hw
  rw [commitWrites_keys, List.mem_map] at hkey
  obtain ⟨l', hl', hk⟩ := hkey
  rw [List.mem_range] at hl'
  have heq := h.apart l' (by omega) l hl (hk.trans he)
  omega

/-- `jbd_update_super` and `jbd_write_transaction`, as `ext3_commit_tx` calls them. -/
def writeLog (journal : Buf) (seq maxlen : Nat) : Call Unit := do
  jbdUpdateSuper journal 1 seq
  jbdWriteTransaction journal seq maxlen

theorem Layout.writeLog (h : Layout s journal n) (hs : Sound D s) (hov : s.overlay = [])
    (htx : s.tx ≠ []) (hn : 0 < n) (seq : Nat) :
    Ends (Ext3.writeLog journal seq n) s
      (fun _ s' => s.tx.length + 2 < n ∧ 12 + s.tx.length * 8 ≤ 4096 ∧
        Stores D s s' (commitWrites s journal seq))
      fun e _ => e = .fail := by
  have hrefl : Stores D s s [] := (Reads.refl hs).stores
  have hnil : InLog s journal n [] := nofun
  refine (h.updateSuper hs hov hrefl hnil hn 1 seq).bind (fun _ s1 hst1 => ?_) fun _ _ he => he
  exact h.writeTransaction hs hov hst1 (hnil.append (InLog.single hn _)) htx seq

/-- The file system mounted again over the device as `s'` leaves it, before the replay. -/
structure Remounted (D : Set Nat) (s' r : Fs) : Prop where
  sound : Sound D r
  heap : HeapOk r
  tx : r.tx = []
  overlay : r.overlay = []
  dev : r.dev = s'.dev
  disk : r.blk.disk.bytes = s'.blk.disk.bytes
  saved : Saved D r.blk

theorem Remounted.cached (h : Remounted D s' r) (hs' : Sound D s') (hsaved : Saved D s'.blk) (b : Nat) :
    r.cached b = s'.cached b := by
  have hhome : r.home b = s'.home b := by
    unfold Fs.home
    rw [h.dev]
  unfold Fs.cached
  rw [h.sound.inv.view_clean (fun hc => hc) (h.saved _ (h.sound.home_mem b)), hhome,
    hs'.inv.view_clean (fun hc => hc) (hsaved _ (hs'.home_mem b))]
  unfold Disk.block
  rw [h.disk]

/-- After the crash the log is what the writer has left. -/
theorem Layout.remounted (h : Layout s journal n) (hs : Sound D s) (hsaved : Saved D s.blk)
    (hst : Stores D s s' (commitWrites s journal seq)) (hlen : s.tx.length + 2 < n)
    (hr : Remounted D s' r) :
    LogHolds (r.log journal) s.tx n (writtenBlocks s journal seq) := by
  have hcached : ∀ b, r.cached b = stored s.blk.view (commitWrites s journal seq) (s.home b) := by
    intro b
    rw [hr.cached (hst.sound hs) (hst.saved hsaved).1, hst.cached hs]
  intro ov hov l hl
  have hindex : indexOf (r.under ov) journal l = indexOf s.cached journal l := by
    refine h.index (fun t htx ht => ?_) hl
    unfold Fs.under
    rw [hr.tx, hov t htx]
    rw [hcached]
    refine stored_other (fun w hw he => ?_) _
    have hkey : w.1 ∈ (commitWrites s journal seq).map Prod.fst := List.mem_map_of_mem hw
    rw [commitWrites_keys, List.mem_map] at hkey
    obtain ⟨l', hl', hk⟩ := hkey
    rw [List.mem_range] at hl'
    exact ht l' (by omega) (he.symm.trans hk.symm)
  unfold Fs.log
  rw [hindex, if_neg (h.mapped l hl), hcached]
  rfl

end Written

/-! ## The round trip -/

/-- The replay succeeds and the overlay is `tx` as a map. -/
def RoundTrip (r : Fs) (tx : List BlockImage) : Prop :=
  ∃ r', ext3ReplayJournal r = .ok () r' ∧ ∀ b, findImage r'.overlay b = findImage tx b

section RoundTrip

variable {D : Set Nat} {r : Fs} {tx : List BlockImage} {journal jsb : Buf}

theorem findImage_ne_nil (h : tx ≠ []) : ∃ b, findImage tx b ≠ findImage [] b := by
  cases tx with
  | nil => exact absurd rfl h
  | cons p ps => exact ⟨p.1, by simp [findImage]⟩

theorem superAfter_fields (jsb : Buf) (seq : Nat) :
    be32 (superAfter jsb 1 seq) 28 = 1 ∧ be32 (superAfter jsb 1 seq) 16 = be32 jsb 16 ∧
      be32 (superAfter jsb 1 seq) 20 = be32 jsb 20 := by
  unfold superAfter
  refine ⟨be32_putBe32 (by decide) _ _, ?_, ?_⟩
  · rw [be32_putBe32_ne _ _ (by decide)]
    split
    · rw [be32_putBe32_ne _ _ (by decide)]
    · rfl
  · rw [be32_putBe32_ne _ _ (by decide)]
    split
    · rw [be32_putBe32_ne _ _ (by decide)]
    · rfl

theorem Fs.openJournal_eq (hjournal : r.inodeIn r.content (Super.journalInum r.super) = journal)
    (hjsb : r.log journal r.overlay 0 = some jsb) :
    r.openJournal =
      if r.Journaled ∧ journalAccepted 4096 jsb = true ∧ be32 jsb 28 ≠ 0 then some (journal, jsb)
      else none := by
  unfold Fs.openJournal
  dsimp only
  rw [hjournal, hjsb]
  by_cases hj : r.Journaled
  · rw [if_pos hj]
    by_cases hacc : journalAccepted 4096 jsb = true ∧ be32 jsb 28 ≠ 0
    · rw [if_pos ⟨hj, hacc⟩]
      exact if_pos hacc
    · rw [if_neg (fun hc => hacc hc.2)]
      exact if_neg hacc
  · rw [if_neg hj, if_neg (fun hc => hj hc.1)]

/-- The round trip through an open journal is what the scan of its log says. -/
theorem Sound.roundTrip_open (h : Sound D r) (hh : HeapOk r)
    (hopen : r.openJournal = some (journal, jsb)) :
    RoundTrip r tx ↔ ∃ ov, logScan (r.log journal) jsb r.overlay = .ok () ov ∧
      ∀ b, findImage ov b = findImage tx b := by
  have hreplay := h.replay_open hh hopen
  unfold Ends at hreplay
  unfold RoundTrip
  cases hx : ext3ReplayJournal r with
  | ok u r' =>
    rw [hx] at hreplay
    rw [hreplay.1]
    constructor
    · intro hrt
      obtain ⟨r'', he, hmap⟩ := hrt
      obtain ⟨-, rfl⟩ := EStateM.Result.ok.inj he
      exact ⟨_, rfl, hmap⟩
    · intro hrt
      obtain ⟨ov, he, hmap⟩ := hrt
      obtain ⟨-, rfl⟩ := EStateM.Result.ok.inj he
      exact ⟨_, rfl, hmap⟩
  | error e r' =>
    rw [hx] at hreplay
    rw [hreplay.1]
    simp

/-- Without an open journal nothing comes back. -/
theorem Sound.roundTrip_closed (h : Sound D r) (hh : HeapOk r) (hov : r.overlay = []) (htx : tx ≠ [])
    (hopen : r.openJournal = none) : ¬ RoundTrip r tx := by
  intro hrt
  obtain ⟨r', hx, hmap⟩ := hrt
  have hr := (h.replay_closed hh hopen).of_ok hx
  obtain ⟨b, hb⟩ := findImage_ne_nil htx
  rw [← hmap b, show r'.overlay = r.overlay from by rw [hr.rest], hov] at hb
  exact hb rfl

/-- A fresh system before the replay: nothing is unsaved, and the device is as it was. -/
theorem loadedFs_remounted {base : Bytes} (hload : value (ext3LoadSuper 1) (freshFs base) = some ())
    (hsize : (after (ext3LoadSuper 1) (freshFs base)).blockSize = 4096) (s' : Fs) (hdev : s'.dev = 1)
    (hbase : s'.blk.disk.bytes = base) : Remounted {1} s' (loadedFs base) := by
  obtain ⟨hs, hh⟩ := loadedFs_sound base hload hsize
  have hsuper := eq_ok_of_value hload
  obtain ⟨-, -, hdev', hov, htx, -, disk, hd, hblk⟩ := (ext3LoadSuper_spec 1 _).of_ok hsuper
  obtain ⟨s, bg, -, -, hr, he⟩ := loadedFs_eq hload hsize
  obtain ⟨hsaved, hlog⟩ := hr.stores.saved (freshFs_idle hsuper).clean
  have hbytes : s.blk.disk.bytes = base := by
    unfold Disk.bytes
    rw [hlog, hr.stores.env.base, hblk]
    rw [hd.log, hd.base, freshFs_disk]
    rfl
  refine ⟨hs, hh, ?_, ?_, ?_, ?_, ?_⟩
  · rw [he]
    rw [hr.rest]
    exact htx
  · rw [he]
    rw [hr.rest]
    exact hov
  · rw [he, hdev]
    rw [hr.rest]
    exact hdev'
  · rw [he, hbase]
    exact hbytes
  · rw [he]
    exact hsaved

/-- A mount with an empty journal in blocks 3 to 10. -/
def journalImage : Bytes := fun _ a =>
  match a with
  -- superblock: inodes, block size, magic, inode size, features, journal inode
  | 1024 => 16 | 1048 => 2 | 1064 => 16 | 1080 => 83 | 1081 => 239 | 1112 => 128
  | 1116 => 4 | 1120 => 4 | 1248 => 8
  -- group descriptor: inode table in block 2
  | 4104 => 2
  -- inode 8: mode, blocks 3 to 10
  | 9089 => 128 | 9128 => 3 | 9132 => 4 | 9136 => 5 | 9140 => 6 | 9144 => 7 | 9148 => 8
  | 9152 => 9 | 9156 => 10
  -- journal superblock: magic, type, block size, maxlen, first, sequence
  | 12288 => 192 | 12289 => 59 | 12290 => 57 | 12291 => 152 | 12295 => 4 | 12302 => 16
  | 12307 => 8 | 12311 => 1 | 12315 => 1
  | _ => 0

/-- A transaction in that file system. -/
def inTransaction (tx : List BlockImage) : Fs := { loadedFs journalImage with tx, txDepth := 1 }

/-- The journal's inode there. -/
def journalInode : Buf := (loadedFs journalImage).inodeIn (loadedFs journalImage).cached 8

theorem inTransaction_sound {tx : List BlockImage} (hclip : ∀ p ∈ tx, Clipped 4096 p.2) :
    Sound {1} (inTransaction tx) ∧ Saved {1} (inTransaction tx).blk ∧
      (inTransaction tx).overlay = [] ∧ (inTransaction tx).dev = 1 := by
  have hload : value (ext3LoadSuper 1) (freshFs journalImage) = some () := by decide +kernel
  have hsize : (after (ext3LoadSuper 1) (freshFs journalImage)).blockSize = 4096 := by decide +kernel
  have hr := loadedFs_remounted hload hsize { freshFs journalImage with dev := 1 } rfl
    (by unfold Disk.bytes; rw [freshFs_disk]; rfl)
  unfold inTransaction
  generalize loadedFs journalImage = f at hr ⊢
  have hs := hr.sound
  refine ⟨⟨hs.dev, hs.size, hs.sectors, hs.inv, hs.works, fun p hp => ?_⟩, hr.saved, hr.overlay, hr.dev⟩
  rcases List.mem_append.mp hp with hp | hp
  · exact hclip p hp
  · exact hs.clip p (List.mem_append_right _ hp)

end RoundTrip

end Drunix.Ext3
