import Drunix.Ext3.Blocks

/-!
# ext3: the journal

`journal.c` and the rest of `main.c`: a transaction is written to the log from block 1
on as descriptor, data and commit record, then to its home blocks; a mount after a crash
scans the log into the replay overlay and writes that home.

Mirroring notes:
- Positions and counts of the scan stay below `2 ^ 32`: a position that is read is a
  block index of the journal's inode, below `2 ^ 31`, and one round passes 65 positions.
- The scan loop is followed for as many rounds as it may count positions; a loop that is
  not over then counts as `Stop.hang` (`Ext3.Scan` shows that it never will be).
- The inner loop `while (pos != after_data)` takes at most as many steps as
  `jbd_parse_descriptor` has taken to find `after_data` (`skipTo`).
- A transaction buffer's block is copied before it is escaped, so the copy is all that
  changes.
- `ext3_tx_begin` and `ext3_tx_end` are left out.
-/

namespace Drunix.Ext3

open Lib Blk

/-- `JBD_MAGIC`. -/
def jbdMagic : Nat := 3225106840

/-- `jbd_next`. -/
def jbdNext (cur first maxlen : Nat) : Nat := if cur + 1 ≥ maxlen then first else cur + 1

/-! ## Blocks of the journal -/

/-- `ext3_journal_read_block`. -/
def ext3JournalReadBlock (journal : Buf) (logical : Nat) (buf : Buf) : Call Buf := do
  let phys ← ext3BlockIndex journal logical
  require (phys ≠ 0)
  ext3ReadDiskBlock phys buf

/-- `ext3_journal_write_block`. -/
def ext3JournalWriteBlock (journal : Buf) (logical : Nat) (buf : Buf) : Call Unit := do
  let phys ← ext3BlockIndex journal logical
  let s ← get
  require (phys ≠ 0 && s.dev ≠ 0 && s.blk.disk.canWrite s.dev)
  onBlk fun b => bcacheWriteThrough b s.dev (u32 (phys * s.sectorsPerBlock)) buf

/-! ## Writing a transaction -/

/-- `jbd_write_header`. -/
def jbdWriteHeader (blk : Buf) (type seq : Nat) : Buf :=
  putBe32 (putBe32 (putBe32 blk 0 jbdMagic) 4 type) 8 seq

/-- `jbd_update_super`. -/
def jbdUpdateSuper (journal : Buf) (start seq : Nat) : Call Unit := do
  let blk ← kmalloc
  let blk ← ext3JournalReadBlock journal 0 blk
  let blk := if seq ≠ 0 then putBe32 blk 24 seq else blk
  ext3JournalWriteBlock journal 0 (putBe32 blk 28 start)

/-- The flags of a tag: `SAME_UUID`, and `LAST_TAG` and `ESCAPE` where they apply. -/
def tagFlags (last : Bool) (data : Buf) : Nat :=
  2 + (if last then 8 else 0) + (if be32 data 0 = jbdMagic then 1 else 0)

/-- The tags of a descriptor, from the offset `off` on. -/
def putTags (desc : Buf) (off : Nat) : List BlockImage → Buf
  | [] => desc
  | p :: ps =>
    putTags (putBe32 (putBe32 desc off p.1) (off + 4) (tagFlags ps.isEmpty p.2)) (off + 8) ps

/-- The descriptor of a transaction. -/
def descriptorBlock (seq : Nat) (tx : List BlockImage) : Buf :=
  putTags (jbdWriteHeader (fun _ => 0) 1 seq) 12 tx

/-- The commit record of a transaction. -/
def commitBlock (seq : Nat) : Buf := jbdWriteHeader (fun _ => 0) 2 seq

/-- A data block in the log: one that begins like a record has its first word cleared. -/
def escapeBlock (blockSize : Nat) (data : Buf) : Buf :=
  let copy := memcpy (fun _ => 0) 0 data 0 blockSize
  if be32 copy 0 = jbdMagic then memset copy 0 0 4 else copy

/-- The loop over the data blocks. -/
def jbdWriteData (journal : Buf) : Nat → List BlockImage → Call Unit
  | _, [] => pure ()
  | pos, p :: ps => do
    let s ← get
    ext3JournalWriteBlock journal pos (escapeBlock s.blockSize p.2)
    jbdWriteData journal (pos + 1) ps

/-- `jbd_write_transaction`. -/
def jbdWriteTransaction (journal : Buf) (seq maxlen : Nat) : Call Unit := do
  let s ← get
  if s.tx.isEmpty then pure ()
  else do
    require (maxlen ≥ 3 && s.tx.length + 2 < maxlen)
    require (12 + s.tx.length * 8 ≤ s.blockSize)
    kmallocs 2
    ext3JournalWriteBlock journal 1 (descriptorBlock seq s.tx)
    jbdWriteData journal 2 s.tx
    ext3JournalWriteBlock journal (2 + s.tx.length) (commitBlock seq)

/-- The loops of `ext3_checkpoint_tx` and `ext3_checkpoint_replay`. -/
def writeHome : List BlockImage → Call Unit
  | [] => pure ()
  | p :: ps => do
    ext3WriteDiskBlock p.1 p.2
    writeHome ps

/-- `bcache_sync(g_dev)`. -/
def bcacheSyncDev : Call Unit := do
  let s ← get
  onBlk fun b =>
    match bcacheSync b s.dev with
    | (true, b) => (.ok (), b)
    | (false, b) => (.error .fail, b)

/-- `ext3_load_bg`. -/
def ext3LoadBg : Call Unit := do
  let s ← get
  let blk ← kmalloc
  let blk ← ext3ReadBlock s.bgdtBlock blk
  modify fun s => { s with bg := slice blk 0 Bg.size }

/-! ## Reading the log -/

/-- `jbd_tag_t`. -/
structure Tag where
  fsBlock : Nat
  journalBlock : Nat
  flags : Nat
deriving DecidableEq, Repr

/-- The loop of `jbd_parse_descriptor`; it is over by the 65th tag. -/
def parseTags (blockSize first maxlen : Nat) (blk : Buf) :
    Nat → Nat → Nat → List Tag → Option (List Tag × Nat)
  | 0, _, dataPos, tags => some (tags, dataPos)
  | rounds + 1, off, dataPos, tags =>
    if off + 8 ≤ blockSize then
      let fsBlock := be32 blk off
      let flags := be32 blk (off + 4)
      let tagSize := if flags.testBit 1 then 8 else 24
      if fsBlock = 0 ∨ tags.length ≥ 64 ∨ off + tagSize > blockSize then none
      else
        let tags := tags ++ [⟨fsBlock, dataPos, flags⟩]
        let dataPos := jbdNext dataPos first maxlen
        if flags.testBit 3 then some (tags, dataPos)
        else parseTags blockSize first maxlen blk rounds (off + tagSize) dataPos tags
    else some (tags, dataPos)

/-- `jbd_parse_descriptor`: the tags and the position behind the data. -/
def jbdParseDescriptor (blockSize : Nat) (blk : Buf) (pos first maxlen : Nat) :
    Option (List Tag × Nat) :=
  parseTags blockSize first maxlen blk 65 12 (jbdNext pos first maxlen) []

/-- The loop of `jbd_parse_revoke`; the table holds 128 entries. -/
def parseRevokes (blk : Buf) (bytes : Nat) : Nat → Nat → List Nat → Option (List Nat)
  | 0, _, revokes => some revokes
  | rounds + 1, off, revokes =>
    if off + 4 ≤ bytes then
      if revokes.length ≥ 128 then none
      else parseRevokes blk bytes rounds (off + 4) (revokes ++ [be32 blk off])
    else some revokes

/-- `jbd_parse_revoke`. -/
def jbdParseRevoke (blockSize : Nat) (blk : Buf) (seq curSeq : Nat) (revokes : List Nat) :
    Option (List Nat) :=
  if seq ≠ curSeq then some revokes
  else if be32 blk 12 > blockSize then none
  else parseRevokes blk (be32 blk 12) 129 16 revokes

/-- The loop of `jbd_apply_transaction`. -/
def applyTags (journal : Buf) (revokes : List Nat) : List Tag → Buf → Call Unit
  | [], _ => pure ()
  | t :: ts, data =>
    if revokes.contains t.fsBlock then applyTags journal revokes ts data
    else do
      let data ← ext3JournalReadBlock journal t.journalBlock data
      let data := if t.flags.testBit 0 then putBe32 data 0 jbdMagic else data
      ext3OverlayPut t.fsBlock data
      applyTags journal revokes ts data

/-- `jbd_apply_transaction`. -/
def jbdApplyTransaction (journal : Buf) (tags : List Tag) (revokes : List Nat) : Call Unit := do
  let data ← kmalloc
  applyTags journal revokes tags data

/-- The variables of the scan loop. -/
structure Scan where
  pos : Nat
  scanned : Nat
  curSeq : Nat
  tags : List Tag
  revokes : List Nat
  active : Bool

/-- `while (pos != after_data)`: the position and the count reached. -/
def skipTo (first maxlen stop : Nat) : Nat → Nat × Nat → Nat × Nat
  | 0, p => p
  | steps + 1, p =>
    if p.1 = stop then p else skipTo first maxlen stop steps (jbdNext p.1 first maxlen, p.2 + 1)

/-- `pos = jbd_next(pos, first, maxlen); scanned++`. -/
def Scan.advance (sc : Scan) (first maxlen : Nat) : Scan :=
  { sc with pos := jbdNext sc.pos first maxlen, scanned := sc.scanned + 1 }

/-- What the loop does with a record, by its type: `none` leaves the loop. -/
def scanRecord (journal : Buf) (first maxlen : Nat) (sc : Scan) (blk : Buf) : Call (Option Scan) := do
  let s ← get
  let type := be32 blk 4
  let seq := be32 blk 8
  if type = 1 then
    match jbdParseDescriptor s.blockSize blk sc.pos first maxlen with
    | none => throw .fail
    | some (tags, stop) =>
      let p := skipTo first maxlen stop (tags.length + 1) (sc.pos, sc.scanned)
      pure (some ⟨p.1, p.2, seq, tags, [], true⟩)
  else if type = 5 then
    if sc.active then
      match jbdParseRevoke s.blockSize blk seq sc.curSeq sc.revokes with
      | none => throw .fail
      | some revokes => pure (some ({ sc with revokes }.advance first maxlen))
    else pure (some (sc.advance first maxlen))
  else if type = 2 then
    if sc.active && seq = sc.curSeq then do
      jbdApplyTransaction journal sc.tags sc.revokes
      pure (some ({ sc with active := false, tags := [], revokes := [] }.advance first maxlen))
    else pure (some (sc.advance first maxlen))
  else if type = 3 ∨ type = 4 then pure (some (sc.advance first maxlen))
  else pure none

/-- One round of the scan loop. The buffer is the one the round before has left. -/
def scanRound (journal : Buf) (first maxlen : Nat) (sc : Scan) (blk : Buf) :
    Call (Option (Scan × Buf)) := do
  let blk ← ext3JournalReadBlock journal sc.pos blk
  if be32 blk 0 ≠ jbdMagic then pure none
  else do
    let sc ← scanRecord journal first maxlen sc blk
    pure (sc.map fun sc => (sc, blk))

/-- The scan loop. -/
def scanLoop (journal : Buf) (first maxlen : Nat) : Nat → Scan → Buf → Call Unit
  | 0, sc, _ => if sc.scanned < maxlen - first then throw .hang else pure ()
  | rounds + 1, sc, blk =>
    if sc.scanned < maxlen - first then do
      match ← scanRound journal first maxlen sc blk with
      | none => pure ()
      | some (sc, blk) => scanLoop journal first maxlen rounds sc blk
    else pure ()

/-- The journal superblock is one the replay accepts. -/
def journalAccepted (blockSize : Nat) (jsb : Buf) : Bool :=
  be32 jsb 0 = jbdMagic && (be32 jsb 4 = 3 || be32 jsb 4 = 4) &&
  (be32 jsb 12 = blockSize && be32 jsb 20 ≠ 0 && be32 jsb 20 < be32 jsb 16 &&
    be32 jsb 28 < be32 jsb 16) &&
  (be32 jsb 40 ≤ 1 && be32 jsb 36 = 0 && be32 jsb 44 = 0)

/-- The scan from a journal superblock that has been read and accepted. -/
def scanJournal (journal jsb : Buf) : Call Unit :=
  if be32 jsb 28 = 0 then pure ()
  else scanLoop journal (be32 jsb 20) (be32 jsb 16) (be32 jsb 16 - be32 jsb 20)
    ⟨be32 jsb 28, 0, 0, [], [], false⟩ jsb

/-- `ext3_replay_journal`. -/
def ext3ReplayJournal : Call Unit := do
  let s ← get
  if Super.featureCompat s.super &&& 4 = 0 then pure ()
  else if Super.featureIncompat s.super &&& 4 = 0 then pure ()
  else do
    require (Super.journalDev s.super = 0 && Super.journalInum s.super ≠ 0)
    let journal ← ext3ReadInode (Super.journalInum s.super)
    require (Inode.format journal = 32768)
    kmallocs 3
    let jsb ← ext3JournalReadBlock journal 0 fun _ => 0
    require (journalAccepted s.blockSize jsb)
    scanJournal journal jsb

/-- `ext3_checkpoint_replay`. -/
def ext3CheckpointReplay : Call Unit := do
  let s ← get
  if s.overlay.isEmpty then pure ()
  else do
    require (s.blk.disk.canWrite s.dev)
    writeHome s.overlay
    bcacheSyncDev
    require (Super.journalInum s.super ≠ 0)
    let journal ← ext3ReadInode (Super.journalInum s.super)
    jbdUpdateSuper journal 0 0
    modify fun s => { s with super := Super.clearRecover s.super }
    ext3FlushSuperRaw
    ext3OverlayClear
    modify fun s => { s with needsRecovery := false }
    ext3LoadBg

/-- `ext3_init`. -/
def ext3Init (dev : Nat) : Call Unit := do
  ext3LoadSuper dev
  ext3LoadBg
  ext3ReplayJournal
  let s ← get
  if !s.overlay.isEmpty then do
    let _ ← attempt ext3CheckpointReplay
  modify fun s => { s with
    writable := !s.needsRecovery && s.overlay.isEmpty && s.blk.disk.canWrite s.dev }

end Drunix.Ext3
