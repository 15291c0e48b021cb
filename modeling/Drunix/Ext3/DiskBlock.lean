import Drunix.Ext3.Mounted

/-!
# Blocks on the device

`ext3_read_disk_block` and `ext3_write_disk_block` against a flat store of bytes, over
any sequence of reads, writes and syncs: a read fills the caller's buffer with the
bytes of its block and leaves the memory behind the buffer alone, and a sync leaves the
device with the bytes of the store, all of them.

The cache moves 4096 bytes whatever the block size of the file system is, so of the
three sizes that `ext3_init` accepts this holds for 4096 alone, and there for block
numbers below 2 ^ 29, whose sectors have 32-bit numbers (`block_store_iff`).
-/

namespace Drunix.Ext3

open Lib Blk

/-- The bytes of a device, by address. -/
abbrev Store := Nat → UInt8

inductive BlockOp where
  | read (b : Nat)
  | write (b : Nat) (data : Buf)
  | sync

/-- One call, on the file system and on the store. -/
def blockStep (w : Fs × Store) : BlockOp → Fs × Store
  | .read b => (after (ext3ReadDiskBlock b fun _ => 0) w.1, w.2)
  | .write b data =>
    (after (ext3WriteDiskBlock b data) w.1,
      fun a => if a / w.1.blockSize = b then data (a % w.1.blockSize) else w.2 a)
  | .sync => ({ w.1 with blk := (bcacheSync w.1.blk w.1.dev).2 }, w.2)

/-- The call is for a block up to `last`. -/
def BlockOp.UpTo (last : Nat) : BlockOp → Prop
  | .read b => b ≤ last
  | .write b _ => b ≤ last
  | .sync => True

/-- What is read, and what a sync leaves on the device, are the bytes of the store. -/
structure StoreAgrees (last : Nat) (w : Fs × Store) : Prop where
  read : ∀ b ≤ last, ∀ mem, ∃ s', ext3ReadDiskBlock b mem w.1 =
    .ok (fun i => if i < w.1.blockSize then w.2 (b * w.1.blockSize + i) else mem i) s'
  synced : (bcacheSync w.1.blk w.1.dev).1 = true ∧ ∀ a < 512 * 4294967296,
    (bcacheSync w.1.blk w.1.dev).2.disk.bytes w.1.dev a = w.2 a

/-- The file system's blocks up to `last` are those of a flat store, in every run. -/
def IsBlockStore (last : Nat) (s : Fs) : Prop :=
  ∀ w, Reach blockStep (fun _ op => op.UpTo last) (s, s.blk.disk.bytes s.dev) w →
    StoreAgrees last w

/-! ## What the superblock settles -/

/-- Sectors read around the cache leave everything but the time on the device. -/
def Looks (s s' : Fs) : Prop :=
  ∃ disk, SameDisk s.blk.disk disk ∧ s' = { s with blk := { s.blk with disk } }

theorem ext3ReadBytesLoop_looks (dev byteOff count : Nat) :
    ∀ rounds done buf s, Ends (ext3ReadBytesLoop dev byteOff count rounds done buf) s
      (fun _ s' => Looks s s') fun _ s' => Looks s s' := by
  intro rounds
  induction rounds with
  | zero => intro done buf s; exact ⟨_, SameDisk.refl _, rfl⟩
  | succ rounds ih =>
    intro done buf s
    unfold ext3ReadBytesLoop
    split
    · simp only [ends_bind]
      unfold readSectorRaw
      rw [ends_onBlk]
      unfold Disk.readSector
      by_cases hf : s.blk.disk.fails s.blk.disk.clock = true
      · rw [if_pos hf]
        exact ⟨{ s.blk.disk with clock := s.blk.disk.clock + 1 }, ⟨rfl, rfl, rfl, rfl⟩, rfl⟩
      · rw [if_neg hf]
        refine (ih _ _ _).mono (fun _ s' hs => ?_) fun _ s' hs => ?_ <;>
        · obtain ⟨disk, hd, rfl⟩ := hs
          exact ⟨disk, ⟨hd.base, hd.log, hd.canWrite, hd.fails⟩, rfl⟩
    · exact ⟨_, SameDisk.refl _, rfl⟩

/-- A superblock that is accepted sets the sizes and clears the overlay; the device and
the cache stay as they are. -/
theorem ext3LoadSuper_spec (dev : Nat) (s : Fs) : Ends (ext3LoadSuper dev) s (fun _ s' =>
      (s'.blockSize = 1024 ∨ s'.blockSize = 2048 ∨ s'.blockSize = 4096) ∧
      s'.sectorsPerBlock = s'.blockSize / 512 ∧ s'.dev = dev ∧ s'.overlay = [] ∧ s'.tx = s.tx ∧
      s'.heap = s.heap ∧ ∃ disk, SameDisk s.blk.disk disk ∧ s'.blk = { s.blk with disk })
      fun _ _ => True := by
  unfold ext3LoadSuper
  simp only [ends_bind, ends_modify, ends_get]
  unfold ext3ReadBytes
  simp only [ends_bind, ends_get, ends_require, if_true_right]
  intro _
  refine (ext3ReadBytesLoop_looks dev 1024 _ _ _ _ _).mono (fun super s1 hs1 => ?_)
    fun _ _ _ => trivial
  obtain ⟨disk, hd, rfl⟩ := hs1
  intro _ hsize _ _ _ _
  simp only [Bool.or_eq_true, decide_eq_true_eq] at hsize
  refine ⟨by omega, ?_, ?_, ?_, ?_, ?_, disk, hd, rfl⟩ <;> trivial

/-! ## Blocks of 4096 bytes -/

/-- The device works, nothing is unsaved, and no transaction is open. -/
structure Idle (D : Set Nat) (s : Fs) : Prop where
  dev : s.dev ∈ D
  inv : CacheInv (blockKeys D) ∅ s.blk
  works : Works (blockKeys D) s.blk
  clean : ∀ k ∈ blockKeys D, s.blk.Clean k
  tx : s.tx = []

/-- An idle file system that has just been loaded with blocks of 4096 bytes. -/
theorem Idle.sound {D : Set Nat} {dev : Nat} {s0 s : Fs} (hs : Idle D s)
    (hload : ext3LoadSuper dev s0 = .ok () s) (hsize : s.blockSize = 4096) : Sound D s := by
  obtain ⟨-, hsectors, -, hov, -, -, -⟩ := (ext3LoadSuper_spec dev s0).of_ok hload
  refine ⟨hs.dev, hsize, by rw [hsectors, hsize], hs.inv, hs.works, ?_⟩
  rw [hs.tx, hov]
  simp

/-- The cache holds the bytes of the store. -/
structure Holds (D : Set Nat) (w : Fs × Store) : Prop where
  sound : Sound D w.1
  cached : ∀ b < 536870912, ∀ i < 4096, w.1.cached b i = w.2 (b * 4096 + i)

section Steps

variable {D : Set Nat} {w : Fs × Store} {last : Nat}

theorem home_eq {s : Fs} {b : Nat} (hb : b < 536870912) : s.home b = (s.dev, b * 8) := by
  unfold Fs.home
  rw [u32_of_lt (by omega)]

/-- The bytes of a block, on the device. -/
theorem block_home {s : Fs} {b : Nat} (hb : b < 536870912) (d : Disk) {i : Nat} (hi : i < 4096) :
    d.block (s.home b) i = d.bytes s.dev (b * 4096 + i) := by
  rw [home_eq hb]
  unfold Disk.block
  have haddr : (b * 8 + i / 512) * 512 + i % 512 = b * 4096 + i := by omega
  rw [if_pos hi, u32_of_lt (by omega), haddr]

theorem Holds.step (h : Holds D w) {op : BlockOp} (hop : op.UpTo last) (hlast : last < 536870912) :
    Holds D (blockStep w op) := by
  cases op with
  | read b =>
    have hr : Reads D w.1 (after (ext3ReadDiskBlock b fun _ => 0) w.1) :=
      ((h.sound.readDiskBlock b _).mono (fun _ _ hr => hr.2) fun _ _ hc => hc.elim).after
    exact ⟨hr.sound h.sound, fun b' hb' i hi => by
      rw [show (blockStep w (.read b)).1.cached b' = w.1.cached b' from hr.cached h.sound b']
      exact h.cached b' hb' i hi⟩
  | sync =>
    obtain ⟨hinv, hhid, -⟩ := h.sound.inv.sync_spec (separated_blockKeys D) w.1.dev
    simp only [blockStep]
    obtain ⟨blk, hblk⟩ : ∃ blk, (bcacheSync w.1.blk w.1.dev).2 = blk := ⟨_, rfl⟩
    rw [hblk] at hinv hhid ⊢
    have hr : Reads D w.1 { w.1 with blk } := ⟨rfl, hinv, hhid⟩
    exact ⟨hr.sound h.sound, fun b hb i hi => by
      rw [hr.cached h.sound b]
      exact h.cached b hb i hi⟩
  | write b data =>
    have hp : Puts D w.1 (blockStep w (.write b data)).1 b data :=
      ((h.sound.writeDiskBlock b data).mono (fun _ _ hp => hp) fun _ _ hc => hc.elim).after
    refine ⟨hp.sound h.sound, fun b' hb' i hi => ?_⟩
    have hb : b < 536870912 := Nat.lt_of_le_of_lt hop hlast
    have hhome : (blockStep w (.write b data)).1.home b' = w.1.home b' := by
      rw [hp.rest]
      rfl
    have hdiv : (b' * 4096 + i) / 4096 = b' := by omega
    have hmod : (b' * 4096 + i) % 4096 = i := by omega
    show (blockStep w (.write b data)).1.blk.view _ i =
      if (b' * 4096 + i) / w.1.blockSize = b then data ((b' * 4096 + i) % w.1.blockSize)
      else w.2 (b' * 4096 + i)
    rw [h.sound.size, hdiv, hmod, hhome]
    split
    next he =>
      rw [he, hp.view]
      simp [slice, hi]
    next hne =>
      have hkey : w.1.home b' ≠ w.1.home b := by
        rw [home_eq hb', home_eq hb]
        intro hc
        exact hne (by have := congrArg Prod.snd hc; simp only at this; omega)
      rw [hp.quiet.view _ ⟨h.sound.home_mem b', hkey⟩ fun hc => hc]
      exact h.cached b' hb' i hi

theorem Holds.agrees (h : Holds D w) (hlast : last < 536870912) : StoreAgrees last w where
  read b hb mem := by
    obtain ⟨r, s', hcall, hr, -⟩ := (h.sound.readDiskBlock b mem).returns
    refine ⟨s', ?_⟩
    rw [hcall, hr]
    congr 1
    funext i
    rw [h.sound.size]
    by_cases hi : i < 4096
    · rw [memcpy_in (Nat.zero_le i) (by omega), if_pos hi, Nat.sub_zero, Nat.zero_add]
      exact h.cached b (Nat.lt_of_le_of_lt hb hlast) i hi
    · rw [memcpy_out (by omega), if_neg hi]
  synced := by
    obtain ⟨hinv, hhid, hclean⟩ := h.sound.inv.sync_spec (separated_blockKeys D) w.1.dev
    have hok := h.sound.works.sync_ok (separated_blockKeys D) h.sound.inv w.1.dev
    refine ⟨hok, fun a ha => ?_⟩
    have hb : a / 4096 < 536870912 := by omega
    have hi : a % 4096 < 4096 := Nat.mod_lt _ (by decide)
    have hk := h.sound.home_mem (a / 4096)
    -- nothing is unsaved after the sync, so the device has what the cache had
    have hview := hhid.view _ hk fun hc => hc
    rw [hinv.view_clean (fun hc => hc) (hclean hok _ hk (.inr rfl))] at hview
    have hbyte := congrFun hview (a % 4096)
    have haddr : a / 4096 * 4096 + a % 4096 = a := by omega
    have hcached := h.cached _ hb _ hi
    rw [block_home hb _ hi, haddr] at hbyte
    rw [haddr] at hcached
    exact hbyte.trans hcached

/-- Block 2 ^ 29 has the sectors of block 0: a write to it is read back there. -/
theorem Sound.not_isBlockStore {s : Fs} (h : Sound D s) (hlast : 536870912 ≤ last) :
    ¬ IsBlockStore last s := by
  intro hstore
  generalize hbyte : s.blk.disk.bytes s.dev 0 = byte
  have hagrees := hstore _ (.step (BlockOp.write 536870912 fun _ => byte + 1) .start hlast)
  generalize hw : blockStep (s, s.blk.disk.bytes s.dev) (.write 536870912 fun _ => byte + 1) = w
    at hagrees
  have hp : Puts D s w.1 536870912 fun _ => byte + 1 := by
    rw [← hw]
    exact ((h.writeDiskBlock 536870912 _).mono (fun _ _ hp => hp) fun _ _ hc => hc.elim).after
  have hkept : w.2 0 = byte := by
    rw [← hw]
    show (if 0 / s.blockSize = 536870912 then _ else s.blk.disk.bytes s.dev 0) = _
    rw [if_neg (by simp), hbyte]
  have hsound := hp.sound h
  obtain ⟨s', hread⟩ := hagrees.read 0 (Nat.zero_le _) fun _ => 0
  have hdata := congrFun ((hsound.readDiskBlock 0 fun _ => 0).of_ok hread).1 0
  rw [if_pos (by rw [hsound.size]; decide), Nat.zero_mul, Nat.add_zero, hkept,
    memcpy_in (Nat.zero_le 0) (by decide), Nat.sub_self] at hdata
  have hview : w.1.cached 0 0 = byte + 1 := by
    show w.1.blk.view (w.1.home 0) 0 = _
    rw [show w.1.home 0 = s.home 536870912 by rw [hp.rest]; rfl, hp.view]
    rfl
  rw [Nat.add_zero, hview] at hdata
  exact absurd hdata (by simp)

end Steps

/-- Of the block sizes accepted, 4096 alone gives a flat store, of the blocks below 2 ^ 29. -/
theorem block_store_iff {D : Set Nat} {dev : Nat} {s₀ s : Fs} (last : Nat)
    (hload : ext3LoadSuper dev s₀ = .ok () s) (hs : Idle D s) :
    IsBlockStore last s ↔ s.blockSize = 4096 ∧ last < 536870912 := by
  obtain ⟨hsizes, hsectors, -, -, -, -, -⟩ := (ext3LoadSuper_spec dev s₀).of_ok hload
  constructor
  · intro hstore
    suffices hsize : s.blockSize = 4096 from
      ⟨hsize, Nat.lt_of_not_le fun hlast => (hs.sound hload hsize).not_isBlockStore hlast hstore⟩
    by_contra hne
    -- the byte behind the buffer comes from the device, whatever it was
    have hread := (hstore _ Reach.start).read 0 (Nat.zero_le last)
    obtain ⟨s1, h1⟩ := hread fun _ => 0
    obtain ⟨s2, h2⟩ := hread fun _ => 1
    have hends : ∀ mem, Ends (ext3ReadDiskBlock 0 mem) s
        (fun r _ => r s.blockSize = (bcacheRead s.blk s.dev (u32 (0 * s.sectorsPerBlock))).1.toOption.elim
          0 fun data => data s.blockSize) fun _ _ => True := by
      intro mem
      unfold ext3ReadDiskBlock
      simp only [ends_bind, ends_get, ends_require, ends_onBlk, ends_pure, if_true_right]
      intro _
      split
      next data blk he =>
        rw [he, memcpy_in (Nat.zero_le _) (by omega), Nat.sub_zero, Nat.zero_add]
        rfl
      · trivial
    have hb1 := (hends _).of_ok h1
    have hb2 := (hends _).of_ok h2
    rw [← hb2] at hb1
    simp only [Nat.lt_irrefl, if_false] at hb1
    cases hb1
  · rintro ⟨hsize, hlast⟩ w hw
    have hsound := hs.sound hload hsize
    have hholds : Holds D w := by
      refine hw.inv (Holds D) ⟨hsound, fun b hb i hi => ?_⟩ fun w op h hop => h.step hop hlast
      unfold Fs.cached
      rw [hs.inv.view_clean (fun hc => hc) (hs.clean _ (hsound.home_mem b))]
      exact block_home hb _ hi
    exact hholds.agrees hlast

/-- A device that holds a superblock and nothing else. -/
def superImage (logBlockSize : UInt8) : Bytes := fun _ a =>
  if a = 1048 then logBlockSize
  else if a = 1080 then 83
  else if a = 1081 then 239
  else if a = 1112 then 128
  else 0

/-- Before the mount: a cache just initialised, over devices that work. -/
def freshFs (base : Bytes) : Fs where
  blk := bcacheInit
    { disk := ⟨base, [], fun dev => dev == 1, fun _ => false, 0⟩
      slots := fun _ => ⟨0, 0, false, false, fun _ => 0⟩
      lru := ⟨none, none, fun _ => none, fun _ => none⟩
      walk := 64 }
  heap := fun _ => false
  mallocs := 0
  now := 0
  dev := 0
  super := fun _ => 0
  bg := fun _ => 0
  blockSize := 0
  sectorsPerBlock := 0
  bgdtBlock := 0
  writable := false
  needsRecovery := false
  blockAllocCursor := 0
  inodeAllocCursor := 0
  txCountsDirty := false
  overlay := []
  tx := []
  txDepth := 0
  txFailed := false
  txSuperBefore := fun _ => 0
  txHasSnapshot := false

theorem freshFs_disk (base : Bytes) :
    (freshFs base).blk.disk = ⟨base, [], fun dev => dev == 1, fun _ => false, 0⟩ :=
  (bcacheInit_spec (K := blockKeys {1}) (T := ∅) fun _ _ _ => rfl).2.1

/-- A fresh system over a device that works is idle after the mount. -/
theorem freshFs_idle {base : Bytes} {s : Fs} (h : ext3LoadSuper 1 (freshFs base) = .ok () s) :
    Idle {1} s := by
  obtain ⟨-, -, hdev, -, htx, -, disk, hd, hblk⟩ := (ext3LoadSuper_spec 1 _).of_ok h
  obtain ⟨hinv, hdisk, hwalk, hvalid⟩ := bcacheInit_spec
    (b := { disk := ⟨base, [], fun dev => dev == 1, fun _ => false, 0⟩
            slots := fun _ => ⟨0, 0, false, false, fun _ => 0⟩
            lru := ⟨none, none, fun _ => none, fun _ => none⟩
            walk := 64 }) fun _ _ _ => rfl
  refine ⟨hdev, ?_, ?_, fun k _ => ?_, htx⟩
  · rw [hblk]
    exact CacheInv.sameDisk hinv hd
  · rw [hblk]
    refine ⟨fun n => ?_, fun k hk => ⟨?_, ?_⟩, ?_⟩
    · show disk.fails n = false
      rw [hd.fails, show (freshFs base).blk.disk = _ from hdisk]
    · rw [show k.1 = 1 from hk.1]
      decide
    · show disk.canWrite k.1 = true
      rw [hd.canWrite, show (freshFs base).blk.disk = _ from hdisk, show k.1 = 1 from hk.1]
      rfl
    · show 0 < (freshFs base).blk.walk
      rw [show (freshFs base).blk.walk = _ from hwalk]
      exact Nat.succ_pos 63
  · rw [hblk]
    exact clean_uncached fun i hi hiv => absurd ((hvalid i hi).symm.trans hiv) (by simp)

theorem block_store_iff_4096 :
    let s := after (ext3LoadSuper 1) (freshFs (superImage 2))
    s.blockSize = 4096 ∧ IsBlockStore 536870911 s := by
  have hv : value (ext3LoadSuper 1) (freshFs (superImage 2)) = some () := by decide +kernel
  have hsize : (after (ext3LoadSuper 1) (freshFs (superImage 2))).blockSize = 4096 := by
    decide +kernel
  have hload := eq_ok_of_value hv
  exact ⟨hsize, (block_store_iff _ hload (freshFs_idle hload)).mpr ⟨hsize, by decide⟩⟩

/-- With blocks of 1024 bytes a read runs over the end of the caller's buffer, and a write
reaches the block behind its own. -/
theorem small_block_overruns :
    let s := after (ext3LoadSuper 1) (freshFs (superImage 0))
    let written := (bcacheSync (after (ext3WriteDiskBlock 8 fun _ => 9) s).blk 1).2
    s.blockSize = 1024 ∧
      (value (ext3ReadDiskBlock 1 fun _ => 7) s).map (fun mem => mem 1024) = some 0 ∧
      s.blk.disk.bytes 1 9216 = 0 ∧ written.disk.bytes 1 9216 = 9 := by
  refine ⟨by decide +kernel, by decide +kernel, by decide +kernel, by decide +kernel⟩

end Drunix.Ext3
