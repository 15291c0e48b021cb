import Drunix.Blk.Bcache

/-!
# What the sector loops do to a device

A key names the 4096 bytes from its sector on, wrapping at the end of the 32-bit
sector numbers (`Disk.block`). Reading a block changes nothing; writing one touches
the eight sectors of its key and, when it succeeds, leaves the buffer there.
-/

namespace Drunix.Blk

open Lib

/-- A device and the first sector of a block on it. -/
abbrev Key := Nat × Nat

/-- The block at a key. -/
def Disk.block (d : Disk) (k : Key) : Buf := fun j =>
  if j < 4096 then d.bytes k.1 (u32 (k.2 + j / 512) * 512 + j % 512) else 0

theorem Disk.block_clipped (d : Disk) (k : Key) : Clipped 4096 (d.block k) :=
  fun _ hj => if_neg (by omega)

/-- No sector belongs to both blocks. -/
def Sep (k k' : Key) : Prop :=
  k.1 = k'.1 → ∀ i < 8, ∀ j < 8, u32 (k.2 + i) ≠ u32 (k'.2 + j)

/-- Blocks at different keys do not overlap. -/
def Separated (K : Set Key) : Prop := ∀ k ∈ K, ∀ k' ∈ K, k ≠ k' → Sep k k'

/-- Everything about a device but the time. -/
structure SameDisk (d d' : Disk) : Prop where
  base : d'.base = d.base
  log : d'.log = d.log
  canWrite : d'.canWrite = d.canWrite
  fails : d'.fails = d.fails

theorem SameDisk.refl (d : Disk) : SameDisk d d := ⟨rfl, rfl, rfl, rfl⟩

variable {d d' : Disk}

theorem SameDisk.trans {d'' : Disk} (h : SameDisk d d') (h' : SameDisk d' d'') : SameDisk d d'' :=
  ⟨h'.base.trans h.base, h'.log.trans h.log, h'.canWrite.trans h.canWrite,
    h'.fails.trans h.fails⟩

theorem SameDisk.bytes (h : SameDisk d d') : d'.bytes = d.bytes := by
  unfold Disk.bytes
  rw [h.base, h.log]

theorem SameDisk.block (h : SameDisk d d') (k : Key) : d'.block k = d.block k := by
  unfold Disk.block
  rw [h.bytes]

section Reading

/-- The loop of `disk_read_block`: the bytes of the sectors read so far. -/
theorem diskReadSectors_spec (dev lba : Nat) (is : List Nat) (d : Disk) (buf : Buf) :
    SameDisk d (diskReadSectors dev lba is d buf).2.1 ∧
      ((diskReadSectors dev lba is d buf).1 = true →
        ∀ j, (diskReadSectors dev lba is d buf).2.2 j =
          if j / 512 ∈ is then d.bytes dev (u32 (lba + j / 512) * 512 + j % 512) else buf j) ∧
      ∀ j, j / 512 ∉ is → (diskReadSectors dev lba is d buf).2.2 j = buf j := by
  induction is generalizing d buf with
  | nil => exact ⟨SameDisk.refl d, fun _ j => by simp [diskReadSectors], fun _ _ => rfl⟩
  | cons i is ih =>
    unfold diskReadSectors Disk.readSector
    cases hf : d.fails d.clock with
    | true => exact ⟨⟨rfl, rfl, rfl, rfl⟩, nofun, fun _ _ => rfl⟩
    | false =>
      simp only [Bool.false_eq_true, if_false]
      obtain ⟨hs, hok, hrest⟩ := ih { d with clock := d.clock + 1 }
        (memcpy buf (i * 512) (fun j => d.bytes dev (u32 (lba + i) * 512 + j)) 0 512)
      have hd : SameDisk d { d with clock := d.clock + 1 } := ⟨rfl, rfl, rfl, rfl⟩
      refine ⟨hd.trans hs, fun h j => ?_, fun j hj => ?_⟩
      · rw [hok h j, hd.bytes]
        by_cases hin : j / 512 ∈ is
        · rw [if_pos hin, if_pos (List.mem_cons_of_mem i hin)]
        · rw [if_neg hin]
          by_cases hji : j / 512 = i
          · subst hji
            rw [if_pos List.mem_cons_self, memcpy_in (by omega) (by omega)]
            rw [show 0 + (j - j / 512 * 512) = j % 512 by omega]
          · rw [if_neg (by simp [hin, hji]), memcpy_out (by omega)]
      · have hne : j / 512 ≠ i ∧ j / 512 ∉ is := by simpa using hj
        rw [hrest j hne.2, memcpy_out (by omega)]

/-- `disk_read_block` changes nothing on the device, and delivers the block. -/
theorem diskReadBlock_spec (d : Disk) (dev lba : Nat) {buf : Buf} (hbuf : Clipped 4096 buf) :
    SameDisk d (diskReadBlock d dev lba buf).2.1 ∧
      Clipped 4096 (diskReadBlock d dev lba buf).2.2 ∧
      ((diskReadBlock d dev lba buf).1 = true →
        (diskReadBlock d dev lba buf).2.2 = d.block (dev, lba)) := by
  obtain ⟨hs, hok, hrest⟩ := diskReadSectors_spec dev lba (List.range 8) d buf
  have hclip : Clipped 4096 (diskReadBlock d dev lba buf).2.2 := by
    intro j hj
    have hout : j / 512 ∉ List.range 8 := by
      rw [List.mem_range]
      omega
    exact (hrest j hout).trans (hbuf j hj)
  refine ⟨hs, hclip, fun h => hclip.ext (d.block_clipped _) fun j hj => ?_⟩
  have hin : j / 512 ∈ List.range 8 := by
    rw [List.mem_range]
    omega
  have := hok h j
  rw [if_pos hin] at this
  unfold diskReadBlock Disk.block
  rw [this, if_pos hj]

theorem diskReadSectors_ok (dev lba : Nat) (is : List Nat)
    (hf : ∀ n, d.fails n = false) (buf : Buf) :
    (diskReadSectors dev lba is d buf).1 = true := by
  induction is generalizing d buf with
  | nil => rfl
  | cons i is ih =>
    unfold diskReadSectors Disk.readSector
    simp only [hf d.clock, Bool.false_eq_true, if_false]
    exact ih (d := { d with clock := d.clock + 1 }) hf _

end Reading

section Writing

theorem Disk.bytes_append {ws : List SectorWrite} (hb : d'.base = d.base)
    (hl : d'.log = d.log ++ ws) : d'.bytes = ws.foldl SectorWrite.apply d.bytes := by
  unfold Disk.bytes
  rw [hb, hl, List.foldl_append]

/-- The loop of `disk_write_block` issues a beginning of its sectors, and all of
them if it succeeds. -/
theorem diskWriteSectors_spec (dev lba : Nat) (buf : Buf) (is : List Nat) (d : Disk) :
    ∃ n ≤ is.length, (diskWriteSectors dev lba buf is d).2.log =
        d.log ++ (is.take n).map (sectorOf dev lba buf) ∧
      ((diskWriteSectors dev lba buf is d).1 = true → n = is.length) ∧
      (diskWriteSectors dev lba buf is d).2.base = d.base ∧
      (diskWriteSectors dev lba buf is d).2.canWrite = d.canWrite ∧
      (diskWriteSectors dev lba buf is d).2.fails = d.fails := by
  induction is generalizing d with
  | nil => exact ⟨0, Nat.le_refl _, by simp [diskWriteSectors], fun _ => rfl, rfl, rfl, rfl⟩
  | cons i is ih =>
    unfold diskWriteSectors Disk.writeSector
    cases hf : d.fails d.clock with
    | true =>
      exact ⟨0, Nat.zero_le _, by simp, nofun, rfl, rfl, rfl⟩
    | false =>
      simp only [Bool.false_eq_true, if_false]
      obtain ⟨n, hn, hlog, hok, hb, hc, hfl⟩ := ih
        { d with clock := d.clock + 1, log := d.log ++ [sectorOf dev lba buf i] }
      refine ⟨n + 1, Nat.succ_le_succ hn, ?_, fun h => by rw [hok h, List.length_cons], hb, hc, hfl⟩
      rw [hlog]
      simp

theorem diskWriteSectors_ok (dev lba : Nat) (buf : Buf) (is : List Nat)
    (hf : ∀ n, d.fails n = false) : (diskWriteSectors dev lba buf is d).1 = true := by
  induction is generalizing d with
  | nil => rfl
  | cons i is ih =>
    unfold diskWriteSectors Disk.writeSector
    simp only [hf d.clock, Bool.false_eq_true, if_false]
    exact ih hf

theorem u32_add_inj {lba i j : Nat} (hi : i < 8) (hj : j < 8) (h : u32 (lba + i) = u32 (lba + j)) :
    i = j := by
  unfold u32 at h
  omega

/-- A byte of the block after some of its sectors were written. -/
theorem foldl_sectors (dev lba : Nat) (buf : Buf) (is : List Nat) (his : ∀ i ∈ is, i < 8)
    (bytes : Bytes) {i r : Nat} (hi : i < 8) (hr : r < 512) :
    (is.map (sectorOf dev lba buf)).foldl SectorWrite.apply bytes dev (u32 (lba + i) * 512 + r)
      = if i ∈ is then buf (i * 512 + r) else bytes dev (u32 (lba + i) * 512 + r) := by
  induction is generalizing bytes with
  | nil => rfl
  | cons k is ih =>
    have hk : k < 8 := his k List.mem_cons_self
    rw [List.map_cons, List.foldl_cons, ih (fun x hx => his x (List.mem_cons_of_mem k hx))]
    have hdiv : (u32 (lba + i) * 512 + r) / 512 = u32 (lba + i) := by omega
    have hmod : (u32 (lba + i) * 512 + r) % 512 = r := by omega
    by_cases hin : i ∈ is
    · rw [if_pos hin, if_pos (List.mem_cons_of_mem k hin)]
    · rw [if_neg hin]
      unfold SectorWrite.apply sectorOf
      dsimp only
      rw [hdiv, hmod]
      by_cases hik : i = k
      · subst hik
        rw [if_pos ⟨rfl, rfl⟩, if_pos List.mem_cons_self]
        unfold slice
        rw [if_pos hr]
      · rw [if_neg (fun hc => hik (u32_add_inj hi hk hc.2)), if_neg (by simp [hin, hik])]

/-- Bytes of other sectors stay. -/
theorem foldl_sectors_other (dev lba : Nat) (buf : Buf) (is : List Nat) (bytes : Bytes)
    {dev' a : Nat} (h : dev' = dev → ∀ i ∈ is, a / 512 ≠ u32 (lba + i)) :
    (is.map (sectorOf dev lba buf)).foldl SectorWrite.apply bytes dev' a = bytes dev' a := by
  induction is generalizing bytes with
  | nil => rfl
  | cons k is ih =>
    rw [List.map_cons, List.foldl_cons, ih _ fun hd i hi => h hd i (List.mem_cons_of_mem k hi)]
    exact if_neg fun hc => h hc.1 k List.mem_cons_self hc.2

/-- What a block write leaves behind, whether it succeeds or stops on the way. -/
structure Wrote (d : Disk) (k : Key) (buf : Buf) (ok : Bool) (d' : Disk) : Prop where
  log : ∃ n ≤ 8, d'.log = d.log ++ ((List.range 8).take n).map (sectorOf k.1 k.2 buf) ∧
    (ok = true → n = 8)
  done : ok = true → d'.block k = slice buf 0 4096
  other : ∀ k', Sep k' k → d'.block k' = d.block k'
  base : d'.base = d.base
  canWrite : d'.canWrite = d.canWrite
  fails : d'.fails = d.fails

/-- Some sectors of a block are written: no other block changes. -/
theorem Disk.block_sectors {k : Key} {buf : Buf} {l : List Nat} (hb : d'.base = d.base)
    (hlog : d'.log = d.log ++ l.map (sectorOf k.1 k.2 buf)) (hlt : ∀ i ∈ l, i < 8) :
    (∀ j < 4096, d'.block k j = if j / 512 ∈ l then buf j else d.block k j) ∧
      ∀ k', Sep k' k → d'.block k' = d.block k' := by
  have hbytes := Disk.bytes_append hb hlog
  refine ⟨fun j hj => ?_, fun k' hsep => ?_⟩
  · unfold Disk.block
    rw [if_pos hj, if_pos hj, hbytes,
      foldl_sectors _ _ _ _ hlt _ (show j / 512 < 8 by omega) (Nat.mod_lt _ (by decide))]
    rw [show j / 512 * 512 + j % 512 = j by omega]
  · funext j
    unfold Disk.block
    split
    next hj =>
      rw [hbytes, foldl_sectors_other]
      intro hd i hi
      rw [show (u32 (k'.2 + j / 512) * 512 + j % 512) / 512 = u32 (k'.2 + j / 512) by omega]
      exact hsep hd _ (by omega) i (hlt i hi)
    · rfl

theorem Wrote.of_log {k : Key} {buf : Buf} {ok : Bool} {n : Nat} (hn : n ≤ 8)
    (hlog : d'.log = d.log ++ ((List.range 8).take n).map (sectorOf k.1 k.2 buf))
    (hok : ok = true → n = 8) (hb : d'.base = d.base) (hc : d'.canWrite = d.canWrite)
    (hf : d'.fails = d.fails) : Wrote d k buf ok d' := by
  obtain ⟨hself, hother⟩ := Disk.block_sectors hb hlog fun i hi =>
    List.mem_range.mp (List.mem_of_mem_take hi)
  refine ⟨⟨n, hn, hlog, hok⟩, fun h => ?_, hother, hb, hc, hf⟩
  refine (d'.block_clipped k).ext (slice_clipped buf 0 4096) fun j hj => ?_
  obtain rfl := hok h
  have hin : j / 512 ∈ (List.range 8).take 8 := by
    rw [List.take_of_length_le (by simp), List.mem_range]
    omega
  rw [hself j hj, if_pos hin, slice, if_pos hj, Nat.zero_add]

theorem diskWriteBlock_spec (d : Disk) (k : Key) (buf : Buf) :
    Wrote d k buf (diskWriteBlock d k.1 k.2 buf).1 (diskWriteBlock d k.1 k.2 buf).2 := by
  unfold diskWriteBlock
  split
  · exact Wrote.of_log (Nat.zero_le _) (by simp) nofun rfl rfl rfl
  obtain ⟨n, hn, hlog, hok, hb, hc, hf⟩ := diskWriteSectors_spec k.1 k.2 buf (List.range 8) d
  rw [List.length_range] at hn hok
  exact Wrote.of_log hn hlog hok hb hc hf

theorem diskWriteBlock_ok (hf : ∀ n, d.fails n = false) {dev : Nat}
    (hw : d.canWrite dev = true) (lba : Nat) (buf : Buf) :
    (diskWriteBlock d dev lba buf).1 = true := by
  unfold diskWriteBlock
  rw [hw]
  exact diskWriteSectors_ok dev lba buf _ hf

end Writing

end Drunix.Blk
