import Drunix.Mm.PmmRun

/-!
# The memory map at boot

`arch/x86/mm/pmm.c`: the multiboot memory map becomes ranges, and `pmm_init` frees the
pages of those and marks what the kernel reserves. One rounding serves both: a range that is
marked takes in every page it meets, also when it is marked free.

`boot_map_iff`: a page left free has usable bytes only, exactly where every page that usable
ranges meet and no reserved one does is usable as a whole. `half_page_free`: a range that begins
in the middle of a page frees the other half too.
-/

namespace Drunix.Mm

open Lib

/-! ## The snapshot of the map -/

/-- `multiboot_mmap_entry_t`, with `uint64_t` numbers. -/
structure MmapEntry where
  size : Nat
  addr : Nat
  len : Nat
  type : Nat
  len_lt : len < 2 ^ 64

/-- The entry at an address of memory. -/
def mmapEntry (mem : Buf) (a : Nat) : MmapEntry where
  size := le32 mem a
  addr := le32 mem (a + 4) + 4294967296 * le32 mem (a + 8)
  len := le32 mem (a + 12) + 4294967296 * le32 mem (a + 16)
  type := le32 mem (a + 20)
  len_lt := by
    have := le32_lt mem (a + 12)
    have := le32_lt mem (a + 16)
    omega

/-- `multiboot_info_t`. A null pointer is one without flags. -/
structure MultibootInfo where
  flags : Nat
  mmapAddr : Nat := 0
  mmapLength : Nat := 0
  framebufferAddr : Nat := 0
  framebufferPitch : Nat := 0
  framebufferWidth : Nat := 0
  framebufferHeight : Nat := 0
  framebufferBpp : Nat := 0

/-- The entries that the loop over the map comes to. -/
def mmapWalk (mem : Buf) (mapEnd a : Nat) : List MmapEntry :=
  if u32 (a + 4) ≤ mapEnd then
    let next := u32 (a + (mmapEntry mem a).size + 4)
    if _h : next ≤ a ∨ next > mapEnd then [] else mmapEntry mem a :: mmapWalk mem mapEnd next
  else []
termination_by mapEnd - a
decreasing_by
  omega

def managedLimit : Nat := 0x40000000
def fallbackMaxPages : Nat := 0x10000000 / pageSize
def maxUsableRanges : Nat := 64

/-- `x86_pmm_boot_info_t`. -/
structure BootInfo where
  usable : List PmmRange
  maxPages : Nat := fallbackMaxPages
  framebuffer : Option PmmRange := none

/-- `x86_pmm_snapshot_add_usable`; with the highest address so far. -/
def snapshotAddUsable (p : BootInfo × Nat) (base length : Nat) : BootInfo × Nat :=
  let (boot, highest) := p
  if length = 0 ∨ base ≥ managedLimit then p
  else
    let stop := (base + length) % 2 ^ 64
    let stop := if stop < base ∨ stop > managedLimit then managedLimit else stop
    if stop ≤ base then p
    else
      let highest := if stop > highest then stop else highest
      if boot.usable.length < maxUsableRanges then
        ({ boot with usable := boot.usable ++ [⟨base, stop - base⟩] }, highest)
      else (boot, highest)

/-- `pmm_multiboot_framebuffer_range`. -/
def framebufferRange (mbi : MultibootInfo) : Option PmmRange :=
  if mbi.flags.testBit 12 = false ∨ mbi.framebufferAddr > 0xFFFFFFFF then none
  else if mbi.framebufferWidth = 0 ∨ mbi.framebufferHeight = 0 ∨ mbi.framebufferPitch = 0 ∨
      mbi.framebufferBpp = 0 then none
  else
    let bytesPerPixel := (mbi.framebufferBpp + 7) / 8
    let rowBytes := mbi.framebufferWidth * bytesPerPixel
    let lastRowOffset := (mbi.framebufferHeight - 1) * mbi.framebufferPitch
    let length := (lastRowOffset + rowBytes) % 2 ^ 64
    if length = 0 ∨ length > 0xFFFFFFFF ∨ mbi.framebufferAddr + length > 0x100000000 then none
    else some ⟨mbi.framebufferAddr, length⟩

/-- The memory map: its entries, if there are any. -/
def memoryMap (mem : Buf) (mbi : MultibootInfo) : List MmapEntry :=
  let mapEnd := u32 (mbi.mmapAddr + mbi.mmapLength)
  if mapEnd ≥ mbi.mmapAddr then mmapWalk mem mapEnd mbi.mmapAddr else []

/-- `x86_pmm_snapshot_boot_info`. -/
def snapshotBootInfo (mem : Buf) (mbi : MultibootInfo) : BootInfo :=
  let (boot, highest) :=
    if mbi.flags.testBit 6 then
      (memoryMap mem mbi).foldl
        (fun p e => if e.type = 1 then snapshotAddUsable p e.addr e.len else p) ({ usable := [] }, 0)
    else ({ usable := [⟨0x00100000, 0x07F00000⟩] }, fallbackMaxPages * pageSize)
  { boot with
    maxPages := if highest > 0 then highest / pageSize else boot.maxPages
    framebuffer := framebufferRange mbi }

/-- The kernel image, which with the tables behind it ends below 4 GiB. -/
structure KernelImage where
  start : Nat
  stop : Nat
  le : start ≤ stop
  low : stop ≤ 0xFFF00000

/-- `x86_page_align_up`. -/
def x86PageAlignUp (value : Nat) : Nat := u32 (value + pageSize - 1) / pageSize * pageSize

/-- The ranges of `x86_pmm_apply_reserved_ranges`, with the tables for `maxPages` pages. -/
def reservedRanges (k : KernelImage) (maxPages : Nat) (framebuffer : Option PmmRange) :
    List PmmRange :=
  let metadataLength := x86PageAlignUp (pmmCoreBitmapBytes maxPages + maxPages)
  [⟨0x00000000, 0x00100000⟩,
   ⟨k.start, (k.stop + pageSize - 1) / pageSize * pageSize - k.start⟩,
   ⟨0x00011000, 0x00041000⟩, ⟨0x00032000, 0x000CE000⟩, ⟨0x000A0000, 0x00020000⟩] ++
  (if metadataLength > 0 then [⟨x86PageAlignUp k.stop, metadataLength⟩] else []) ++
  framebuffer.toList

/-- `pmm_init`, over what was in the storage before. -/
def pmmInit (k : KernelImage) (mem : Buf) (mbi : MultibootInfo) (s : PmmCore) : PmmCore :=
  let boot := snapshotBootInfo mem mbi
  let s := pmmCoreInit { s with maxPages := boot.maxPages } boot.usable []
  (reservedRanges k boot.maxPages boot.framebuffer).foldl
    (fun s r => pmmCoreMarkRange s r.base r.length true) s

/-! ## Bytes and pages -/

/-- Every byte of the page is one of `R`. -/
def Whole (R : Nat → Prop) (q : Nat) : Prop := ∀ x, x / pageSize = q → R x

/-- The range has the byte. -/
def PmmRange.Has (r : PmmRange) (x : Nat) : Prop := r.base ≤ x ∧ x < r.base + r.length

/-- The firmware reports the byte in this entry. -/
def MmapEntry.Has (e : MmapEntry) (x : Nat) : Prop := e.addr ≤ x ∧ x < e.addr + e.len

theorem PmmRange.covers_iff (r : PmmRange) (q : Nat) :
    r.Covers q ↔ ∃ x, x / pageSize = q ∧ r.Has x := by
  unfold PmmRange.Covers PmmRange.Has pageSize
  constructor
  · rintro ⟨h0, hlo, hhi⟩
    -- the first byte of the page, or of the range where that begins behind it
    exact ⟨max r.base (q * 4096), by omega, by omega, by omega⟩
  · rintro ⟨x, hx, hlo, hhi⟩
    omega

/-- Nothing is reserved in the page, and it meets a usable range; or the bitmap is too short for
it, since its size has wrapped, and it was free before. -/
def Opened (s : PmmCore) (usable reserved : List PmmRange) (q : Nat) : Prop :=
  (¬ ∃ r ∈ reserved, r.Covers q) ∧ ((∃ r ∈ usable, r.Covers q) ∨
    pmmCoreBitmapBytes s.maxPages ≤ q / 8 ∧ pmmCoreBitmapTest s q = false)

variable {s : PmmCore} {usable reserved : List PmmRange} {q : Nat}

theorem pmmCoreInit_free_iff (hq : q < s.maxPages) :
    pmmCoreBitmapTest (pmmCoreInit s usable reserved) q = false ↔ Opened s usable reserved q := by
  obtain ⟨s0, s1, hs0, -, htest, hu, hr⟩ := pmmCoreInit_marked s usable reserved
  rw [hr.test, hu.maxPages, hu.test, hs0, htest]
  by_cases hres : ∃ r ∈ reserved, r.Covers q
  · rw [if_pos ⟨hres, hq⟩]
    exact iff_of_false (by simp) fun h => h.1 hres
  rw [if_neg fun hc => hres hc.1]
  by_cases huse : ∃ r ∈ usable, r.Covers q
  · rw [if_pos ⟨huse, hq⟩]
    exact iff_of_true rfl ⟨hres, .inl huse⟩
  · rw [if_neg fun hc => huse hc.1, Bool.or_eq_false_iff, decide_eq_false_iff_not, Nat.not_lt]
    simp only [Opened, hres, huse, not_false_eq_true, true_and, false_or]

/-! ## What the map says -/

/-- The usable entries with memory below the limit. -/
def counted (es : List MmapEntry) : List MmapEntry :=
  es.filter fun e => e.type = 1 ∧ e.len ≠ 0 ∧ e.addr < managedLimit

def MmapEntry.stop (e : MmapEntry) : Nat := min managedLimit (e.addr + e.len)

/-- What is below the limit. -/
def MmapEntry.clip (e : MmapEntry) : PmmRange := ⟨e.addr, e.stop - e.addr⟩

/-- The number of pages up to the highest of those. -/
def pagesOf (es : List MmapEntry) : Nat :=
  let top := (counted es).foldl (fun n e => max n e.stop) 0
  if top > 0 then top / pageSize else fallbackMaxPages

theorem snapshotAddUsable_eq (boot : BootInfo) (highest : Nat) {e : MmapEntry} (h0 : e.len ≠ 0)
    (hlow : e.addr < managedLimit) :
    snapshotAddUsable (boot, highest) e.addr e.len =
      ({ boot with usable := boot.usable ++
          if boot.usable.length < 64 then [e.clip] else [] },
        max highest e.stop) := by
  have hlen := e.len_lt
  have hstop : (if (e.addr + e.len) % 2 ^ 64 < e.addr ∨ (e.addr + e.len) % 2 ^ 64 > managedLimit
      then managedLimit else (e.addr + e.len) % 2 ^ 64) = e.stop := by
    unfold MmapEntry.stop managedLimit at *
    split <;> omega
  have hlt : ¬ e.stop ≤ e.addr := by
    unfold MmapEntry.stop
    omega
  unfold snapshotAddUsable
  simp only [hstop, if_neg hlt, if_neg (show ¬ (e.len = 0 ∨ e.addr ≥ managedLimit) by omega)]
  have hmax : (if e.stop > highest then e.stop else highest) = max highest e.stop := by
    split <;> omega
  rw [hmax]
  unfold maxUsableRanges
  split <;> simp [MmapEntry.clip]

/-- The loop records the first 64 of the entries that count, and the highest address of all. -/
theorem snapshot_foldl (es : List MmapEntry) (boot : BootInfo) (highest : Nat) :
    es.foldl (fun p e => if e.type = 1 then snapshotAddUsable p e.addr e.len else p) (boot, highest) =
      ({ boot with
          usable := boot.usable ++ ((counted es).take (64 - boot.usable.length)).map MmapEntry.clip },
        (counted es).foldl (fun n e => max n e.stop) highest) := by
  induction es generalizing boot highest with
  | nil => simp [counted]
  | cons e es ih =>
    rw [List.foldl_cons]
    by_cases hc : e.type = 1 ∧ e.len ≠ 0 ∧ e.addr < managedLimit
    · have hcons : counted (e :: es) = e :: counted es :=
        List.filter_cons_of_pos (by simpa using hc)
      rw [if_pos hc.1, snapshotAddUsable_eq boot highest hc.2.1 hc.2.2, ih, hcons, List.foldl_cons]
      split
      next hroom =>
        obtain ⟨n, hn⟩ : ∃ n, 64 - boot.usable.length = n + 1 := ⟨63 - boot.usable.length, by omega⟩
        simp [hn, show 64 - (boot.usable.length + 1) = n by omega]
      next hroom => simp [show 64 - boot.usable.length = 0 by omega]
    · have hcons : counted (e :: es) = counted es :=
        List.filter_cons_of_neg (by simpa using hc)
      rw [hcons, ← ih]
      congr 1
      split
      next ht =>
        exact if_pos (by omega)
      · rfl

theorem pagesOf_le (es : List MmapEntry) : pagesOf es ≤ 0x40000 := by
  have htop : ∀ (l : List MmapEntry) (n : Nat), n ≤ managedLimit →
      l.foldl (fun n e => max n e.stop) n ≤ managedLimit := by
    intro l
    induction l with
    | nil => exact fun n hn => hn
    | cons e l ih => exact fun n hn => ih _ (by unfold MmapEntry.stop; dsimp only; omega)
  have := htop (counted es) 0 (Nat.zero_le _)
  unfold pagesOf managedLimit fallbackMaxPages pageSize at *
  dsimp only
  split <;> omega

theorem snapshotBootInfo_eq (mem : Buf) {mbi : MultibootInfo} (hmap : mbi.flags.testBit 6 = true) :
    snapshotBootInfo mem mbi =
      ⟨((counted (memoryMap mem mbi)).take 64).map MmapEntry.clip, pagesOf (memoryMap mem mbi),
        framebufferRange mbi⟩ := by
  unfold snapshotBootInfo
  rw [if_pos hmap, snapshot_foldl]
  simp [pagesOf]

/-- The pages that `pmm_init` leaves free. -/
theorem pmmInit_free_iff (k : KernelImage) (mem : Buf) {mbi : MultibootInfo}
    (hmap : mbi.flags.testBit 6 = true) (hq : q < pagesOf (memoryMap mem mbi)) :
    pmmCoreBitmapTest (pmmInit k mem mbi s) q = false ↔
      (∃ e ∈ (counted (memoryMap mem mbi)).take 64, ∃ x, x / pageSize = q ∧ e.Has x) ∧
      ¬ ∃ r ∈ reservedRanges k (pagesOf (memoryMap mem mbi)) (framebufferRange mbi), r.Covers q := by
  have hle := pagesOf_le (memoryMap mem mbi)
  have hclip : ∀ e : MmapEntry, e.clip.Covers q ↔ ∃ x, x / pageSize = q ∧ e.Has x := by
    intro e
    rw [PmmRange.covers_iff]
    refine exists_congr fun x => and_congr_right fun hx => ?_
    unfold PmmRange.Has MmapEntry.Has MmapEntry.clip MmapEntry.stop managedLimit
    unfold pageSize at hx
    dsimp only
    omega
  have hbytes : ¬ pmmCoreBitmapBytes (pagesOf (memoryMap mem mbi)) ≤ q / 8 := by
    unfold pmmCoreBitmapBytes u32
    omega
  show pmmCoreBitmapTest (pmmCoreInit { s with maxPages := (snapshotBootInfo mem mbi).maxPages }
    (snapshotBootInfo mem mbi).usable (reservedRanges k _ (snapshotBootInfo mem mbi).framebuffer)) q =
      false ↔ _
  rw [snapshotBootInfo_eq mem hmap, pmmCoreInit_free_iff hq, Opened, and_comm]
  simp only [hbytes, hclip, false_and, or_false, List.mem_map, exists_exists_and_eq_and]

/-- A page left free is usable as a whole, exactly where every page that is opened is. -/
theorem boot_map_iff (s : PmmCore) (usable reserved : List PmmRange) (k : KernelImage) (mem : Buf)
    (mbi : MultibootInfo) (hmap : mbi.flags.testBit 6 = true) :
    ((∀ q < (pmmCoreInit s usable reserved).maxPages,
        pmmCoreBitmapTest (pmmCoreInit s usable reserved) q = false →
        Whole (fun x => (∃ r ∈ usable, r.Has x) ∧ ∀ r ∈ reserved, ¬ r.Has x) q) ↔
      ∀ q < s.maxPages, Opened s usable reserved q → Whole (fun x => ∃ r ∈ usable, r.Has x) q) ∧
    ((∀ q < (pmmInit k mem mbi s).maxPages, pmmCoreBitmapTest (pmmInit k mem mbi s) q = false →
        Whole (fun x => ∃ e ∈ memoryMap mem mbi, e.type = 1 ∧ e.Has x) q) ↔
      ∀ q < pagesOf (memoryMap mem mbi),
        (∃ e ∈ (counted (memoryMap mem mbi)).take 64, ∃ x, x / pageSize = q ∧ e.Has x) →
        (¬ ∃ r ∈ reservedRanges k (pagesOf (memoryMap mem mbi)) (framebufferRange mbi), r.Covers q) →
        Whole (fun x => ∃ e ∈ memoryMap mem mbi, e.type = 1 ∧ e.Has x) q) := by
  constructor
  · rw [pmmCoreInit_maxPages]
    refine forall₂_congr fun q hq => ?_
    rw [pmmCoreInit_free_iff hq]
    refine forall_congr' fun hopen => forall₂_congr fun x hx => and_iff_left fun r hr hhas => ?_
    exact hopen.1 ⟨r, hr, (r.covers_iff q).mpr ⟨x, hx, hhas⟩⟩
  · have hmax : (pmmInit k mem mbi s).maxPages = pagesOf (memoryMap mem mbi) := by
      show (pmmCoreInit _ _ (reservedRanges k _ _)).maxPages = _
      rw [pmmCoreInit_maxPages, snapshotBootInfo_eq mem hmap]
    rw [hmax]
    refine forall₂_congr fun q hq => ?_
    rw [pmmInit_free_iff k mem hmap hq, and_imp]

/-- A range of whole pages. -/
theorem aligned_map_whole : (64).testBit 6 = true ∧
    ∀ q < (pmmCoreInit (rawPmm 4) [⟨0x1000, 0x2000⟩] []).maxPages,
      pmmCoreBitmapTest (pmmCoreInit (rawPmm 4) [⟨0x1000, 0x2000⟩] []) q = false →
      Whole (fun x => (∃ r ∈ [(⟨0x1000, 0x2000⟩ : PmmRange)], r.Has x) ∧
        ∀ r ∈ ([] : List PmmRange), ¬ r.Has x) q := by
  refine ⟨by decide, (boot_map_iff (rawPmm 4) [⟨0x1000, 0x2000⟩] [] ⟨0, 0, by decide, by decide⟩
    (fun _ => 0) { flags := 64 } (by decide)).1.mpr fun q hq hopen x hx => ?_⟩
  refine ⟨_, List.mem_singleton_self _, ?_⟩
  change q < 4 at hq
  rcases hopen.2 with ⟨r, hr, hcover⟩ | ⟨hshort, -⟩
  · obtain rfl := List.mem_singleton.mp hr
    unfold PmmRange.Covers PmmRange.Has pageSize at *
    dsimp only at *
    omega
  · change 1 ≤ q / 8 at hshort
    omega

/-- Half of page 1 is not in the range, which frees it. -/
theorem half_page_free :
    pmmCoreBitmapTest (pmmCoreInit (rawPmm 4) [⟨0x1800, 0x1000⟩] []) 1 = false ∧
      ¬ Whole (fun x => ∃ r ∈ [(⟨0x1800, 0x1000⟩ : PmmRange)], r.Has x) 1 := by
  refine ⟨by decide, fun h => ?_⟩
  obtain ⟨r, hr, hlo, -⟩ := h 0x1000 rfl
  rw [List.mem_singleton.mp hr] at hlo
  simp at hlo

end Drunix.Mm
