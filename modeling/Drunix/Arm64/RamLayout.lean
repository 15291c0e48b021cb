import Drunix.Mm.PmmRun

/-!
# Which frames the arm64 kernel can reach

On arm64 user and kernel share one translation table: the kernel reads and writes a frame at
the virtual address equal to its physical one (`arm64_temp_map`), and a user mapping of that
page hides the frame. So the frames the allocator hands out must be kept apart from the pages a
process can map. `arch_mm_init` (`arch/arm64/arch.c`) does it by reserving ranges at
boot; what is left over depends on the RAM layout of the platform
(`arch/arm64/platform/*/platform_mm.c`).

`identity_reaches_frame`: no process can hide a frame of the allocator exactly when the boot
code withholds every page between the image window and the end of the heap window.
The image and stack windows are always withheld; on the Raspberry Pi 3, where RAM covers the
windows, the pages between them are not (`heap_page_hides_frame`).

Mirroring notes:
- `fdt_get_memory` gives the layout its first memory range, or none when there is no blob, the
  blob is invalid or has no range; every such case takes the defaults.
- `raspi5_register_framebuffer` runs after `arch_mm_init`, with its own `pmm_mark_used`.
- An address space is the function from user pages to frames that `arm64_mmu_query` reports.
-/

namespace Drunix.Arm64

open Lib Mm Function

/-- 64-bit arithmetic. -/
def u64 (n : Nat) : Nat := n % 18446744073709551616

/-- `a - b` on 64-bit words. -/
def sub64 (a b : Nat) : Nat := u64 (a + (18446744073709551616 - u64 b))

/-! ## `arch_layout.h`, `init_layout.h` -/

def arm64InitImageBase : Nat := 0x02000000
def arm64InitImageLimit : Nat := 0x02800000
def arm64InitStackBase : Nat := 0x03000000
def arm64InitStackTop : Nat := 0x03100000
def archHeapStart : Nat := 0x01800000
def archHeapEnd : Nat := 0x01F00000

/-- `ARCH_USER_HEAP_MAX`. -/
def archUserHeapMax : Nat := arm64InitStackBase - 64 * 0x1000

/-- `ARCH_USER_MMAP_MIN`. -/
def archUserMmapMin : Nat := 0x02400000

/-! ## The platforms -/

/-- `platform_ram_layout_t`. -/
structure RamLayout where
  ramBase : Nat
  ramSize : Nat
  heapBase : Nat
  heapSize : Nat
  kernelImageEnd : Nat
  framebufferBase : Nat := 0
  framebufferSize : Nat := 0
  scanoutCarveBase : Nat := 0
  scanoutCarveSize : Nat := 0

/-- `fdt_memory_range_t`. -/
structure FdtRange where
  base : Nat
  size : Nat

/-- The layout of `raspi3b/platform_mm.c`. -/
def raspi3bLayout : RamLayout where
  ramBase := 0x00000000
  ramSize := 0x40000000
  heapBase := archHeapStart
  heapSize := archHeapEnd - archHeapStart
  kernelImageEnd := 0x01800000

/-- `(x + PAGE_SIZE - 1) & ~(PAGE_SIZE - 1)`. -/
def pageUp (n : Nat) : Nat := u64 (n + pageSize - 1) / pageSize * pageSize

/-- The heap of `virt` and `raspi5`: it starts `offset` behind the kernel image and ends
16 MiB before the end of RAM; a RAM range too small for that is replaced by the default. -/
def ramAndHeap (ram dflt : FdtRange) (kernelEnd offset : Nat) : RamLayout :=
  let tail := 16 * 0x100000
  let heapBase := u64 (pageUp kernelEnd + offset)
  let ram := if u64 (ram.base + ram.size) < u64 (heapBase + tail) then dflt else ram
  { ramBase := ram.base
    ramSize := ram.size
    heapBase
    heapSize := sub64 (sub64 (ram.base + ram.size) tail) heapBase
    kernelImageEnd := pageUp kernelEnd }

/-- The first range of the device tree, cut to `limit`. -/
def fdtRam (fdt : Option FdtRange) (dflt : FdtRange) (limit : Nat) : FdtRange :=
  match fdt with
  | none => dflt
  | some r => { r with size := if r.size > limit then limit else r.size }

/-- `virt_ram_layout_init`. -/
def virtRamLayoutInit (fdt : Option FdtRange) (kernelEnd : Nat) : RamLayout :=
  let dflt : FdtRange := ⟨0x40000000, 0x40000000⟩
  let l := ramAndHeap (fdtRam fdt dflt 0x40000000) dflt kernelEnd (64 * 0x100000)
  let ramfbBytes := 8 * 0x100000
  let ramTop := u64 (l.ramBase + l.ramSize)
  let fbBase := sub64 ramTop ramfbBytes
  if fbBase ≥ u64 (l.heapBase + l.heapSize) ∧ u64 (fbBase + ramfbBytes) ≤ ramTop then
    { l with framebufferBase := fbBase, framebufferSize := ramfbBytes }
  else l

/-- `raspi5_ram_layout_init`. -/
def raspi5RamLayoutInit (fdt : Option FdtRange) (kernelEnd : Nat) : RamLayout :=
  let dflt : FdtRange := ⟨0x00000000, 0x10000000⟩
  { ramAndHeap (fdtRam fdt dflt 0x80000000) dflt kernelEnd (16 * 0x100000) with
    scanoutCarveBase := 0x04000000
    scanoutCarveSize := 1920 * 1080 * 4 * 16 }

/-- The platforms, each with what its boot code reads: the device tree's memory range, and the
linker's `_kernel_end`. -/
inductive Platform where
  | raspi3b (kernelEnd : Nat)
  | virt (fdt : Option FdtRange) (kernelEnd : Nat)
  | raspi5 (fdt : Option FdtRange) (kernelEnd : Nat)

namespace Platform

/-- `platform_ram_layout`. -/
def layout : Platform → RamLayout
  | raspi3b _ => raspi3bLayout
  | virt fdt kernelEnd => virtRamLayoutInit fdt kernelEnd
  | raspi5 fdt kernelEnd => raspi5RamLayoutInit fdt kernelEnd

/-- `_kernel_end`. -/
def kernelEnd : Platform → Nat
  | raspi3b kernelEnd | virt _ kernelEnd | raspi5 _ kernelEnd => kernelEnd

/-- `_kernel_start`, from the linker scripts. -/
def kernelStart : Platform → Nat
  | raspi3b _ | raspi5 _ _ => 0x80000
  | virt _ _ => 0x40080000

/-- `ARM64_PMM_MAX_PAGES`. -/
def maxPages : Platform → Nat
  | virt _ _ => 0x100000
  | raspi3b _ | raspi5 _ _ => 0x10000000 / pageSize

end Platform

/-! ## Boot -/

/-- The usable range of `pmm_init`. -/
def pmmInitUsable (l : RamLayout) : List PmmRange := [⟨u32 l.ramBase, u32 l.ramSize⟩]

/-- The reserved ranges of `pmm_init`: the low 512 KiB and the peripherals, when RAM starts
at 0. -/
def pmmInitReserved (l : RamLayout) : List PmmRange :=
  if l.ramBase = 0 then [⟨0, 0x00080000⟩, ⟨0x3f000000, 0x01000000⟩] else []

/-- The ranges that `arch_mm_init` marks used, in its order. -/
def archMmInitMarks (p : Platform) : List PmmRange :=
  let l := p.layout
  let kernelStart := p.kernelStart / pageSize * pageSize
  let kernelEnd := pageUp p.kernelEnd
  (if kernelEnd > kernelStart then [⟨u32 kernelStart, u32 (kernelEnd - kernelStart)⟩] else []) ++
  -- the boot stack, between the start of RAM and the image
  (if kernelStart > l.ramBase then [⟨u32 l.ramBase, u32 (kernelStart - l.ramBase)⟩] else []) ++
  [⟨u32 l.heapBase, u32 l.heapSize⟩,
   ⟨arm64InitImageBase, arm64InitImageLimit - arm64InitImageBase⟩,
   ⟨arm64InitStackBase, arm64InitStackTop - arm64InitStackBase⟩] ++
  (if l.framebufferSize ≠ 0 then [⟨u32 l.framebufferBase, u32 l.framebufferSize⟩] else []) ++
  (if l.scanoutCarveSize ≠ 0 then [⟨u32 l.scanoutCarveBase, u32 l.scanoutCarveSize⟩] else [])

/-- `arch_mm_init`, as far as the allocator goes. -/
def archMmInit (p : Platform) : PmmCore :=
  let s := pmmCoreInit (rawPmm p.maxPages) (pmmInitUsable p.layout) (pmmInitReserved p.layout)
  (archMmInitMarks p).foldl (fun s r => pmmCoreMarkRange s r.base r.length true) s

/-- The page is never given to the allocator: beyond its tables, outside RAM, or in a range
that boot code reserves. -/
def Withheld (p : Platform) (page : Nat) : Prop :=
  p.maxPages ≤ page ∨ (∀ r ∈ pmmInitUsable p.layout, ¬ r.Covers page) ∨
    ∃ r ∈ pmmInitReserved p.layout ++ archMmInitMarks p, r.Covers page

instance Withheld.decidable (p : Platform) (page : Nat) : Decidable (Withheld p page) :=
  inferInstanceAs (Decidable (_ ∨ _ ∨ _))

theorem maxPages_le (p : Platform) : p.maxPages ≤ 1048576 := by
  cases p <;> simp [Platform.maxPages, pageSize]

theorem archMmInit_spec (p : Platform) :
    PmmInv (archMmInit p) ∧ (archMmInit p).maxPages = p.maxPages ∧
    ∀ page < p.maxPages, (archMmInit p).refcounts page = if Withheld p page then 255 else 0 := by
  have heq : archMmInit p = pmmCoreInit (rawPmm p.maxPages) (pmmInitUsable p.layout)
      (pmmInitReserved p.layout ++ archMmInitMarks p) := by
    unfold archMmInit pmmCoreInit
    simp only [List.foldl_append]
  obtain ⟨hinv, hmax, href⟩ := pmmCoreInit_spec (rawPmm p.maxPages) (pmmInitUsable p.layout)
    (pmmInitReserved p.layout ++ archMmInitMarks p) ((maxPages_le p).trans (by decide))
  rw [heq]
  refine ⟨hinv, hmax, fun page hpage => (href page hpage).trans ?_⟩
  have hlt : ¬ p.maxPages ≤ page := by omega
  by_cases hres : ∃ r ∈ pmmInitReserved p.layout ++ archMmInitMarks p, r.Covers page
  · rw [if_pos hres, if_pos (show Withheld p page from .inr (.inr hres))]
  · have hall : (∀ r ∈ pmmInitUsable p.layout, ¬ r.Covers page) ↔
        ¬ ∃ r ∈ pmmInitUsable p.layout, r.Covers page := by simp
    simp only [Withheld, hlt, hres, hall, false_or, or_false, if_false, ite_not]

/-! ## Address spaces over the allocator -/

/-- What an address space maps for its user: page to frame. -/
abbrev UserMap : Type := Nat → Option Nat

/-- The allocator, and the user mappings of the address spaces that exist. -/
structure Machine where
  pmm : PmmCore
  spaces : Nat → Option UserMap

/-- A call of the allocator or of the mapping layer. -/
inductive MachineOp where
  | allocPage
  | incref (phys : Nat)
  | decref (phys : Nat)
  | markUsed (base length : Nat)
  | create
  | map (aspace page frame : Nat)
  | unmap (aspace page : Nat)
  | destroy (aspace : Nat)

/-- Change one page of an address space, if there is such a space. -/
def Machine.setPage (s : Machine) (aspace page : Nat) (frame : Option Nat) : Machine :=
  { s with
    spaces := update s.spaces aspace
      ((s.spaces aspace).map fun m => update m page frame) }

def machineStep (s : Machine) : MachineOp → Machine
  | .allocPage => { s with pmm := (pmmCoreAllocPage s.pmm).2 }
  | .incref phys => { s with pmm := pmmCoreIncref s.pmm phys }
  | .decref phys => { s with pmm := pmmCoreDecref s.pmm phys }
  | .markUsed base length => { s with pmm := pmmCoreMarkRange s.pmm base length true }
  | .create =>
    -- the address space is named by the page of its top table
    let (l1, pmm) := pmmCoreAllocPage s.pmm
    if l1 = 0 then { s with pmm }
    else ⟨pmm, update s.spaces l1 (some fun _ => none)⟩
  | .map aspace page frame => s.setPage aspace page (some frame)
  | .unmap aspace page => s.setPage aspace page none
  | .destroy aspace => ⟨pmmCoreDecref s.pmm aspace, update s.spaces aspace none⟩

/-- The pages of the user image, of the heap and `mmap` windows, and of the stack. -/
def InUserWindow (page : Nat) : Prop :=
  (arm64InitImageBase / pageSize ≤ page ∧ page < arm64InitImageLimit / pageSize) ∨
  (archUserMmapMin / pageSize ≤ page ∧ page < archUserHeapMax / pageSize) ∨
  (arm64InitStackBase / pageSize ≤ page ∧ page < arm64InitStackTop / pageSize)

variable {s : Machine} {page : Nat} {p : Platform}

theorem inUserWindow_iff : InUserWindow page ↔
    (0x2000 ≤ page ∧ page < 0x2FC0) ∨ (0x3000 ≤ page ∧ page < 0x3100) := by
  have hbounds : arm64InitImageBase / pageSize = 0x2000 ∧ arm64InitImageLimit / pageSize = 0x2800 ∧
      archUserMmapMin / pageSize = 0x2400 ∧ archUserHeapMax / pageSize = 0x2FC0 ∧
      arm64InitStackBase / pageSize = 0x3000 ∧ arm64InitStackTop / pageSize = 0x3100 := by decide
  unfold InUserWindow
  omega

/-- User mappings go into the windows. -/
def MapsWindows (_ : Machine) : MachineOp → Prop
  | .map _ page _ => InUserWindow page
  | _ => True

/-- After `arch_mm_init`, with no process yet. -/
def booted (p : Platform) : Machine := ⟨archMmInit p, fun _ => none⟩

/-- `pmm_alloc_page` returns the page in some run. -/
def CanReturn (p : Platform) (page : Nat) : Prop :=
  ∃ s, Reach machineStep MapsWindows (booted p) s ∧
    (pmmCoreAllocPage s.pmm).1 = page * pageSize ∧ (pmmCoreAllocPage s.pmm).1 ≠ 0

/-- `arm64_temp_map`; `0` is the null pointer. -/
def arm64TempMap (phys : Nat) : Nat := if phys > 0xFFFFFFFF then 0 else phys

/-- The frame behind a virtual address: a user mapping, if there is one, and the identity map
of the kernel otherwise. -/
def UserMap.access (m : UserMap) (virt : Nat) : Nat := (m (virt / pageSize)).getD (virt / pageSize)

/-- Every frame of the allocator is, at its identity address in every address space, not mapped
by a user mapping or mapped to itself; so the pointer `arm64_temp_map` gives is the frame's. -/
def RightFrame (p : Platform) (s : Machine) : Prop :=
  ∀ page, CanReturn p page → ∀ aspace m, s.spaces aspace = some m →
    (m page = none ∨ m page = some page) ∧ m.access (arm64TempMap (page * pageSize)) = page

/-! ## What the allocator keeps and what it gives away -/

/-- Withheld pages stay reserved, and user mappings stay in the windows. -/
structure Kept (p : Platform) (s : Machine) : Prop where
  inv : PmmInv s.pmm
  maxPages : s.pmm.maxPages = p.maxPages
  withheld : ∀ page < p.maxPages, Withheld p page → s.pmm.refcounts page = 255
  user : ∀ aspace m, s.spaces aspace = some m → ∀ page, m page ≠ none → InUserWindow page

theorem booted_kept (p : Platform) : Kept p (booted p) := by
  obtain ⟨hinv, hmax, href⟩ := archMmInit_spec p
  refine ⟨hinv, hmax, fun page hpage hw => ?_, fun aspace m h => absurd h (by simp [booted])⟩
  exact (href page hpage).trans (if_pos hw)

/-- A change of the allocator that leaves reserved pages reserved. -/
theorem Kept.setPmm (h : Kept p s) {pmm : PmmCore} (hinv : PmmInv pmm)
    (hmax : pmm.maxPages = s.pmm.maxPages)
    (href : ∀ page < s.pmm.maxPages, s.pmm.refcounts page = 255 → pmm.refcounts page = 255) :
    Kept p { s with pmm } :=
  ⟨hinv, hmax.trans h.maxPages,
    fun page hpage hw => href page (h.maxPages ▸ hpage) (h.withheld page hpage hw), h.user⟩

/-- A change of one address space whose mappings lie in the windows. -/
theorem Kept.setSpace (h : Kept p s) (aspace : Nat)
    {f : Option UserMap} (hf : ∀ m, f = some m → ∀ page, m page ≠ none → InUserWindow page) :
    Kept p { s with spaces := update s.spaces aspace f } := by
  refine ⟨h.inv, h.maxPages, h.withheld, fun a m hm page hne => ?_⟩
  by_cases ha : a = aspace
  · subst ha
    exact hf m ((update_self a f s.spaces).symm.trans hm) page hne
  · exact h.user a m ((update_of_ne ha f s.spaces).symm.trans hm) page hne

theorem Kept.setPage (h : Kept p s) (aspace page : Nat)
    {frame : Option Nat} (hin : frame ≠ none → InUserWindow page) :
    Kept p (s.setPage aspace page frame) := by
  refine h.setSpace aspace fun m hm q hne => ?_
  obtain ⟨m', hm', rfl⟩ := Option.map_eq_some_iff.mp hm
  by_cases hq : q = page
  · subst hq
    rw [update_self] at hne
    exact hin hne
  · rw [update_of_ne hq] at hne
    exact h.user aspace m' hm' q hne

theorem Kept.alloc (h : Kept p s) : Kept p { s with pmm := (pmmCoreAllocPage s.pmm).2 } := by
  refine h.setPmm (pmmCoreAllocPage_inv h.inv) (pmmCoreAllocPage_maxPages s.pmm) ?_
  intro page hpage h255
  rw [alloc_keeps_used h.inv hpage (by rw [h255]; decide), h255]

theorem Kept.decref (h : Kept p s) (phys : Nat) :
    Kept p { s with pmm := pmmCoreDecref s.pmm phys } := by
  refine h.setPmm (pmmCoreDecref_inv h.inv phys) (pmmCoreDecref_maxPages s.pmm phys) ?_
  intro page _ h255
  rw [pmmCoreDecref_refcounts, if_neg (fun hc => hc.2.2 h255), h255]

theorem Kept.step (h : Kept p s) {op : MachineOp}
    (hok : MapsWindows s op) : Kept p (machineStep s op) := by
  cases op with
  | allocPage => exact h.alloc
  | incref phys =>
    refine h.setPmm (pmmCoreIncref_inv h.inv phys) (pmmCoreIncref_maxPages s.pmm phys) ?_
    intro page _ h255
    rw [pmmCoreIncref_refcounts, if_neg (fun hc => hc.2.2 h255), h255]
  | decref phys => exact h.decref phys
  | markUsed base length =>
    have hm := pmmCoreMarkRange_marked s.pmm base length true
    refine h.setPmm (hm.inv h.inv) hm.maxPages fun page _ h255 => ?_
    rw [hm.refcounts, h255]
    simp
  | create =>
    show Kept p (if (pmmCoreAllocPage s.pmm).1 = 0 then { s with pmm := (pmmCoreAllocPage s.pmm).2 }
      else ⟨(pmmCoreAllocPage s.pmm).2,
        update s.spaces (pmmCoreAllocPage s.pmm).1 (some fun _ => none)⟩)
    by_cases h0 : (pmmCoreAllocPage s.pmm).1 = 0
    · rw [if_pos h0]
      exact h.alloc
    · rw [if_neg h0]
      refine h.alloc.setSpace _ fun m hm page hne => ?_
      cases hm
      exact absurd rfl hne
  | map aspace page frame => exact h.setPage aspace page fun _ => hok
  | unmap aspace page => exact h.setPage aspace page fun hne => absurd rfl hne
  | destroy aspace => exact (h.decref aspace).setSpace aspace nofun

theorem reach_kept (h : Reach machineStep MapsWindows (booted p) s) : Kept p s :=
  h.inv (Kept p) (booted_kept p) fun _ _ hk hok => hk.step hok

/-- No run makes the allocator return a withheld page. -/
theorem CanReturn.not_withheld (h : CanReturn p page) : ¬ Withheld p page ∧ page < p.maxPages := by
  obtain ⟨s, hs, haddr, hne⟩ := h
  have hk := reach_kept hs
  rcases pmmCoreAllocPage_spec s.pmm with hno | ⟨q, hlt, hclear, hgot⟩
  · rw [hno] at hne
    exact absurd rfl hne
  have hsmall := maxPages_le p
  rw [hk.maxPages] at hlt
  rw [hgot] at haddr
  have hq : q * pageSize = page * pageSize := by
    rw [← haddr]
    refine (u32_of_lt ?_).symm
    unfold pageSize
    omega
  obtain rfl : q = page := Nat.eq_of_mul_eq_mul_right (by decide) hq
  refine ⟨fun hw => ?_, hlt⟩
  have hused := (hk.inv q (hk.maxPages ▸ hlt)).mpr (by rw [hk.withheld q hlt hw]; decide)
  rw [hused] at hclear
  cases hclear

/-- A free page is returned after some more allocations. -/
theorem alloc_until (hpage : page < p.maxPages) (hpos : page ≠ 0)
    (n : Nat) : ∀ s, Reach machineStep MapsWindows (booted p) s → s.pmm.refcounts page = 0 →
      pmmCoreFreePageCount s.pmm = n → CanReturn p page := by
  -- each allocation takes another page off the free ones, or this one
  induction n with
  | zero =>
    intro s hs hfree hn
    have hk := reach_kept hs
    exact absurd hfree ((freePageCount_eq_zero hk.inv).mp hn page (hk.maxPages ▸ hpage))
  | succ n ih =>
    intro s hs hfree hn
    have hk := reach_kept hs
    have hsmall := maxPages_le p
    have hpage' : page < s.pmm.maxPages := hk.maxPages ▸ hpage
    cases hscan : allocScan s.pmm (List.range (pmmCoreBitmapBytes s.pmm.maxPages)) with
    | none =>
      have hmarked := allocScan_none (hk.maxPages ▸ hsmall) hscan hpage'
      exact absurd hfree ((hk.inv page hpage').mp hmarked)
    | some q =>
      obtain ⟨hlt, hclear⟩ := allocScan_some _ hscan
      have hgot : pmmCoreAllocPage s.pmm = (u32 (q * pageSize),
          { pmmCoreBitmapSet s.pmm q with refcounts := update s.pmm.refcounts q 1 }) := by
        unfold pmmCoreAllocPage
        rw [hscan]
        rfl
      by_cases hq : q = page
      · subst hq
        have haddr : (pmmCoreAllocPage s.pmm).1 = q * pageSize := by
          rw [hgot]
          refine u32_of_lt ?_
          unfold pageSize
          omega
        refine ⟨s, hs, haddr, ?_⟩
        rw [haddr]
        unfold pageSize
        omega
      · have hcount := freePageCount_take hk.inv hlt hclear (by rw [hgot])
        refine ih _ (hs.step MachineOp.allocPage trivial) ?_ ?_
        · show (pmmCoreAllocPage s.pmm).2.refcounts page = 0
          rw [hgot]
          exact (update_of_ne (Ne.symm hq) _ _).trans hfree
        · show pmmCoreFreePageCount (pmmCoreAllocPage s.pmm).2 = n
          omega

/-- A page that is not withheld is returned in some run. -/
theorem canReturn_of_not_withheld (hpage : page < p.maxPages)
    (hpos : page ≠ 0) (hw : ¬ Withheld p page) : CanReturn p page := by
  obtain ⟨-, -, href⟩ := archMmInit_spec p
  exact alloc_until hpage hpos _ (booted p) Reach.start
    ((href page hpage).trans (if_neg hw)) rfl

/-! ## The result -/

/-- Boot code withholds every page between the end of the image window and the end of the heap
window. -/
def Sheltered (p : Platform) : Prop :=
  ∀ page, arm64InitImageLimit / pageSize ≤ page → page < archUserHeapMax / pageSize →
    Withheld p page

/-- The image and stack windows are withheld on every platform. -/
theorem windows_withheld (h : Sheltered p) (hin : InUserWindow page) : Withheld p page := by
  have himage : PmmRange.mk arm64InitImageBase (arm64InitImageLimit - arm64InitImageBase) ∈
      archMmInitMarks p := by simp [archMmInitMarks]
  have hstack : PmmRange.mk arm64InitStackBase (arm64InitStackTop - arm64InitStackBase) ∈
      archMmInitMarks p := by simp [archMmInitMarks]
  have hin := inUserWindow_iff.mp hin
  have hcovers : ∀ base length, base % pageSize = 0 → length % pageSize = 0 → length ≠ 0 →
      base / pageSize ≤ page → page < base / pageSize + length / pageSize →
      PmmRange.Covers ⟨base, length⟩ page := by
    intro base length hb hl h0 hlo hhi
    refine ⟨h0, hlo, ?_⟩
    simp only [pageSize] at *
    omega
  by_cases hlow : page < 0x2800
  · refine .inr (.inr ⟨_, List.mem_append_right _ himage, ?_⟩)
    exact hcovers _ _ (by decide) (by decide) (by decide)
      (show 0x2000 ≤ page by omega) (show page < 0x2800 from hlow)
  by_cases hmid : page < 0x2FC0
  · exact h page (show 0x2800 ≤ page by omega) (show page < 0x2FC0 from hmid)
  · refine .inr (.inr ⟨_, List.mem_append_right _ hstack, ?_⟩)
    exact hcovers _ _ (by decide) (by decide) (by decide)
      (show 0x3000 ≤ page by omega) (show page < 0x3100 by omega)

/-- A window page that is not withheld can be mapped over the frame of the same number. -/
theorem window_hides_frame (hin : InUserWindow page) (hw : ¬ Withheld p page) :
    ∃ s, Reach machineStep MapsWindows (booted p) s ∧ ¬ RightFrame p s := by
  have hpage : page < p.maxPages := by
    by_contra hge
    exact hw (.inl (by omega))
  have hpos : page ≠ 0 := by
    have := inUserWindow_iff.mp hin
    omega
  have hcan := canReturn_of_not_withheld hpage hpos hw
  -- a process whose top table is that page, and one mapping
  obtain ⟨s, hs, -, hne⟩ := id hcan
  have hspace : (machineStep (machineStep s .create)
      (.map (pmmCoreAllocPage s.pmm).1 page (page + 1))).spaces (pmmCoreAllocPage s.pmm).1
        = some (update (fun _ => none) page (some (page + 1))) := by
    simp [machineStep, Machine.setPage, hne]
  refine ⟨_, (hs.step MachineOp.create trivial).step
    (MachineOp.map (pmmCoreAllocPage s.pmm).1 page (page + 1)) hin, fun hright => ?_⟩
  rcases (hright page hcan _ _ hspace).1 with hmap | hmap <;> simp at hmap

/-- In every state of the machine the kernel reaches each frame that the allocator can return at its
identity address, whichever process runs, exactly if the boot withholds the user windows. -/
theorem identity_reaches_frame (p : Platform) :
    (∀ s, Reach machineStep MapsWindows (booted p) s → RightFrame p s) ↔ Sheltered p := by
  constructor
  · intro h page hlo hhi
    by_contra hw
    have hin : InUserWindow page := by
      refine .inr (.inl ⟨?_, hhi⟩)
      refine Nat.le_trans ?_ hlo
      decide
    obtain ⟨s, hs, hbad⟩ := window_hides_frame hin hw
    exact hbad (h s hs)
  · intro h s hs page hcan aspace m hm
    obtain ⟨hfree, hlt⟩ := hcan.not_withheld
    have hnone : m page = none := by
      by_contra hne
      exact hfree (windows_withheld h ((reach_kept hs).user aspace m hm page hne))
    refine ⟨.inl hnone, ?_⟩
    have hsmall := maxPages_le p
    have htemp : arm64TempMap (page * pageSize) = page * pageSize := by
      refine if_neg ?_
      unfold pageSize
      omega
    rw [htemp, UserMap.access, Nat.mul_div_cancel _ (by decide), hnone]
    rfl

/-- On the Raspberry Pi 3 a process can map the first page behind the image window, and the
allocator can return the frame of that number. -/
theorem heap_page_hides_frame :
    ∃ s, Reach machineStep MapsWindows (booted (.raspi3b 0x00400000)) s ∧
      ¬ RightFrame (.raspi3b 0x00400000) s := by
  have hin : InUserWindow 0x2800 := .inr (.inl (by decide))
  exact window_hides_frame hin (by decide)

end Drunix.Arm64
