import Drunix.Mm.Pmm
import Drunix.Lib.Count
import Drunix.Lib.Loop

/-!
# Runs of the page allocator

The rest of `mm/pmm_core.c`: marking ranges and `pmm_core_init`, and any calls after
it. Page 0 is reserved by the initialisation, or on x86 by the ranges that `pmm_init` marks
used right after it (`pmmBoot`).
`pmm_run`: with page 0 reserved and no more pages than 32-bit addresses have, bitmap
and counts agree in every state, the free count is the number of pages without a reference,
an allocation fails exactly when there is none and takes one otherwise, and a page is not
handed out while references to it are held.

Beyond `2 ^ 20` pages an address no longer fits, and a page marked free is free whatever
references there are (`page_without_address`).
-/

namespace Drunix.Mm

open Lib Function

/-! ## Ranges and initialisation -/

/-- `pmm_range_t`. -/
structure PmmRange where
  base : Nat
  length : Nat

/-- The body of the loop of `pmm_core_mark_range`. -/
def markPage (used : Bool) (s : PmmCore) (page : Nat) : PmmCore :=
  if used then
    { pmmCoreBitmapSet s page with refcounts := update s.refcounts page 255 }
  else
    { pmmCoreBitmapClear s page with refcounts := update s.refcounts page 0 }

/-- `pmm_core_mark_range`. -/
def pmmCoreMarkRange (s : PmmCore) (base length : Nat) (used : Bool) : PmmCore :=
  if length = 0 then s
  else
    let startPage := base / pageSize
    let endPage := (base + length + pageSize - 1) / pageSize
    if startPage ≥ s.maxPages then s
    else
      let endPage := if endPage > s.maxPages then s.maxPages else endPage
      (List.range' startPage (endPage - startPage)).foldl (markPage used) s

/-- `pmm_core_init`. -/
def pmmCoreInit (s : PmmCore) (usable reserved : List PmmRange) : PmmCore :=
  let s :=
    { s with
      bitmap := fun i => if i < pmmCoreBitmapBytes s.maxPages then 255 else s.bitmap i
      refcounts := fun i => if i < s.maxPages then 255 else s.refcounts i }
  let s := usable.foldl (fun s r => pmmCoreMarkRange s r.base r.length false) s
  reserved.foldl (fun s r => pmmCoreMarkRange s r.base r.length true) s

/-- A call of the allocator. -/
inductive PmmOp where
  | init (usable reserved : List PmmRange)
  | markUsed (base length : Nat)
  | markFree (base length : Nat)
  | allocPage
  | freePage (phys : Nat)
  | incref (phys : Nat)
  | decref (phys : Nat)

def pmmStep (s : PmmCore) : PmmOp → PmmCore
  | .init usable reserved => pmmCoreInit s usable reserved
  | .markUsed base length => pmmCoreMarkRange s base length true
  | .markFree base length => pmmCoreMarkRange s base length false
  | .allocPage => (pmmCoreAllocPage s).2
  | .freePage phys => pmmCoreDecref s phys
  | .incref phys => pmmCoreIncref s phys
  | .decref phys => pmmCoreDecref s phys

/-! ## What marking does -/

/-- The pages that a range touches. -/
def PmmRange.Covers (r : PmmRange) (page : Nat) : Prop :=
  r.length ≠ 0 ∧ r.base / pageSize ≤ page ∧ page < (r.base + r.length + pageSize - 1) / pageSize

instance (r : PmmRange) (page : Nat) : Decidable (r.Covers page) :=
  inferInstanceAs (Decidable (_ ∧ _ ∧ _))

@[simp] theorem markPage_maxPages (used : Bool) (s : PmmCore) (page : Nat) :
    (markPage used s page).maxPages = s.maxPages := by
  unfold markPage
  split <;> rfl

theorem markPage_refcounts (used : Bool) (s : PmmCore) (page q : Nat) :
    (markPage used s page).refcounts q =
      if q = page then (if used then 255 else 0) else s.refcounts q := by
  unfold markPage
  split <;> simp only [update_apply]

theorem markPage_test (used : Bool) (s : PmmCore) (page q : Nat) :
    pmmCoreBitmapTest (markPage used s page) q =
      if q = page then used else pmmCoreBitmapTest s q := by
  unfold markPage
  split
  · next hu =>
    refine (test_set s page q).trans ?_
    by_cases hq : q = page <;> simp [hq, hu]
  · next hu =>
    refine (test_clear s page q).trans ?_
    by_cases hq : q = page <;> simp [hq, hu]

/-- What a range of pages marked leaves at each page. -/
structure Marked (used : Bool) (In : Nat → Prop) [DecidablePred In] (s s' : PmmCore) : Prop where
  maxPages : s'.maxPages = s.maxPages
  refcounts : ∀ q, s'.refcounts q = if In q then (if used then 255 else 0) else s.refcounts q
  test : ∀ q, pmmCoreBitmapTest s' q = if In q then used else pmmCoreBitmapTest s q

theorem markPage_marked (used : Bool) (s : PmmCore) (page : Nat) :
    Marked used (· = page) s (markPage used s page) :=
  ⟨markPage_maxPages used s page, markPage_refcounts used s page, markPage_test used s page⟩

variable {In : Nat → Prop} {s' : PmmCore} {w : PmmCore × Nat} {op : PmmOp}

theorem Marked.none {used : Bool} [DecidablePred In] {s : PmmCore} (h : ∀ q, ¬ In q) :
    Marked used In s s :=
  ⟨rfl, fun q => by rw [if_neg (h q)], fun q => by rw [if_neg (h q)]⟩

/-- One range after another. -/
theorem Marked.trans {used : Bool} {In' J : Nat → Prop} [DecidablePred In] [DecidablePred In']
    [DecidablePred J] {s s'' : PmmCore} (h : Marked used In s s') (h' : Marked used In' s' s'')
    (hJ : ∀ q, In' q ∨ In q ↔ J q) : Marked used J s s'' where
  maxPages := h'.maxPages.trans h.maxPages
  refcounts q := by
    rw [h'.refcounts, h.refcounts, ← ite_or]
    exact if_congr (hJ q) rfl rfl
  test q := by
    rw [h'.test, h.test, ← ite_or]
    exact if_congr (hJ q) rfl rfl

theorem markPages_marked (used : Bool) (s : PmmCore) (start n : Nat) :
    Marked used (fun q => start ≤ q ∧ q < start + n) s
      ((List.range' start n).foldl (markPage used) s) := by
  induction n with
  | zero => exact Marked.none fun q => by omega
  | succ n ih =>
    rw [List.range'_concat, Nat.one_mul, List.foldl_append, List.foldl_cons, List.foldl_nil]
    exact ih.trans (markPage_marked used _ (start + n)) fun q => by omega

theorem pmmCoreMarkRange_marked (s : PmmCore) (base length : Nat) (used : Bool) :
    Marked used (fun q => PmmRange.Covers ⟨base, length⟩ q ∧ q < s.maxPages) s
      (pmmCoreMarkRange s base length used) := by
  unfold pmmCoreMarkRange
  split
  · next h0 => exact Marked.none fun q hq => hq.1.1 h0
  dsimp only
  split
  · next hge => exact Marked.none fun q hq => absurd hq.1.2.1 (by simp only; omega)
  · next h0 hlt =>
    have hnone : Marked used (fun _ => False) s s := Marked.none fun _ => id
    refine hnone.trans (markPages_marked used s (base / pageSize) _) fun q => ?_
    unfold PmmRange.Covers
    rw [or_false]
    dsimp only
    split <;> omega

variable {page : Nat} {s : PmmCore}

/-- Marking keeps bitmap and counts together. -/
theorem Marked.inv {used : Bool} [DecidablePred In] (h : Marked used In s s') (hs : PmmInv s) : PmmInv s' := by
  intro q hq
  rw [h.test, h.refcounts]
  split
  · cases used <;> simp
  · exact hs q (h.maxPages ▸ hq)

/-! ## The invariant -/

/-- Bitmap and counts agree, page 0 is reserved, and every page has an address. -/
structure PmmOk (s : PmmCore) : Prop where
  inv : PmmInv s
  zero : 0 < s.maxPages → s.refcounts 0 = 255
  small : s.maxPages ≤ 1048576

/-- Page 0 stays reserved: it is not marked free, and initialised as reserved. -/
def KeepsZero : PmmOp → Prop
  | .init usable reserved =>
    (∀ r ∈ usable, ¬ r.Covers 0) ∨ ∃ r ∈ reserved, r.Covers 0
  | .markFree base length => ¬ PmmRange.Covers ⟨base, length⟩ 0
  | _ => True

/-- The loops of `pmm_core_init` over the ranges. -/
theorem markRanges_marked (used : Bool) (ranges : List PmmRange) (s : PmmCore) :
    Marked used (fun q => (∃ r ∈ ranges, r.Covers q) ∧ q < s.maxPages) s
      (ranges.foldl (fun s r => pmmCoreMarkRange s r.base r.length used) s) := by
  induction ranges generalizing s with
  | nil => exact Marked.none fun q => by simp
  | cons r ranges ih =>
    have hm := pmmCoreMarkRange_marked s r.base r.length used
    refine hm.trans (ih _) fun q => ?_
    rw [hm.maxPages, ← or_and_right, List.exists_mem_cons_iff, or_comm]

/-- `pmm_core_init`: pages are reserved, as far as the bitmap goes, and then marked. -/
theorem pmmCoreInit_marked (s : PmmCore) (usable reserved : List PmmRange) :
    ∃ s0 s1, s0.maxPages = s.maxPages ∧ (∀ q < s.maxPages, s0.refcounts q = 255) ∧
      (∀ q, pmmCoreBitmapTest s0 q =
        (decide (q / 8 < pmmCoreBitmapBytes s.maxPages) || pmmCoreBitmapTest s q)) ∧
      Marked false (fun q => (∃ r ∈ usable, r.Covers q) ∧ q < s0.maxPages) s0 s1 ∧
      Marked true (fun q => (∃ r ∈ reserved, r.Covers q) ∧ q < s1.maxPages) s1
        (pmmCoreInit s usable reserved) := by
  refine ⟨{ s with
    bitmap := fun i => if i < pmmCoreBitmapBytes s.maxPages then 255 else s.bitmap i
    refcounts := fun i => if i < s.maxPages then 255 else s.refcounts i }, _, rfl,
    fun q hq => if_pos hq, fun q => ?_, markRanges_marked false usable _,
    markRanges_marked true reserved _⟩
  have hbits : ∀ b < 8, Nat.testBit 255 b = true := by decide
  unfold pmmCoreBitmapTest
  dsimp only
  split
  next hq => simp [hq, hbits (q % 8) (Nat.mod_lt _ (by decide))]
  next hq => simp [hq]

theorem pmmCoreInit_maxPages (s : PmmCore) (usable reserved : List PmmRange) :
    (pmmCoreInit s usable reserved).maxPages = s.maxPages := by
  obtain ⟨s0, s1, hs0, -, -, hu, hr⟩ := pmmCoreInit_marked s usable reserved
  exact hr.maxPages.trans (hu.maxPages.trans hs0)

/-- What `pmm_core_init` leaves, if the size of the bitmap does not wrap. -/
theorem pmmCoreInit_spec (s : PmmCore) (usable reserved : List PmmRange)
    (hmax : s.maxPages ≤ 0xFFFFFFF8) :
    PmmInv (pmmCoreInit s usable reserved) ∧
    (pmmCoreInit s usable reserved).maxPages = s.maxPages ∧
    ∀ q < s.maxPages, (pmmCoreInit s usable reserved).refcounts q =
      if ∃ r ∈ reserved, r.Covers q then 255 else if ∃ r ∈ usable, r.Covers q then 0 else 255 := by
  obtain ⟨s0, s1, hs0, hrc, htest, hu, hr⟩ := pmmCoreInit_marked s usable reserved
  have hfill : PmmInv s0 := by
    intro q hq
    rw [hs0] at hq
    have hbyte : q / 8 < pmmCoreBitmapBytes s.maxPages := by
      unfold pmmCoreBitmapBytes u32
      omega
    simp [htest, hbyte, hrc q hq]
  refine ⟨hr.inv (hu.inv hfill), pmmCoreInit_maxPages s usable reserved, fun q hq => ?_⟩
  rw [hr.refcounts, hu.maxPages, hu.refcounts, hs0, hrc q hq]
  simp [hq]

theorem pmmCoreInit_ok (s : PmmCore) {usable reserved : List PmmRange}
    (hsmall : s.maxPages ≤ 1048576) (hzero : KeepsZero (.init usable reserved)) :
    PmmOk (pmmCoreInit s usable reserved) ∧
      (pmmCoreInit s usable reserved).maxPages = s.maxPages := by
  obtain ⟨hinv, hmax, href⟩ := pmmCoreInit_spec s usable reserved (by omega)
  refine ⟨⟨hinv, fun hpos => ?_, hmax ▸ hsmall⟩, hmax⟩
  rw [href 0 (hmax ▸ hpos)]
  rcases hzero with hzero | hzero
  · have hno : ¬ ∃ r ∈ usable, r.Covers 0 := fun ⟨r, hr, hc⟩ => hzero r hr hc
    simp [hno]
  · rw [if_pos hzero]

/-- `pmm_init` of an architecture: the initialisation, and ranges that are marked used. -/
def pmmBoot (s : PmmCore) (usable reserved marked : List PmmRange) : PmmCore :=
  marked.foldl (fun s r => pmmCoreMarkRange s r.base r.length true) (pmmCoreInit s usable reserved)

theorem pmmBoot_ok (s : PmmCore) {usable reserved marked : List PmmRange}
    (hsmall : s.maxPages ≤ 1048576)
    (hzero : KeepsZero (.init usable reserved) ∨ ∃ r ∈ marked, r.Covers 0) :
    PmmOk (pmmBoot s usable reserved marked) := by
  obtain ⟨hinv, hmax, -⟩ := pmmCoreInit_spec s usable reserved (by omega)
  have hm := markRanges_marked true marked (pmmCoreInit s usable reserved)
  refine ⟨hm.inv hinv, fun hpos => ?_, ?_⟩
  · have hpos' : 0 < (pmmCoreInit s usable reserved).maxPages := hm.maxPages ▸ hpos
    refine (hm.refcounts 0).trans ?_
    split
    · rfl
    next hout =>
      exact (pmmCoreInit_ok s hsmall (hzero.resolve_right fun hc => hout ⟨hc, hpos'⟩)).1.zero hpos'
  · exact (hm.maxPages.trans hmax).trans_le hsmall

/-- An allocation does not touch a page with references. -/
theorem alloc_keeps_used (h : PmmInv s) {q : Nat} (hq : q < s.maxPages)
    (hused : s.refcounts q ≠ 0) : (pmmCoreAllocPage s).2.refcounts q = s.refcounts q := by
  rcases pmmCoreAllocPage_spec s with hno | ⟨page, -, hclear, hgot⟩
  · rw [hno]
  · have hne : q ≠ page := by
      rintro rfl
      rw [(h q hq).mpr hused] at hclear
      cases hclear
    rw [hgot]
    exact update_of_ne hne _ _

theorem pmmStep_ok (h : PmmOk s) (hop : KeepsZero op) :
    PmmOk (pmmStep s op) ∧ (pmmStep s op).maxPages = s.maxPages := by
  have hmark : ∀ base length used, (used = false → ¬ PmmRange.Covers ⟨base, length⟩ 0) →
      PmmOk (pmmCoreMarkRange s base length used) ∧
        (pmmCoreMarkRange s base length used).maxPages = s.maxPages := by
    intro base length used hc
    have hm := pmmCoreMarkRange_marked s base length used
    refine ⟨⟨hm.inv h.inv, fun hpos => ?_, hm.maxPages ▸ h.small⟩, hm.maxPages⟩
    rw [hm.maxPages] at hpos
    rw [hm.refcounts]
    split
    · next hin =>
      cases used with
      | false => exact absurd hin.1 (hc rfl)
      | true => rfl
    · exact h.zero hpos
  have hdecref : ∀ phys, PmmOk (pmmCoreDecref s phys) ∧
      (pmmCoreDecref s phys).maxPages = s.maxPages := by
    intro phys
    refine ⟨⟨pmmCoreDecref_inv h.inv phys, fun hpos => ?_, ?_⟩, pmmCoreDecref_maxPages s phys⟩
    · rw [pmmCoreDecref_maxPages] at hpos
      rw [pmmCoreDecref_refcounts, if_neg (fun hc => hc.2.2 (h.zero hpos)), h.zero hpos]
    · rw [pmmCoreDecref_maxPages]
      exact h.small
  cases op with
  | init usable reserved => exact pmmCoreInit_ok s h.small hop
  | markUsed base length => exact hmark base length true (by simp)
  | markFree base length => exact hmark base length false fun _ => hop
  | allocPage =>
    refine ⟨⟨pmmCoreAllocPage_inv h.inv, fun hpos => ?_, ?_⟩, pmmCoreAllocPage_maxPages s⟩
    · simp only [pmmStep, pmmCoreAllocPage_maxPages] at hpos
      rw [pmmStep, alloc_keeps_used h.inv hpos (by rw [h.zero hpos]; decide), h.zero hpos]
    · simp only [pmmStep, pmmCoreAllocPage_maxPages]
      exact h.small
  | freePage phys | decref phys => exact hdecref phys
  | incref phys =>
    refine ⟨⟨pmmCoreIncref_inv h.inv phys, fun hpos => ?_, ?_⟩, pmmCoreIncref_maxPages s phys⟩
    · simp only [pmmStep, pmmCoreIncref_maxPages] at hpos
      rw [pmmStep, pmmCoreIncref_refcounts, if_neg (fun hc => hc.2.2 (h.zero hpos)), h.zero hpos]
    · simp only [pmmStep, pmmCoreIncref_maxPages]
      exact h.small

/-! ## An allocation that fails -/

/-- A byte of the bitmap in which the scan finds nothing has no page free, and where it gives
up there is no page behind it. -/
theorem allocScanBits_fails {i : Nat} {bits : List Nat}
    (hsorted : bits.Pairwise (· < ·)) (hfail : ∀ page, allocScanBits s i bits ≠ some (some page)) :
    (∀ b ∈ bits, i * 8 + b < s.maxPages → (s.bitmap i).testBit b = true) ∧
      (allocScanBits s i bits = some none → ∃ b ∈ bits, s.maxPages ≤ i * 8 + b) := by
  induction bits with
  | nil => exact ⟨by simp, by simp [allocScanBits]⟩
  | cons bit bits ih =>
    obtain ⟨hbit, htail⟩ := List.pairwise_cons.mp hsorted
    unfold allocScanBits at hfail ⊢
    by_cases hend : i * 8 + bit ≥ s.maxPages
    · rw [if_pos hend]
      refine ⟨fun b hb hlt => ?_, fun _ => ⟨bit, List.mem_cons_self, hend⟩⟩
      rcases List.mem_cons.mp hb with rfl | hb
      · omega
      · have := hbit b hb
        omega
    · rw [if_neg hend] at hfail ⊢
      by_cases hclear : (s.bitmap i).testBit bit = false
      · exact absurd (if_pos hclear) (hfail (i * 8 + bit))
      · rw [if_neg hclear] at hfail ⊢
        obtain ⟨h1, h2⟩ := ih htail hfail
        refine ⟨fun b hb hlt => ?_, fun hn => ?_⟩
        · rcases List.mem_cons.mp hb with rfl | hb
          · simpa using hclear
          · exact h1 b hb hlt
        · obtain ⟨b, hb, hge⟩ := h2 hn
          exact ⟨b, List.mem_cons_of_mem bit hb, hge⟩

theorem allocScan_fails {is : List Nat} (hsorted : is.Pairwise (· < ·))
    (hfail : allocScan s is = none) :
    ∀ i ∈ is, ∀ b < 8, i * 8 + b < s.maxPages → (s.bitmap i).testBit b = true := by
  induction is with
  | nil => simp
  | cons i is ih =>
    obtain ⟨hi, htail⟩ := List.pairwise_cons.mp hsorted
    intro j hj b hb hlt
    unfold allocScan at hfail
    by_cases hfull : s.bitmap i = 255
    · rw [if_neg (by simpa using hfull)] at hfail
      rcases List.mem_cons.mp hj with rfl | hj
      · have hbits : ∀ b < 8, Nat.testBit 255 b = true := by decide
        rw [hfull]
        exact hbits b hb
      · exact ih htail hfail j hj b hb hlt
    · rw [if_pos hfull] at hfail
      have hbits := List.pairwise_lt_range (n := 8)
      cases hscan : allocScanBits s i (List.range 8) with
      | none =>
        rw [hscan] at hfail
        obtain ⟨h1, -⟩ := allocScanBits_fails hbits (by rw [hscan]; simp)
        rcases List.mem_cons.mp hj with rfl | hj
        · exact h1 b (List.mem_range.mpr hb) hlt
        · exact ih htail hfail j hj b hb hlt
      | some r =>
        rw [hscan] at hfail
        obtain rfl : r = none := hfail
        obtain ⟨h1, h2⟩ := allocScanBits_fails hbits (by rw [hscan]; simp)
        rcases List.mem_cons.mp hj with rfl | hj
        · exact h1 b (List.mem_range.mpr hb) hlt
        · obtain ⟨c, hc, hge⟩ := h2 hscan
          have := hi j hj
          have := List.mem_range.mp hc
          omega

/-- An allocation fails only when every page is marked. -/
theorem allocScan_none (hsmall : s.maxPages ≤ 1048576)
    (h : allocScan s (List.range (pmmCoreBitmapBytes s.maxPages)) = none)
    (hpage : page < s.maxPages) : pmmCoreBitmapTest s page = true := by
  refine allocScan_fails List.pairwise_lt_range h (page / 8) ?_ (page % 8)
    (Nat.mod_lt _ (by decide)) (by omega)
  rw [List.mem_range]
  unfold pmmCoreBitmapBytes u32
  omega

theorem freePageCount_eq (h : PmmInv s) : pmmCoreFreePageCount s =
      ((List.range s.maxPages).filter fun page => s.refcounts page = 0).length := by
  unfold pmmCoreFreePageCount
  congr 1
  refine List.filter_congr fun page hpage => ?_
  have hiff := h page (List.mem_range.mp hpage)
  by_cases h0 : s.refcounts page = 0
  · simpa [h0] using hiff
  · simpa [h0] using hiff

/-- Taking a free page leaves one fewer. -/
theorem freePageCount_take (h : PmmInv s) (hlt : page < s.maxPages)
    (hclear : pmmCoreBitmapTest s page = false)
    (ha : (pmmCoreAllocPage s).2 =
      { pmmCoreBitmapSet s page with refcounts := update s.refcounts page 1 }) :
    pmmCoreFreePageCount (pmmCoreAllocPage s).2 + 1 = pmmCoreFreePageCount s := by
  have hcount : ∀ s : PmmCore, PmmInv s → pmmCoreFreePageCount s
      = count (Finset.range s.maxPages) fun page => decide (s.refcounts page = 0) := by
    intro s h
    rw [freePageCount_eq h]
    unfold count
    rw [← List.toFinset_range, ← List.toFinset_filter,
      List.toFinset_card_of_nodup (List.nodup_range.filter _)]
  have hinv := pmmCoreAllocPage_inv h
  rw [hcount _ hinv, hcount _ h]
  have hfree : s.refcounts page = 0 := by
    by_contra hc
    rw [(h page hlt).mpr hc] at hclear
    cases hclear
  rw [ha]
  have hupd := count_update (S := Finset.range s.maxPages)
    (q := fun q => decide (update s.refcounts page 1 q = 0)) (by simpa using hlt)
    fun q _ hq => by rw [update_of_ne hq]
  have hmax : (pmmCoreBitmapSet s page).maxPages = s.maxPages := rfl
  simpa [hfree, hmax] using hupd

theorem freePageCount_eq_zero (h : PmmInv s) :
    pmmCoreFreePageCount s = 0 ↔ ∀ page < s.maxPages, s.refcounts page ≠ 0 := by
  rw [freePageCount_eq h, List.length_eq_zero_iff, List.filter_eq_nil_iff]
  simp

/-- An allocation fails exactly when no page is free, and takes a free one otherwise. -/
theorem alloc_exact (h : PmmOk s) : ((pmmCoreAllocPage s).1 = 0 ↔ pmmCoreFreePageCount s = 0) ∧
    ((pmmCoreAllocPage s).1 ≠ 0 → ∃ page < s.maxPages,
      (pmmCoreAllocPage s).1 = page * pageSize ∧ s.refcounts page = 0) := by
  have hsmall := h.small
  cases hscan : allocScan s (List.range (pmmCoreBitmapBytes s.maxPages)) with
  | none =>
    have hzero : (pmmCoreAllocPage s).1 = 0 := by
      unfold pmmCoreAllocPage
      rw [hscan]
    refine ⟨⟨fun _ => ?_, fun _ => hzero⟩, fun hne => absurd hzero hne⟩
    rw [freePageCount_eq_zero h.inv]
    exact fun page hpage => (h.inv page hpage).mp (allocScan_none hsmall hscan hpage)
  | some page =>
    obtain ⟨hlt, hclear⟩ := allocScan_some _ hscan
    have hfree : s.refcounts page = 0 := by
      by_contra hne
      rw [(h.inv page hlt).mpr hne] at hclear
      cases hclear
    have hpos : page ≠ 0 := by
      rintro rfl
      rw [h.zero hlt] at hfree
      cases hfree
    have haddr : (pmmCoreAllocPage s).1 = page * pageSize := by
      unfold pmmCoreAllocPage
      rw [hscan]
      unfold pageSize
      exact Nat.mod_eq_of_lt (by omega)
    refine ⟨⟨fun h0 => ?_, fun h0 => ?_⟩, fun _ => ⟨page, hlt, haddr, hfree⟩⟩
    · rw [haddr] at h0
      unfold pageSize at h0
      omega
    · exact absurd hfree ((freePageCount_eq_zero h.inv).mp h0 page hlt)

/-! ## Runs -/

/-- A call together with the references to `page` that its owners hold. -/
def heldStep (page : Nat) (w : PmmCore × Nat) (op : PmmOp) : PmmCore × Nat :=
  (pmmStep w.1 op,
    match op with
    | .incref phys => if phys / pageSize = page then w.2 + 1 else w.2
    | .freePage phys | .decref phys => if phys / pageSize = page then w.2 - 1 else w.2
    | _ => w.2)

/-- The call is not the one that drops the last reference, and does not mark the page free
behind its owners' back. -/
def Holding (page : Nat) (w : PmmCore × Nat) (op : PmmOp) : Prop :=
  KeepsZero op ∧
  match op with
  | .init _ _ => False
  | .markFree base length => ¬ PmmRange.Covers ⟨base, length⟩ page
  | .freePage phys | .decref phys => phys / pageSize = page → 1 < w.2
  | _ => True

/-- A page with references that are held. -/
structure Held (page : Nat) (w : PmmCore × Nat) : Prop where
  ok : PmmOk w.1
  lt : page < w.1.maxPages
  pos : 0 < w.2
  counted : w.2 ≤ w.1.refcounts page ∨ w.1.refcounts page = 255

theorem Held.used (h : Held page w) : w.1.refcounts page ≠ 0 := by
  have := h.pos
  rcases h.counted with hc | hc <;> omega

theorem Held.step (h : Held page w) (hop : Holding page w op) : Held page (heldStep page w op) := by
  obtain ⟨hok, hmax⟩ := pmmStep_ok h.ok hop.1
  have hpos := h.pos
  have hlt := h.lt
  have hcounted := h.counted
  have hmark : ∀ base length used, (used = false → ¬ PmmRange.Covers ⟨base, length⟩ page) →
      w.2 ≤ (pmmCoreMarkRange w.1 base length used).refcounts page ∨
        (pmmCoreMarkRange w.1 base length used).refcounts page = 255 := by
    intro base length used hc
    rw [(pmmCoreMarkRange_marked w.1 base length used).refcounts]
    split
    · next hin =>
      cases used with
      | false => exact absurd hin.1 (hc rfl)
      | true => exact .inr rfl
    · exact hcounted
  have hdecref : ∀ phys, (phys / pageSize = page → 1 < w.2) →
      0 < (if phys / pageSize = page then w.2 - 1 else w.2) ∧
      ((if phys / pageSize = page then w.2 - 1 else w.2) ≤ (pmmCoreDecref w.1 phys).refcounts page ∨
        (pmmCoreDecref w.1 phys).refcounts page = 255) := by
    intro phys hone
    rw [pmmCoreDecref_refcounts]
    by_cases hpage : phys / pageSize = page
    · have := hone hpage
      rw [if_pos hpage]
      refine ⟨by omega, ?_⟩
      split <;> omega
    · rw [if_neg hpage, if_neg (fun hc => hpage hc.1.symm)]
      exact ⟨hpos, hcounted⟩
  cases op with
  | init usable reserved => exact absurd hop.2 id
  | markUsed base length => exact ⟨hok, hmax ▸ hlt, hpos, hmark base length true (by simp)⟩
  | markFree base length => exact ⟨hok, hmax ▸ hlt, hpos, hmark base length false fun _ => hop.2⟩
  | allocPage =>
    refine ⟨hok, hmax ▸ hlt, hpos, ?_⟩
    simp only [heldStep, pmmStep]
    rw [alloc_keeps_used h.ok.inv hlt h.used]
    exact hcounted
  | freePage phys | decref phys =>
    obtain ⟨h1, h2⟩ := hdecref phys hop.2
    exact ⟨hok, hmax ▸ hlt, h1, h2⟩
  | incref phys =>
    refine ⟨hok, hmax ▸ hlt, ?_, ?_⟩
    · simp only [heldStep]
      split <;> omega
    · simp only [heldStep, pmmStep]
      rw [pmmCoreIncref_refcounts]
      by_cases hpage : phys / pageSize = page
      · rw [if_pos hpage]
        split <;> omega
      · rw [if_neg hpage, if_neg (fun hc => hpage hc.1.symm)]
        exact hcounted

/-- A page that is handed out has one reference. -/
theorem held_of_alloc (h : PmmOk s)
    (haddr : (pmmCoreAllocPage s).1 = page * pageSize) (hne : (pmmCoreAllocPage s).1 ≠ 0) :
    Held page ((pmmCoreAllocPage s).2, 1) := by
  have hok : PmmOk (pmmCoreAllocPage s).2 := (pmmStep_ok h (show KeepsZero .allocPage from trivial)).1
  rcases pmmCoreAllocPage_spec s with hno | ⟨q, hlt, -, hgot⟩
  · rw [hno] at hne
    exact absurd rfl hne
  · have hsmall := h.small
    have hq : q = page := by
      rw [hgot] at haddr
      unfold pageSize u32 at haddr
      simp only at haddr
      omega
    subst hq
    refine ⟨hok, ?_, Nat.one_pos, .inl ?_⟩
    · rw [pmmCoreAllocPage_maxPages]
      exact hlt
    · rw [hgot]
      simp

/-- The allocator in every state it reaches from its initialisation. -/
theorem pmm_run {s₀ s : PmmCore} {usable reserved marked : List PmmRange}
    (hmax : s₀.maxPages ≤ 1048576)
    (hinit : KeepsZero (.init usable reserved) ∨ ∃ r ∈ marked, r.Covers 0)
    (hr : Reach pmmStep (fun _ op => KeepsZero op) (pmmBoot s₀ usable reserved marked) s) :
    (∀ page < s.maxPages, pmmCoreBitmapTest s page = true ↔ s.refcounts page ≠ 0) ∧
    pmmCoreFreePageCount s =
      ((List.range s.maxPages).filter fun page => s.refcounts page = 0).length ∧
    ((pmmCoreAllocPage s).1 = 0 ↔ pmmCoreFreePageCount s = 0) ∧
    ((pmmCoreAllocPage s).1 ≠ 0 → ∃ page < s.maxPages,
      (pmmCoreAllocPage s).1 = page * pageSize ∧ s.refcounts page = 0) ∧
    ∀ page, (pmmCoreAllocPage s).1 = page * pageSize → (pmmCoreAllocPage s).1 ≠ 0 →
      ∀ w, Reach (heldStep page) (Holding page) ((pmmCoreAllocPage s).2, 1) w →
        (pmmCoreAllocPage w.1).1 ≠ page * pageSize := by
  have h : PmmOk s := hr.inv PmmOk (pmmBoot_ok s₀ hmax hinit)
    fun s op hs hop => (pmmStep_ok hs hop).1
  obtain ⟨halloc, hpage⟩ := alloc_exact h
  refine ⟨h.inv, freePageCount_eq h.inv, halloc, hpage, fun page haddr hne w hw hagain => ?_⟩
  have hheld : Held page w := hw.inv (Held page) (held_of_alloc h haddr hne)
    fun w op hw hop => hw.step hop
  have hne' : (pmmCoreAllocPage w.1).1 ≠ 0 := by
    rw [hagain, ← haddr]
    exact hne
  obtain ⟨q, -, hq, hfree⟩ := (alloc_exact hheld.ok).2 hne'
  rw [hagain] at hq
  have hsame : page = q := Nat.eq_of_mul_eq_mul_right (by decide) hq
  exact hheld.used (hsame ▸ hfree)

/-- Storage for so many pages, with nothing in it. -/
def rawPmm (maxPages : Nat) : PmmCore := ⟨fun _ => 0, fun _ => 0, maxPages⟩

/-- Three usable pages, of which the first one is marked used. -/
def smallPmm : PmmCore := pmmBoot (rawPmm 3) [⟨0, 12288⟩] [] [⟨0, 4096⟩]

/-- Page 1 is handed out; with a reference taken and one dropped, page 2 is the next. -/
theorem second_page_next :
    (pmmCoreAllocPage smallPmm).1 = 1 * pageSize ∧
    (pmmCoreAllocPage (pmmCoreDecref (pmmCoreIncref (pmmCoreAllocPage smallPmm).2 4096) 4096)).1 ≠
      1 * pageSize := by
  have halloc : (pmmCoreAllocPage smallPmm).1 = 1 * pageSize := by decide
  refine ⟨halloc, ?_⟩
  have hrun := pmm_run (s := smallPmm) (by decide) (.inr (by decide)) Reach.start
  refine hrun.2.2.2.2 1 halloc (by decide) (_, 1) ?_
  have hinc : Reach (heldStep 1) (Holding 1) ((pmmCoreAllocPage smallPmm).2, 1)
      (pmmCoreIncref (pmmCoreAllocPage smallPmm).2 4096, 2) :=
    Reach.step (PmmOp.incref 4096) Reach.start ⟨trivial, trivial⟩
  exact Reach.step (PmmOp.decref 4096) hinc ⟨trivial, fun _ => Nat.one_lt_two⟩

/-- One page more than 32-bit addresses have, and no other usable. -/
def bigPmm : PmmCore :=
  pmmCoreMarkRange (pmmCoreInit (rawPmm 1048577) [⟨0xFFFFF000, 0x2000⟩] []) 0xFFFFF000 0x1000 true

theorem bigPmm_spec : PmmInv bigPmm ∧ bigPmm.maxPages = 1048577 ∧
    ∀ q < 1048577, bigPmm.refcounts q = 0 ↔ q = 1048576 := by
  obtain ⟨hinv, hmax, href⟩ := pmmCoreInit_spec (rawPmm 1048577) [⟨0xFFFFF000, 0x2000⟩] []
    (by decide)
  have hmark := pmmCoreMarkRange_marked
    (pmmCoreInit (rawPmm 1048577) [⟨0xFFFFF000, 0x2000⟩] []) 0xFFFFF000 0x1000 true
  refine ⟨hmark.inv hinv, hmark.maxPages.trans hmax, fun q hq => ?_⟩
  rw [bigPmm, hmark.refcounts, hmax, href q hq]
  simp only [PmmRange.Covers, pageSize, List.mem_singleton, exists_eq_left, rawPmm]
  split
  · next hin =>
    simp only [if_true]
    omega
  · next hin =>
    simp only [List.not_mem_nil, false_and, exists_false, if_false]
    split <;> omega

/-- The last of `2 ^ 20 + 1` pages is free, and the allocation fails; page 1 is handed out
twice with two references held, since it was marked free. -/
theorem page_without_address :
    (pmmCoreFreePageCount bigPmm ≠ 0 ∧ (pmmCoreAllocPage bigPmm).1 = 0) ∧
    (pmmCoreAllocPage smallPmm).1 = 4096 ∧
    (pmmCoreAllocPage (pmmCoreMarkRange (pmmCoreIncref (pmmCoreAllocPage smallPmm).2 4096)
      4096 4096 false)).1 = 4096 := by
  obtain ⟨hinv, hmax, hfree⟩ := bigPmm_spec
  refine ⟨⟨fun h0 => ?_, ?_⟩, by decide, by decide⟩
  · rw [freePageCount_eq_zero hinv, hmax] at h0
    exact h0 1048576 (by decide) ((hfree 1048576 (by decide)).mpr rfl)
  · rcases pmmCoreAllocPage_spec bigPmm with hno | ⟨page, hlt, hclear, hgot⟩
    · rw [hno]
    · have h0 : bigPmm.refcounts page = 0 := by
        by_contra hne
        rw [(hinv page hlt).mpr hne] at hclear
        cases hclear
      rw [hgot, (hfree page (hmax ▸ hlt)).mp h0]
      rfl

end Drunix.Mm
