import Drunix.Lib.Bytes

/-!
# The physical page allocator

`mm/pmm_core.c`: a bitmap with one bit per page frame and an 8-bit
reference count beside it. A frame is handed out by `pmm_core_alloc_page` with
count 1, shared by `pmm_core_incref`, and returned by `pmm_core_decref` when the
last reference goes. A count of `0xFF` is sticky: reserved frames start there
and a frame with that many references is never given back.

`PmmInv` is the coherence of the two tables. The allocator's own lemmas are
stated over it: what `alloc` returns was unused (`pmmCoreAllocPage_spec`), and
`incref`/`decref` move one count by one.

The `pmm_core_has_storage` guards are left out: with `max_pages = 0` every
function below already falls through to its failing branch.
-/

namespace Drunix.Mm

open Lib Function

/-- `PAGE_SIZE`. -/
def pageSize : Nat := 4096

/-- `pmm_core_state_t`: bitmap bytes, reference counts, number of pages. -/
structure PmmCore where
  bitmap : Nat → Nat
  refcounts : Nat → Nat
  maxPages : Nat

/-- `pmm_core_bitmap_bytes`. -/
def pmmCoreBitmapBytes (maxPages : Nat) : Nat := u32 (maxPages + 7) / 8

/-- `pmm_core_bitmap_test`. -/
def pmmCoreBitmapTest (s : PmmCore) (page : Nat) : Bool := (s.bitmap (page / 8)).testBit (page % 8)

/-- `pmm_core_bitmap_set`. -/
def pmmCoreBitmapSet (s : PmmCore) (page : Nat) : PmmCore :=
  { s with bitmap := update s.bitmap (page / 8) (s.bitmap (page / 8) ||| 1 <<< (page % 8)) }

/-- `pmm_core_bitmap_clear`. -/
def pmmCoreBitmapClear (s : PmmCore) (page : Nat) : PmmCore :=
  { s with
    bitmap := update s.bitmap (page / 8)
      (s.bitmap (page / 8) &&& (255 ^^^ 1 <<< (page % 8))) }

/-- The inner loop of `pmm_core_alloc_page` over the bits of byte `i`: `none`
goes on to the next byte, `some none` is `return 0`, `some (some page)` is the
free page. -/
def allocScanBits (s : PmmCore) (i : Nat) : List Nat → Option (Option Nat)
  | [] => none
  | bit :: bits =>
    if i * 8 + bit ≥ s.maxPages then some none
    else if (s.bitmap i).testBit bit = false then some (some (i * 8 + bit))
    else allocScanBits s i bits

/-- The outer loop of `pmm_core_alloc_page` over the bitmap bytes. -/
def allocScan (s : PmmCore) : List Nat → Option Nat
  | [] => none
  | i :: is =>
    if s.bitmap i ≠ 255 then
      match allocScanBits s i (List.range 8) with
      | some r => r
      | none => allocScan s is
    else allocScan s is

/-- `pmm_core_alloc_page`: the frame's address, `0` on failure. -/
def pmmCoreAllocPage (s : PmmCore) : Nat × PmmCore :=
  match allocScan s (List.range (pmmCoreBitmapBytes s.maxPages)) with
  | none => (0, s)
  | some page =>
    let s' := pmmCoreBitmapSet s page
    (u32 (page * pageSize), { s' with refcounts := update s'.refcounts page 1 })

/-- `pmm_core_incref`. -/
def pmmCoreIncref (s : PmmCore) (phys : Nat) : PmmCore :=
  let page := phys / pageSize
  if page ≥ s.maxPages ∨ s.refcounts page = 255 then s
  else
    { (if s.refcounts page = 0 then pmmCoreBitmapSet s page else s) with
      refcounts := update s.refcounts page (s.refcounts page + 1) }

/-- `pmm_core_decref`; `pmm_core_free_page` is the same function. -/
def pmmCoreDecref (s : PmmCore) (phys : Nat) : PmmCore :=
  let page := phys / pageSize
  if page ≥ s.maxPages ∨ s.refcounts page = 255 ∨ s.refcounts page = 0 then s
  else
    { (if s.refcounts page - 1 = 0 then pmmCoreBitmapClear s page else s) with
      refcounts := update s.refcounts page (s.refcounts page - 1) }

/-- `pmm_core_refcount`. -/
def pmmCoreRefcount (s : PmmCore) (phys : Nat) : Nat :=
  if phys / pageSize ≥ s.maxPages then 0 else s.refcounts (phys / pageSize)

/-- `pmm_core_free_page_count`. -/
def pmmCoreFreePageCount (s : PmmCore) : Nat :=
  ((List.range s.maxPages).filter fun page => !pmmCoreBitmapTest s page).length

/-! ## The bitmap as a set of pages -/

theorem test_set (s : PmmCore) (page q : Nat) :
    pmmCoreBitmapTest (pmmCoreBitmapSet s page) q = (pmmCoreBitmapTest s q || decide (q = page)) := by
  unfold pmmCoreBitmapTest pmmCoreBitmapSet
  by_cases hb : q / 8 = page / 8
  · simp only [hb, update_self, Nat.testBit_or, Nat.one_shiftLeft, Nat.testBit_two_pow]
    congr 1
    rw [decide_eq_decide]
    omega
  · have hne : q ≠ page := fun h => hb (by rw [h])
    simp [update_of_ne hb, hne]

theorem test_clear (s : PmmCore) (page q : Nat) : pmmCoreBitmapTest (pmmCoreBitmapClear s page) q
      = (pmmCoreBitmapTest s q && !decide (q = page)) := by
  unfold pmmCoreBitmapTest pmmCoreBitmapClear
  by_cases hb : q / 8 = page / 8
  · have h8 : q % 8 < 8 := Nat.mod_lt _ (by decide)
    have h255 : (255 : Nat).testBit (q % 8) = true := by
      have : (255 : Nat) = 2 ^ 8 - 1 := by decide
      rw [this, Nat.testBit_two_pow_sub_one]
      simpa using h8
    simp only [hb, update_self, Nat.testBit_and, Nat.testBit_xor, h255,
      Nat.one_shiftLeft, Nat.testBit_two_pow, Bool.true_xor]
    congr 2
    rw [decide_eq_decide]
    omega
  · have hne : q ≠ page := fun h => hb (by rw [h])
    simp [update_of_ne hb, hne]

/-- Bitmap and counts agree: a page is marked exactly when it has a reference. -/
def PmmInv (s : PmmCore) : Prop :=
  ∀ page < s.maxPages, (pmmCoreBitmapTest s page = true ↔ s.refcounts page ≠ 0)

/-! ## Allocation -/

variable {s : PmmCore}

theorem allocScanBits_some {i page : Nat} :
    ∀ (bits : List Nat), (∀ b ∈ bits, b < 8) → allocScanBits s i bits = some (some page) →
      page < s.maxPages ∧ pmmCoreBitmapTest s page = false := by
  intro bits
  induction bits with
  | nil => intro _ h; exact absurd h (by simp [allocScanBits])
  | cons bit bits ih =>
    intro hb h
    have hbit : bit < 8 := hb bit (by simp)
    unfold allocScanBits at h
    split at h
    · cases h
    next hlt =>
    split at h
    next hclear =>
      have hpage : i * 8 + bit = page := by simpa using h
      refine ⟨by omega, ?_⟩
      unfold pmmCoreBitmapTest
      rw [← hpage, show (i * 8 + bit) / 8 = i by omega, show (i * 8 + bit) % 8 = bit by omega]
      exact hclear
    · exact ih (fun b hm => hb b (by simp [hm])) h

theorem allocScan_some {page : Nat} : ∀ (is : List Nat), allocScan s is = some page →
      page < s.maxPages ∧ pmmCoreBitmapTest s page = false := by
  intro is
  induction is with
  | nil => intro h; exact absurd h (by simp [allocScan])
  | cons i is ih =>
    intro h
    unfold allocScan at h
    split at h
    · split at h
      next r hr =>
        subst h
        exact allocScanBits_some _ (fun b hb => List.mem_range.mp hb) hr
      · exact ih h
    · exact ih h

/-- What an allocation does: nothing, or it takes one unmarked page, marks it
and sets its count to one. -/
theorem pmmCoreAllocPage_spec (s : PmmCore) : (pmmCoreAllocPage s = (0, s)) ∨
    ∃ page, page < s.maxPages ∧ pmmCoreBitmapTest s page = false ∧
      pmmCoreAllocPage s = (u32 (page * pageSize),
        { pmmCoreBitmapSet s page with refcounts := update s.refcounts page 1 }) := by
  unfold pmmCoreAllocPage
  cases h : allocScan s (List.range (pmmCoreBitmapBytes s.maxPages)) with
  | none => exact .inl rfl
  | some page =>
    obtain ⟨hlt, hclear⟩ := allocScan_some _ h
    exact .inr ⟨page, hlt, hclear, rfl⟩

theorem pmmCoreAllocPage_maxPages (s : PmmCore) : (pmmCoreAllocPage s).2.maxPages = s.maxPages := by
  rcases pmmCoreAllocPage_spec s with h | ⟨page, -, -, h⟩
  · rw [h]
  · rw [h]; rfl

theorem pmmCoreAllocPage_inv (hI : PmmInv s) : PmmInv (pmmCoreAllocPage s).2 := by
  rcases pmmCoreAllocPage_spec s with h | ⟨page, hlt, hclear, h⟩
  · rw [h]; exact hI
  · rw [h]
    intro q hq
    have htest := test_set s page q
    show pmmCoreBitmapTest (pmmCoreBitmapSet s page) q = true ↔ update s.refcounts page 1 q ≠ 0
    rw [htest]
    by_cases hqp : q = page
    · subst hqp; simp
    · simp only [hqp, decide_false, Bool.or_false, update_of_ne hqp, ne_eq]
      exact hI q hq

/-! ## Reference counting -/

@[simp] theorem pmmCoreIncref_maxPages (s : PmmCore) (phys : Nat) :
    (pmmCoreIncref s phys).maxPages = s.maxPages := by
  unfold pmmCoreIncref; dsimp only; split
  · rfl
  · split <;> rfl

@[simp] theorem pmmCoreDecref_maxPages (s : PmmCore) (phys : Nat) :
    (pmmCoreDecref s phys).maxPages = s.maxPages := by
  unfold pmmCoreDecref; dsimp only; split
  · rfl
  · split <;> rfl

/-- The count of a page after `incref`. -/
theorem pmmCoreIncref_refcounts (s : PmmCore) (phys q : Nat) : (pmmCoreIncref s phys).refcounts q
      = if q = phys / pageSize ∧ q < s.maxPages ∧ s.refcounts q ≠ 255
        then s.refcounts q + 1 else s.refcounts q := by
  unfold pmmCoreIncref
  dsimp only
  split
  next h =>
    rw [if_neg]
    rintro ⟨rfl, hq, hr⟩
    rcases h with h | h
    · omega
    · exact hr h
  next h =>
    dsimp only
    by_cases hq : q = phys / pageSize
    · subst hq
      rw [update_self, if_pos ⟨rfl, by omega, fun he => h (.inr he)⟩]
    · rw [update_of_ne hq, if_neg (fun hc => hq hc.1)]

/-- The count of a page after `decref`. -/
theorem pmmCoreDecref_refcounts (s : PmmCore) (phys q : Nat) : (pmmCoreDecref s phys).refcounts q
      = if q = phys / pageSize ∧ q < s.maxPages ∧ s.refcounts q ≠ 255
        then s.refcounts q - 1 else s.refcounts q := by
  unfold pmmCoreDecref
  dsimp only
  split
  next h =>
    split
    next hc =>
      obtain ⟨rfl, hq, hr⟩ := hc
      rcases h with h | h | h
      · omega
      · exact absurd h hr
      · omega
    · rfl
  next h =>
    dsimp only
    by_cases hq : q = phys / pageSize
    · subst hq
      rw [update_self, if_pos ⟨rfl, by omega, fun he => h (.inr (.inl he))⟩]
    · rw [update_of_ne hq, if_neg (fun hc => hq hc.1)]

/-- `incref` marks the page it takes out of the free pool. -/
theorem pmmCoreIncref_test {phys q : Nat} (hq : q < s.maxPages) :
    pmmCoreBitmapTest (pmmCoreIncref s phys) q
      = (pmmCoreBitmapTest s q || decide (q = phys / pageSize ∧ s.refcounts q = 0)) := by
  unfold pmmCoreIncref
  dsimp only
  split
  next h =>
    have : ¬ (q = phys / pageSize ∧ s.refcounts q = 0) := by
      rintro ⟨rfl, h0⟩; rcases h with h | h <;> omega
    simp [this]
  next h =>
  split
  next h0 =>
    refine (test_set s (phys / pageSize) q).trans ?_
    congr 1
    rw [decide_eq_decide]
    exact ⟨fun e => ⟨e, by rw [e]; exact h0⟩, fun e => e.1⟩
  next h0 =>
    have : ¬ (q = phys / pageSize ∧ s.refcounts q = 0) := by
      rintro ⟨rfl, h0'⟩; exact h0 h0'
    simp only [this, decide_false, Bool.or_false]
    rfl

/-- `decref` unmarks the page whose last reference it drops. -/
theorem pmmCoreDecref_test {phys q : Nat} (hq : q < s.maxPages) :
    pmmCoreBitmapTest (pmmCoreDecref s phys) q
      = (pmmCoreBitmapTest s q && !decide (q = phys / pageSize ∧ s.refcounts q = 1)) := by
  unfold pmmCoreDecref
  dsimp only
  split
  next h =>
    have : ¬ (q = phys / pageSize ∧ s.refcounts q = 1) := by
      rintro ⟨rfl, h0⟩; rcases h with h | h | h <;> omega
    simp [this]
  next h =>
  split
  next h0 =>
    refine (test_clear s (phys / pageSize) q).trans ?_
    congr 2
    rw [decide_eq_decide]
    exact ⟨fun e => ⟨e, by rw [e]; omega⟩, fun e => e.1⟩
  next h0 =>
    have : ¬ (q = phys / pageSize ∧ s.refcounts q = 1) := by
      rintro ⟨rfl, h0'⟩; omega
    simp only [this, decide_false, Bool.not_false, Bool.and_true]
    rfl

theorem pmmCoreIncref_inv (hI : PmmInv s) (phys : Nat) : PmmInv (pmmCoreIncref s phys) := by
  intro q hq
  rw [pmmCoreIncref_maxPages] at hq
  rw [pmmCoreIncref_refcounts, pmmCoreIncref_test hq, Bool.or_eq_true, hI q hq, decide_eq_true_eq]
  by_cases hqp : q = phys / pageSize
  · by_cases h0 : s.refcounts q = 0
    · simp [← hqp, h0, hq]
    · split <;> simp [h0]
  · simp [hqp]

theorem pmmCoreDecref_inv (hI : PmmInv s) (phys : Nat) : PmmInv (pmmCoreDecref s phys) := by
  intro q hq
  rw [pmmCoreDecref_maxPages] at hq
  rw [pmmCoreDecref_refcounts, pmmCoreDecref_test hq, Bool.and_eq_true, hI q hq]
  by_cases hqp : q = phys / pageSize
  · subst hqp
    by_cases h255 : s.refcounts (phys / pageSize) = 255
    · simp [h255]
    · by_cases h1 : s.refcounts (phys / pageSize) = 1
      · simp [h1, hq]
      · simp only [true_and, h1, decide_false, Bool.not_false, and_true, hq, h255, not_false_iff,
          if_true, ne_eq]
        omega
  · simp [hqp]

end Drunix.Mm
