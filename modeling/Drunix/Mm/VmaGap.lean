import Drunix.Mm.Commit

/-!
# The search for a gap

`vma_find_topdown_gap` (`mm/vma.c`). `topdown_gap`: it finds a place exactly if there is
one, and returns the hint if that is one, else the highest, provided that the stack begins at a
page. Else the places below it are not at pages either (`unaligned_stack`).

Mirroring notes:
- The length in whole pages is not cut to 32 bits: where `vm_page_align_up` gives 0, nothing fits.
-/

namespace Drunix.Mm

open Lib

/-- `len` bytes from `start` on are at a page, between `low` and `high`, and in none of `areas`. -/
structure GapFits (areas : List VmArea) (low high len start : Nat) : Prop where
  aligned : 4096 ∣ start
  low : low ≤ start
  high : start + len ≤ high
  free : ∀ v ∈ areas, vmaOverlaps v start (start + len) = false

/-- The greatest number with `p`, or none. -/
def Highest (p : Nat → Prop) : Option Nat → Prop
  | none => ∀ n, ¬ p n
  | some n => p n ∧ ∀ m, p m → m ≤ n

theorem Highest.congr {p q : Nat → Prop} (h : ∀ n, p n ↔ q n) {r : Option Nat} (hr : Highest p r) :
    Highest q r := by
  rwa [← funext fun n => propext (h n)]

theorem vmaOverlaps_eq_false {v : VmArea} {start stop : Nat} :
    vmaOverlaps v start stop = false ↔ v.stop ≤ start ∨ stop ≤ v.start := by
  simp only [vmaOverlaps, decide_eq_false_iff_not]
  omega

section Scan

variable {low high len : Nat} {vs : List VmArea} {v : VmArea} {start : Nat}

theorem gapFits_cons : GapFits (v :: vs) low high len start ↔
    GapFits vs low high len start ∧ (v.stop ≤ start ∨ start + len ≤ v.start) := by
  constructor
  · intro h
    obtain ⟨hv, hvs⟩ := List.forall_mem_cons.mp h.free
    exact ⟨⟨h.aligned, h.low, h.high, hvs⟩, vmaOverlaps_eq_false.mp hv⟩
  · rintro ⟨h, hv⟩
    exact ⟨h.aligned, h.low, h.high, List.forall_mem_cons.mpr ⟨vmaOverlaps_eq_false.mpr hv, h.free⟩⟩

/-- The loop, over areas from the last to the first. -/
theorem topdownScan_spec (hlow : 4096 ∣ low) (hlen : 4096 ∣ len) (hpos : 0 < len)
    (hvs : vs.Pairwise fun a b => b.stop ≤ a.start) (hwf : ∀ v ∈ vs, v.start ≤ v.stop)
    (hhigh : 4096 ∣ high) (htop : ∀ v ∈ vs, v.start < high → v.stop ≤ 0xFFFFF000) :
    Highest (GapFits vs low high len) (topdownScan low len vs high) := by
  induction vs generalizing high with
  | nil =>
    unfold topdownScan
    split
    next hroom => exact ⟨⟨by omega, by omega, by omega, by simp⟩, fun m hm => by have := hm.high; omega⟩
    next hroom =>
      intro m hm
      have := hm.low
      have := hm.high
      omega
  | cons v vs ih =>
    obtain ⟨hv, hvs'⟩ := List.pairwise_cons.mp hvs
    have hvwf := hwf v List.mem_cons_self
    have hwf' := fun w hw => hwf w (List.mem_cons_of_mem v hw)
    unfold topdownScan
    split
    next hskip =>
      refine (ih hvs' hwf' hhigh fun w hw => htop w (List.mem_cons_of_mem v hw)).congr fun n => ?_
      rw [gapFits_cons]
      exact (and_iff_left_of_imp fun h => .inr (Nat.le_trans h.high hskip)).symm
    next hbelow =>
    have hvtop := htop v List.mem_cons_self (by omega)
    -- the gap behind the area begins at the first page at or above its end
    have hgap : ∀ n, 4096 ∣ n →
        ((if v.stop > low then vmPageAlignUp v.stop else low) ≤ n ↔ low ≤ n ∧ v.stop ≤ n) := by
      intro n hn
      unfold vmPageAlignUp
      split
      · rw [if_neg (by omega)]
        omega
      · omega
    dsimp only
    generalize (if v.stop > low then vmPageAlignUp v.stop else low) = gapStart at hgap ⊢
    split
    next hroom =>
      obtain ⟨hrlow, hrstop⟩ := (hgap (high - len) (by omega)).mp (by omega)
      refine ⟨⟨by omega, hrlow, by omega, List.forall_mem_cons.mpr ⟨?_, fun w hw => ?_⟩⟩,
        fun m hm => by have := hm.high; omega⟩
      · exact vmaOverlaps_eq_false.mpr (.inl hrstop)
      · have := hv w hw
        exact vmaOverlaps_eq_false.mpr (.inl (by omega))
    next hroom =>
    have hdown : vmPageAlignDown v.start ≤ v.start := Nat.div_mul_le_self _ _
    have hpage : 4096 ∣ vmPageAlignDown v.start := Nat.dvd_mul_left ..
    refine (ih hvs' hwf' hpage fun w hw hw' =>
      htop w (List.mem_cons_of_mem v hw) (by omega)).congr fun n => ?_
    rw [gapFits_cons]
    constructor
    · intro h
      have := h.high
      exact ⟨⟨h.aligned, h.low, by omega, h.free⟩, .inr (by omega)⟩
    · rintro ⟨h, hstop | hstart⟩
      · have := (hgap n h.aligned).mpr ⟨h.low, hstop⟩
        have := h.high
        omega
      · refine ⟨h.aligned, h.low, ?_, h.free⟩
        have := h.aligned
        unfold vmPageAlignDown
        omega

/-- What the code tests of the hint. -/
theorem gapFits_hint {t : VmTable} {hint : Nat} (hlow : 0 < low) (hlen : 0 < len ∧ len < 4294967296)
    (hhigh : high < 4294967296) (hhint : hint < 4294967296) :
    (hint ≠ 0 ∧ hint % 4096 = 0 ∧ hint ≥ low ∧ u32 (hint + len) > hint ∧ u32 (hint + len) ≤ high ∧
      vmaRangeIsFree t hint (u32 (hint + len)) = true) ↔ GapFits t.areas low high len hint := by
  simp only [vmaRangeIsFree, Bool.and_eq_true, decide_eq_true_eq, List.all_eq_true, Bool.not_eq_true']
  constructor
  · rintro ⟨-, hmod, hge, hgt, hle, -, hfree⟩
    have hadd : u32 (hint + len) = hint + len := by
      unfold u32 at hgt ⊢
      omega
    rw [hadd] at hle hfree
    exact ⟨Nat.dvd_of_mod_eq_zero hmod, hge, hle, hfree⟩
  · intro hf
    have := hf.high
    have := hf.low
    rw [u32_of_lt (show hint + len < 4294967296 by omega)]
    exact ⟨by omega, Nat.mod_eq_zero_of_dvd hf.aligned, hf.low, by omega, hf.high, by omega, hf.free⟩

/-- An area that begins below another one ends below it. -/
theorem stop_le_of_start_lt {areas : List VmArea} (h : VmaSorted areas) {w : VmArea} (hv : v ∈ areas)
    (hw : w ∈ areas) (hlt : v.start < w.start) : v.stop ≤ w.start := by
  have hwf := h.wf w hw
  obtain ⟨l, r, rfl⟩ := List.append_of_mem hw
  obtain ⟨-, hr, hl⟩ := List.pairwise_append.mp h.ordered
  rcases List.mem_append.mp hv with hv | hv
  · exact hl v hv w List.mem_cons_self
  · rcases List.mem_cons.mp hv with rfl | hv
    · omega
    · have := (List.pairwise_cons.mp hr).1 v hv
      omega

end Scan

/-- The places for a mapping of `length` bytes, below the stack. -/
def Place (t : VmTable) (stack : VmArea) (brk length : Nat) : Nat → Prop :=
  GapFits t.areas (max (vmPageAlignUp brk) vmMmapMin) (stack.start - vmStackGuardGap)
    ((length + 4095) / 4096 * 4096)

/-- In a table with a stack that begins at a page, the search returns the hint if that is a
place, and else the highest place; it fails exactly if there is none. -/
theorem topdown_gap {t : VmTable} {stack : VmArea} {brk hint length : Nat} (h : VmaSorted t.areas)
    (hstack : vmaFindKind t .stack = some stack) (hpage : 4096 ∣ stack.start)
    (htop : stack.start < 4294967296) (hhint : hint < 4294967296)
    (hlength : 0 < length ∧ length < 4294967296) :
    (Place t stack brk length hint → vmaFindTopdownGap t brk hint length = some hint) ∧
      (¬ Place t stack brk length hint →
        Highest (Place t stack brk length) (vmaFindTopdownGap t brk hint length)) := by
  have hlow : 4096 ∣ max (vmPageAlignUp brk) vmMmapMin := by
    have := vmPageAlignUp_dvd brk
    unfold vmMmapMin
    omega
  have hmin : 0x40000000 ≤ max (vmPageAlignUp brk) vmMmapMin := Nat.le_max_right ..
  have hnone : (∀ n, ¬ Place t stack brk length n) →
      (Place t stack brk length hint → none = some hint) ∧
        (¬ Place t stack brk length hint → Highest (Place t stack brk length) none) :=
    fun hno => ⟨fun hn => absurd hn (hno hint), fun _ => hno⟩
  unfold vmaFindTopdownGap
  rw [if_neg (by omega), hstack]
  dsimp only
  by_cases hlen : length ≤ 0xFFFFF000
  swap
  · rw [if_pos (show vmPageAlignUp length = 0 from if_pos (by omega))]
    refine hnone fun n hn => ?_
    have := hn.high
    omega
  rw [show vmPageAlignUp length = (length + 4095) / 4096 * 4096 from if_neg (by omega),
    if_neg (by omega)]
  by_cases hguard : stack.start > vmStackGuardGap
  swap
  · have : stack.start ≤ 0x100000 := Nat.not_lt.mp hguard
    rw [if_neg hguard, if_pos (.inl (by omega))]
    refine hnone fun n hn => ?_
    have := hn.high
    omega
  simp only [if_pos hguard]
  split
  next hsmall =>
    refine hnone fun n hn => ?_
    have := hn.low
    have := hn.high
    omega
  have hiff : _ ↔ Place t stack brk length hint :=
    gapFits_hint (by omega) ⟨by omega, by omega⟩ (by omega) hhint
  split
  next hok => exact ⟨fun _ => rfl, fun hno => absurd (hiff.mp hok) hno⟩
  next hno =>
  refine ⟨fun hf => absurd (hiff.mpr hf) hno, fun _ => ?_⟩
  refine (topdownScan_spec hlow (Nat.dvd_mul_left ..) (by omega)
    (List.pairwise_reverse.mpr h.ordered) (fun v hv => h.wf v (List.mem_reverse.mp hv))
    (by unfold vmStackGuardGap; omega) fun v hv hlt => ?_).congr fun n => ?_
  · have := stop_le_of_start_lt h (List.mem_reverse.mp hv) (List.mem_of_find?_eq_some hstack)
      (by omega)
    omega
  · exact ⟨fun hf => ⟨hf.aligned, hf.low, hf.high, fun v hv => hf.free v (List.mem_reverse.mpr hv)⟩,
      fun hf => ⟨hf.aligned, hf.low, hf.high, fun v hv => hf.free v (List.mem_reverse.mp hv)⟩⟩

/-- A table with a stack at `start`. -/
def stackOnly (start : Nat) : VmTable where
  areas := [{ start, stop := 0xC0000000, flags := {}, kind := .stack }]
  capacity := 32
  dynamic := true

theorem stackOnly_sorted {start : Nat} (h : start ≤ 0xC0000000) : VmaSorted (stackOnly start).areas :=
  ⟨by simpa [stackOnly] using h, List.pairwise_singleton ..⟩

theorem topdown_gap_hint : vmaFindTopdownGap (stackOnly 0xB0000000) 0 0x50000000 1 = some 0x50000000 :=
  (topdown_gap (stackOnly_sorted (by decide)) rfl (by decide) (by decide) (by decide)
    (by decide)).1 ⟨by decide, by decide, by decide, by decide⟩

/-- With a stack inside a page the search returns a place inside a page. -/
theorem unaligned_stack : VmaSorted (stackOnly 0xB0000800).areas ∧
    vmaFindTopdownGap (stackOnly 0xB0000800) 0 0 1 = some 0xAFEFF800 ∧ ¬ 4096 ∣ 0xAFEFF800 :=
  ⟨stackOnly_sorted (by decide), by decide, by decide⟩

end Drunix.Mm
