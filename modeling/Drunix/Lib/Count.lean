import Mathlib

/-!
# Counting the places that satisfy a predicate

Reference counts are compared with the number of places a resource is used. The
places are a finite set, "is used here" a Boolean predicate on it, and a step of
the program changes the predicate at one place only. `count_update` is the
resulting bookkeeping: the count moves by exactly what happened at that place.
-/

namespace Drunix.Lib

variable {α β : Type}

/-- The number of elements of `S` at which `p` holds. -/
def count (S : Finset α) (p : α → Bool) : Nat := (S.filter fun x => p x = true).card

theorem count_congr {S : Finset α} {p q : α → Bool} (h : ∀ x ∈ S, p x = q x) :
    count S p = count S q := by
  unfold count
  congr 1
  apply Finset.filter_congr
  intro x hx
  rw [h x hx]

theorem count_eq_zero {S : Finset α} {p : α → Bool} : count S p = 0 ↔ ∀ x ∈ S, p x = false := by
  unfold count
  rw [Finset.card_eq_zero, Finset.filter_eq_empty_iff]
  simp

theorem count_pos {S : Finset α} {p : α → Bool} {x : α} (hx : x ∈ S) (hp : p x = true) :
    0 < count S p := by
  rcases Nat.eq_zero_or_pos (count S p) with h | h
  · rw [count_eq_zero.mp h x hx] at hp
    cases hp
  · exact h

/-- Two places where `p` holds are one place if it holds at most once. -/
theorem count_le_one {S : Finset α} {p : α → Bool} (h : count S p ≤ 1) {x y : α}
    (hx : x ∈ S) (hy : y ∈ S) (hpx : p x = true) (hpy : p y = true) : x = y := by
  unfold count at h
  rw [Finset.card_le_one] at h
  exact h x (by simp [hx, hpx]) y (by simp [hy, hpy])

/-- Changing the predicate at one place. -/
theorem count_update [DecidableEq α] {S : Finset α} {p q : α → Bool} {x : α} (hx : x ∈ S)
    (h : ∀ y ∈ S, y ≠ x → p y = q y) :
    count S q + (if p x then 1 else 0) = count S p + (if q x then 1 else 0) := by
  have hcount : ∀ r : α → Bool,
      count S r = count (S.erase x) r + (if r x then 1 else 0) := by
    intro r
    unfold count
    conv_lhs => rw [← Finset.insert_erase hx]
    rw [Finset.filter_insert]
    split
    · rw [Finset.card_insert_of_notMem (by simp)]
    · rw [Nat.add_zero]
  have herase : count (S.erase x) p = count (S.erase x) q :=
    count_congr fun y hy => h y (Finset.mem_of_mem_erase hy) (Finset.ne_of_mem_erase hy)
  rw [hcount p, hcount q, herase]
  omega

theorem count_union [DecidableEq α] {S T : Finset α} (h : Disjoint S T) (p : α → Bool) :
    count (S ∪ T) p = count S p + count T p := by
  unfold count
  rw [Finset.filter_union, Finset.card_union_of_disjoint]
  exact Finset.disjoint_filter_filter h

theorem count_insert [DecidableEq α] {S : Finset α} {x : α} (h : x ∉ S) (p : α → Bool) :
    count (insert x S) p = count S p + (if p x then 1 else 0) := by
  unfold count
  rw [Finset.filter_insert]
  split
  next hp => rw [Finset.card_insert_of_notMem (by simp [h])]
  · rw [Nat.add_zero]

/-- The first number of an interval and the others. -/
theorem count_Ico_succ {n m : Nat} (h : n < m) (p : Nat → Bool) :
    count (Finset.Ico n m) p = count (Finset.Ico (n + 1) m) p + (if p n then 1 else 0) := by
  have hset : Finset.Ico n m = insert n (Finset.Ico (n + 1) m) := by
    ext x
    simp only [Finset.mem_Ico, Finset.mem_insert]
    omega
  rw [hset, count_insert (by simp)]

/-- Places where the predicate fails do not count. -/
theorem count_subset {S T : Finset α} {p : α → Bool} (h : S ⊆ T)
    (hp : ∀ x ∈ T, x ∉ S → p x = false) : count S p = count T p := by
  unfold count
  congr 1
  ext x
  simp only [Finset.mem_filter]
  constructor
  · rintro ⟨hx, hpx⟩
    exact ⟨h hx, hpx⟩
  · rintro ⟨hx, hpx⟩
    refine ⟨?_, hpx⟩
    by_contra hns
    rw [hp x hx hns] at hpx
    cases hpx

/-- Counting over a product with one more row. -/
theorem count_insert_product [DecidableEq α] [DecidableEq β] {S : Finset α} {x : α} (h : x ∉ S) (T : Finset β)
    (p : α × β → Bool) :
    count (insert x S ×ˢ T) p = count (S ×ˢ T) p + count T fun y => p (x, y) := by
  have hset : insert x S ×ˢ T = (S ×ˢ T) ∪ T.image (fun y => (x, y)) := by
    ext ⟨a, b⟩
    simp only [Finset.mem_product, Finset.mem_insert, Finset.mem_union, Finset.mem_image,
      Prod.mk.injEq]
    constructor
    · rintro ⟨rfl | ha, hb⟩
      · exact .inr ⟨b, hb, rfl, rfl⟩
      · exact .inl ⟨ha, hb⟩
    · rintro (⟨ha, hb⟩ | ⟨y, hy, rfl, rfl⟩)
      · exact ⟨.inr ha, hb⟩
      · exact ⟨.inl rfl, hy⟩
  have hdisj : Disjoint (S ×ˢ T) (T.image fun y => (x, y)) := by
    rw [Finset.disjoint_left]
    rintro ⟨a, b⟩ hab him
    simp only [Finset.mem_image, Prod.mk.injEq] at him
    obtain ⟨y, -, rfl, -⟩ := him
    exact h (Finset.mem_product.mp hab).1
  rw [hset, count_union hdisj]
  congr 1
  unfold count
  rw [Finset.filter_image, Finset.card_image_of_injective]
  intro a b hab
  exact (Prod.mk.inj hab).2

end Drunix.Lib
