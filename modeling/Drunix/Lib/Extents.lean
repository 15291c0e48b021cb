import Mathlib

/-!
# Lists of disjoint extents

A table of half-open extents `[lo a, hi a)` kept in ascending order: each ends
before the next begins. An extent may be empty. The lemmas are the edits such a
table sees (insert between, replace in place) and what the order is good
for: at most one extent contains a given point, and a linear search finds it.
-/

namespace Drunix.Lib

variable {α : Type} {lo hi : α → Nat}

/-- Every element is an extent, and each ends before the next begins. -/
structure Extents (lo hi : α → Nat) (l : List α) : Prop where
  wf : ∀ a ∈ l, lo a ≤ hi a
  ordered : l.Pairwise fun a b => hi a ≤ lo b

theorem Extents.nil : Extents lo hi [] := ⟨by simp, List.Pairwise.nil⟩

theorem pairwise_insert {R : α → α → Prop} {l r : List α} {x : α} (h : (l ++ r).Pairwise R)
    (hl : ∀ a ∈ l, R a x) (hr : ∀ b ∈ r, R x b) : (l ++ x :: r).Pairwise R := by
  obtain ⟨h1, h2, h3⟩ := List.pairwise_append.mp h
  exact List.pairwise_append.mpr ⟨h1, List.pairwise_cons.mpr ⟨hr, h2⟩,
    fun a ha => List.forall_mem_cons.mpr ⟨hl a ha, h3 a ha⟩⟩

/-- Putting an extent into a gap. -/
theorem Extents.insert {l r : List α} (h : Extents lo hi (l ++ r)) {x : α} (hx : lo x ≤ hi x)
    (hl : ∀ a ∈ l, hi a ≤ lo x) (hr : ∀ b ∈ r, hi x ≤ lo b) : Extents lo hi (l ++ x :: r) where
  wf := by
    obtain ⟨h1, h2⟩ := List.forall_mem_append.mp h.wf
    exact List.forall_mem_append.mpr ⟨h1, List.forall_mem_cons.mpr ⟨hx, h2⟩⟩
  ordered := pairwise_insert h.ordered hl hr

theorem Extents.remove {l r : List α} {x : α} (h : Extents lo hi (l ++ x :: r)) :
    Extents lo hi (l ++ r) := by
  have hs : (l ++ r).Sublist (l ++ x :: r) :=
    (List.Sublist.refl l).append (List.sublist_cons_self x r)
  exact ⟨fun a ha => h.wf a (hs.subset ha), h.ordered.sublist hs⟩

/-- Replacing an extent by one with the same start: the new end must stay below
everything behind it, and that is all. -/
theorem Extents.setEnd_iff {l r : List α} {x y : α} (h : Extents lo hi (l ++ x :: r))
    (hlo : lo y = lo x) (hy : lo y ≤ hi y) :
    Extents lo hi (l ++ y :: r) ↔ ∀ b ∈ r, hi y ≤ lo b := by
  obtain ⟨-, -, h3⟩ := List.pairwise_append.mp h.ordered
  constructor
  · intro hy' b hb
    exact (List.pairwise_cons.mp (List.pairwise_append.mp hy'.ordered).2.1).1 b hb
  · intro hr
    refine h.remove.insert hy (fun a ha => ?_) hr
    rw [hlo]
    exact h3 a ha x List.mem_cons_self

/-- A linear search finds the extent that contains a point. -/
theorem Extents.find_eq {l : List α} (h : Extents lo hi l) {x : α} {n : Nat} (hx : x ∈ l)
    (hlo : lo x ≤ n) (hhi : n < hi x) :
    l.find? (fun a => decide (lo a ≤ n) && decide (n < hi a)) = some x := by
  induction l with
  | nil => cases hx
  | cons a l ih =>
    obtain ⟨ha, hl⟩ := List.pairwise_cons.mp h.ordered
    rw [List.find?_cons]
    rcases List.mem_cons.mp hx with rfl | hx
    · simp [hlo, hhi]
    · -- the head ends before `x` begins
      have hle := ha x hx
      have hnot : (decide (lo a ≤ n) && decide (n < hi a)) = false := by
        simp only [Bool.and_eq_false_iff, decide_eq_false_iff_not]
        right
        omega
      rw [hnot]
      exact ih ⟨fun b hb => h.wf b (List.mem_cons_of_mem _ hb), hl⟩ hx

end Drunix.Lib
