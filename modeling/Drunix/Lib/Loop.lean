import Mathlib

/-!
# Loops and runs

A C loop `for (i = 0; i < n; i++) body` is modelled as a fold of its body over
`List.range n`; `foldl_range_inv` is the loop invariant rule for that shape: the
invariant speaks of the state and of how many rounds are done.

A system that takes one operation after another is a step function. `Reach ok`
are the states it gets to by steps that meet the condition `ok`, a condition on
the state before the step and the operation; `Reach.inv` is the invariant rule.

`Steps R n` are the runs of `n` steps of a relation.
-/

namespace Drunix.Lib

variable {σ ι : Type}

/-- Loop invariant rule for `List.range`. -/
theorem foldl_range_inv {f : σ → Nat → σ} {s : σ} {n : Nat} (P : Nat → σ → Prop) (h0 : P 0 s)
    (hstep : ∀ k < n, ∀ s, P k s → P (k + 1) (f s k)) : P n ((List.range n).foldl f s) := by
  induction n with
  | zero => exact h0
  | succ n ih =>
    rw [List.range_succ, List.foldl_append]
    exact hstep n (Nat.lt_succ_self n) _ (ih fun k hk => hstep k (Nat.lt_succ_of_lt hk))

/-- The states reached from `s0` by steps that meet `ok`. -/
inductive Reach (step : σ → ι → σ) (ok : σ → ι → Prop) (s₀ : σ) : σ → Prop where
  | start : Reach step ok s₀ s₀
  | step {s : σ} (a : ι) : Reach step ok s₀ s → ok s a → Reach step ok s₀ (step s a)

/-- An invariant that holds at the start and across every allowed step. -/
theorem Reach.inv {step : σ → ι → σ} {ok : σ → ι → Prop} {s0 s : σ} (P : σ → Prop) (h0 : P s0)
    (hstep : ∀ s a, P s → ok s a → P (step s a)) (h : Reach step ok s0 s) : P s := by
  induction h with
  | start => exact h0
  | step a _ hok ih => exact hstep _ a ih hok

/-- A run under a stronger condition is a run under a weaker one. -/
theorem Reach.mono {step : σ → ι → σ} {ok ok' : σ → ι → Prop} {s0 s : σ}
    (h : Reach step ok s0 s) (hok : ∀ s a, ok s a → ok' s a) : Reach step ok' s0 s := by
  induction h with
  | start => exact Reach.start
  | step a _ ha ih => exact Reach.step a ih (hok _ a ha)

/-- Each operation of the list meets the condition when its turn comes. -/
def Allowed (step : σ → ι → σ) (ok : σ → ι → Prop) : σ → List ι → Prop
  | _, [] => True
  | s, a :: l => ok s a ∧ Allowed step ok (step s a) l

instance Allowed.decide (step : σ → ι → σ) (ok : σ → ι → Prop) [∀ s a, Decidable (ok s a)] :
    ∀ (s : σ) (l : List ι), Decidable (Allowed step ok s l)
  | _, [] => .isTrue trivial
  | s, a :: l =>
    have := Allowed.decide step ok (step s a) l
    inferInstanceAs (Decidable (ok s a ∧ Allowed step ok (step s a) l))

theorem Allowed.of_all {step : σ → ι → σ} {ok : σ → ι → Prop} (h : ∀ s a, ok s a) (s : σ)
    (l : List ι) : Allowed step ok s l := by
  induction l generalizing s with
  | nil => trivial
  | cons a l ih => exact ⟨h s a, ih _⟩

/-- A list of operations is a run. -/
theorem Reach.run {step : σ → ι → σ} {ok : σ → ι → Prop} {s0 s : σ} {l : List ι}
    (h : Reach step ok s0 s) (hl : Allowed step ok s l) : Reach step ok s0 (l.foldl step s) := by
  induction l generalizing s with
  | nil => exact h
  | cons a l ih => exact ih (h.step a hl.1) hl.2

/-- `n` steps of the relation `R`. -/
inductive Steps (R : σ → σ → Prop) : Nat → σ → σ → Prop where
  | refl (s : σ) : Steps R 0 s s
  | head {n : Nat} {s s' s'' : σ} : R s s' → Steps R n s' s'' → Steps R (n + 1) s s''

/-- Steps that count up to a limit are no more than the limit, unless one does not count. -/
theorem Steps.counted {R : σ → σ → Prop} (I : σ → Prop) (count : σ → Nat) (limit : Nat)
    (Idle : σ → σ → Prop)
    (hR : ∀ s s', R s s' → I s → count s < limit ∧ I s' ∧ (count s < count s' ∨ Idle s s'))
    {n : Nat} {s t : σ} (h : Steps R n s t) (hs : I s) :
    (n + count s ≤ count t ∧ (n = 0 ∨ n + count s ≤ limit)) ∨
      ∃ m u u', m < n ∧ Steps R m s u ∧ R u u' ∧ Idle u u' := by
  induction h with
  | refl s => exact .inl ⟨by omega, .inl rfl⟩
  | @head n s s' t hstep hrest ih =>
    obtain ⟨hlt, hs', hcount | hidle⟩ := hR s s' hstep hs
    · rcases ih hs' with ⟨hle, hlim⟩ | ⟨m, u, u', hm, hmu, hu, hidle⟩
      · left
        exact ⟨by omega, by omega⟩
      · right
        exact ⟨m + 1, u, u', by omega, Steps.head hstep hmu, hu, hidle⟩
    · right
      exact ⟨0, s, s', Nat.succ_pos n, Steps.refl s, hstep, hidle⟩

end Drunix.Lib
