import Mathlib

/-!
# Calls that change a state and may fail

A C function that returns an error code is an `EStateM` computation over the state it
works on: what it did before it failed stays done. `Ends x s Q E` says how the call `x`
made in `s` ends: it returns a value and a state that meet `Q`, or it fails with an
error and a state that meet `E`. The rules below follow the way calls are put together;
with `E` false, `Ends` says that the call succeeds.
-/

namespace Drunix.Lib

variable {ε σ α β : Type}

/-- How the call `x` made in the state `s` ends. -/
def Ends (x : EStateM ε σ α) (s : σ) (Q : α → σ → Prop) (E : ε → σ → Prop) : Prop :=
  match x s with
  | .ok a s' => Q a s'
  | .error e s' => E e s'

/-- The state the call leaves. -/
def after (x : EStateM ε σ α) (s : σ) : σ :=
  match x s with
  | .ok _ s' => s'
  | .error _ s' => s'

/-- The value the call returns, if it does. -/
def value (x : EStateM ε σ α) (s : σ) : Option α :=
  match x s with
  | .ok a _ => some a
  | .error _ _ => none

section Rules

variable {x : EStateM ε σ α} {f : α → EStateM ε σ β} {s : σ}

@[simp] theorem ends_pure {a : α} {Q : α → σ → Prop} {E : ε → σ → Prop} :
    Ends (pure a) s Q E ↔ Q a s := Iff.rfl

@[simp] theorem ends_throw {e : ε} {Q : α → σ → Prop} {E : ε → σ → Prop} :
    Ends (throw e : EStateM ε σ α) s Q E ↔ E e s := Iff.rfl

@[simp] theorem ends_get {Q : σ → σ → Prop} {E : ε → σ → Prop} :
    Ends (get : EStateM ε σ σ) s Q E ↔ Q s s := Iff.rfl

@[simp] theorem ends_modify {g : σ → σ} {Q : PUnit → σ → Prop} {E : ε → σ → Prop} :
    Ends (modify g : EStateM ε σ PUnit) s Q E ↔ Q ⟨⟩ (g s) := Iff.rfl

@[simp] theorem ends_bind {Q : β → σ → Prop} {E : ε → σ → Prop} :
    Ends (x >>= f) s Q E ↔ Ends x s (fun a s' => Ends (f a) s' Q E) E := by
  show (match EStateM.bind x f s with | .ok a s' => Q a s' | .error e s' => E e s') ↔ _
  unfold EStateM.bind Ends
  cases x s <;> rfl

theorem run_bind : (x >>= f) s = match x s with
    | .ok a s' => f a s'
    | .error e s' => .error e s' := by
  show EStateM.bind x f s = _
  unfold EStateM.bind
  cases x s <;> rfl

theorem Ends.mono {Q Q' : α → σ → Prop} {E E' : ε → σ → Prop} (h : Ends x s Q E)
    (hQ : ∀ a s', Q a s' → Q' a s') (hE : ∀ e s', E e s' → E' e s') : Ends x s Q' E' := by
  unfold Ends at h ⊢
  cases hx : x s with
  | ok a s' =>
    rw [hx] at h
    exact hQ a s' h
  | error e s' =>
    rw [hx] at h
    exact hE e s' h

/-- First `x`, then `f` from whatever `x` leaves. -/
theorem Ends.bind {P : α → σ → Prop} {Q : β → σ → Prop} {E E' : ε → σ → Prop}
    (h : Ends x s P E') (hf : ∀ a s', P a s' → Ends (f a) s' Q E)
    (hE : ∀ e s', E' e s' → E e s') : Ends (x >>= f) s Q E :=
  ends_bind.mpr (h.mono hf hE)

theorem Ends.and {Q Q' : α → σ → Prop} {E E' : ε → σ → Prop} (h : Ends x s Q E)
    (h' : Ends x s Q' E') :
    Ends x s (fun a s' => Q a s' ∧ Q' a s') fun e s' => E e s' ∧ E' e s' := by
  unfold Ends at h h' ⊢
  cases hx : x s <;> rw [hx] at h h' <;> exact ⟨h, h'⟩

/-- A call that ends in any way. -/
theorem ends_any (x : EStateM ε σ α) (s : σ) : Ends x s (fun _ _ => True) fun _ _ => True := by
  unfold Ends
  cases x s <;> trivial

/-- A call that does not fail returns. -/
theorem Ends.returns {Q : α → σ → Prop} (h : Ends x s Q fun _ _ => False) :
    ∃ a s', x s = .ok a s' ∧ Q a s' := by
  unfold Ends at h
  cases hx : x s with
  | ok a s' =>
    rw [hx] at h
    exact ⟨a, s', rfl, h⟩
  | error e s' =>
    rw [hx] at h
    exact h.elim

/-- What is known of a call that returned. -/
theorem Ends.of_ok {Q : α → σ → Prop} {E : ε → σ → Prop} (h : Ends x s Q E) {a : α} {s' : σ}
    (hx : x s = .ok a s') : Q a s' := by
  unfold Ends at h
  rw [hx] at h
  exact h

theorem Ends.of_error {Q : α → σ → Prop} {E : ε → σ → Prop} (h : Ends x s Q E) {e : ε} {s' : σ}
    (hx : x s = .error e s') : E e s' := by
  unfold Ends at h
  rw [hx] at h
  exact h

theorem Ends.after {Q : σ → Prop} (h : Ends x s (fun _ s' => Q s') fun _ s' => Q s') :
    Q (Lib.after x s) := by
  unfold Ends at h
  unfold Lib.after
  cases hx : x s <;> rw [hx] at h <;> exact h

theorem eq_ok_of_value {a : α} (h : value x s = some a) : x s = .ok a (Lib.after x s) := by
  unfold value at h
  unfold Lib.after
  cases hx : x s with
  | ok b s' =>
    rw [hx] at h
    rw [Option.some.inj h]
  | error e s' =>
    rw [hx] at h
    cases h

/-- `if (x() != 0) return e;`: whatever makes the call fail is reported as `e`. -/
def failAs (e : ε) (x : EStateM ε σ α) : EStateM ε σ α := fun s =>
  match x s with
  | .ok a s' => .ok a s'
  | .error _ s' => .error e s'

theorem Ends.failAs {Q : α → σ → Prop} {E E' : ε → σ → Prop} {e : ε} (h : Ends x s Q E)
    (hE : ∀ e' s', E e' s' → E' e s') : Ends (Lib.failAs e x) s Q E' := by
  unfold Ends at h ⊢
  unfold Lib.failAs
  cases hx : x s with
  | ok a s' =>
    rw [hx] at h
    exact h
  | error e' s' =>
    rw [hx] at h
    exact hE e' s' h

/-- A value that may be missing, or the failure `e`. -/
def orFail (e : ε) : Option α → EStateM ε σ α
  | some a => pure a
  | none => throw e

theorem ends_orFail {e : ε} {o : Option α} {Q : α → σ → Prop} {E : ε → σ → Prop}
    (hQ : ∀ a, o = some a → Q a s) (hE : E e s) : Ends (orFail e o) s Q E := by
  cases o with
  | none => exact hE
  | some a => exact hQ a rfl

/-- A counting loop that carries a value: `P k` holds before round `k`. -/
theorem Ends.foldlM_range {body : β → Nat → EStateM ε σ β} {b : β} {n : Nat} {E : ε → σ → Prop}
    (P : Nat → β → σ → Prop) (h0 : P 0 b s)
    (hstep : ∀ k < n, ∀ b s, P k b s → Ends (body b k) s (P (k + 1)) E) :
    Ends ((List.range n).foldlM body b) s (P n) E := by
  induction n with
  | zero => exact h0
  | succ n ih =>
    rw [List.range_succ, List.foldlM_append]
    refine (ih fun k hk => hstep k (by omega)).bind (fun b' s' h => ?_) fun _ _ h => h
    simp only [List.foldlM_cons, List.foldlM_nil, bind_pure]
    exact hstep n (by omega) b' s' h

/-- A part of the state is as before, however the call ends. -/
def Keeps {π : Type} (part : σ → π) (x : EStateM ε σ α) : Prop :=
  ∀ s, Ends x s (fun _ s' => part s' = part s) fun _ s' => part s' = part s

variable {π : Type} {part : σ → π}

theorem Keeps.bind (hx : Keeps part x) (hf : ∀ a, Keeps part (f a)) : Keeps part (x >>= f) := by
  intro s
  refine (hx s).bind (fun a s1 h1 => ?_) fun _ _ h => h
  rw [← h1]
  exact hf a s1

theorem Keeps.pure (a : α) : Keeps part (pure a : EStateM ε σ α) := fun _ => rfl

theorem Keeps.throw (e : ε) : Keeps part (throw e : EStateM ε σ α) := fun _ => rfl

theorem Keeps.get : Keeps part (get : EStateM ε σ σ) := fun _ => rfl

end Rules

end Drunix.Lib
