import Mathlib

/-!
# Lists of writes

A store maps keys to contents; a list of writes is applied to it from the left. What a
key holds afterwards is decided by the writes to that key alone.
-/

namespace Drunix.Lib

open Function

variable {κ β : Type} [DecidableEq κ]

/-- What all keys hold after a list of writes. -/
def stored (v : κ → β) (ws : List (κ × β)) : κ → β :=
  ws.foldl (fun v w => update v w.1 w.2) v

theorem stored_cons (v : κ → β) (w : κ × β) (ws : List (κ × β)) :
    stored v (w :: ws) = stored (update v w.1 w.2) ws := rfl

theorem stored_append (v : κ → β) (ws ws' : List (κ × β)) :
    stored v (ws ++ ws') = stored (stored v ws) ws' := List.foldl_append

/-- Stores that agree on a key agree on it afterwards. -/
theorem stored_congr {v v' : κ → β} {k : κ} (h : v k = v' k) (ws : List (κ × β)) :
    stored v ws k = stored v' ws k := by
  induction ws generalizing v v' with
  | nil => exact h
  | cons w ws ih =>
    rw [stored_cons, stored_cons]
    refine ih ?_
    by_cases hk : k = w.1
    · rw [hk, update_self, update_self]
    · rw [update_of_ne hk, update_of_ne hk, h]

/-- A key that is not written keeps what it holds. -/
theorem stored_other {ws : List (κ × β)} {k : κ} (h : ∀ w ∈ ws, w.1 ≠ k) (v : κ → β) :
    stored v ws k = v k := by
  induction ws generalizing v with
  | nil => rfl
  | cons w ws ih =>
    have hw : k ≠ w.1 := Ne.symm (h w List.mem_cons_self)
    rw [stored_cons, ih fun w' hw' => h w' (List.mem_cons_of_mem _ hw'), update_of_ne hw]

/-- Of writes to different keys each one shows. -/
theorem stored_mem {ws : List (κ × β)} (hnodup : (ws.map Prod.fst).Nodup) {w : κ × β}
    (hw : w ∈ ws) (v : κ → β) : stored v ws w.1 = w.2 := by
  induction ws generalizing v with
  | nil => cases hw
  | cons w' ws ih =>
    obtain ⟨hnot, hrest⟩ := List.nodup_cons.mp hnodup
    rw [stored_cons]
    rcases List.mem_cons.mp hw with rfl | hw
    · have hother : ∀ w' ∈ ws, w'.1 ≠ w.1 := by
        intro w' hw' he
        rw [← he] at hnot
        exact hnot (List.mem_map_of_mem hw')
      rw [stored_other hother, update_self]
    · exact ih hrest hw _

end Drunix.Lib
