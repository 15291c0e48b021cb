import Mathlib

/-!
# Singly linked lists in memory

`Linked next head l`: following `next` from `head` one meets the addresses of `l` and then
null. The list is determined by the links (`Linked.unique`), so that no address comes twice
(`Linked.nodup`).
-/

namespace Drunix.Lib

open Function

/-- The addresses from `head` on, up to null. -/
def Linked (next : Nat → Nat) : Nat → List Nat → Prop
  | a, [] => a = 0
  | a, b :: l => a = b ∧ b ≠ 0 ∧ Linked next (next b) l

namespace Linked

variable {next next' : Nat → Nat} {head a b : Nat} {l l' pre : List Nat}

section

variable (h : Linked next head l)

include h

theorem congr (heq : ∀ b ∈ l, next' b = next b) : Linked next' head l := by
  induction l generalizing head with
  | nil => exact h
  | cons b l ih =>
    obtain ⟨hb, hne, hrest⟩ := h
    refine ⟨hb, hne, ?_⟩
    rw [heq b List.mem_cons_self]
    exact ih hrest fun c hc => heq c (List.mem_cons_of_mem b hc)

theorem ne_zero (hb : b ∈ l) : b ≠ 0 := by
  induction l generalizing head with
  | nil => exact absurd hb List.not_mem_nil
  | cons c l ih =>
    rcases List.mem_cons.mp hb with rfl | hb
    · exact h.2.1
    · exact ih h.2.2 hb

theorem eq_nil_iff : head = 0 ↔ l = [] := by
  cases l with
  | nil => exact ⟨fun _ => rfl, fun _ => h⟩
  | cons b l => exact ⟨fun h0 => absurd (h.1 ▸ h0) h.2.1, fun h0 => absurd h0 (List.cons_ne_nil b l)⟩

theorem unique (h' : Linked next head l') : l = l' := by
  induction l generalizing head l' with
  | nil => exact (h'.eq_nil_iff.mp h).symm
  | cons b l ih =>
    cases l' with
    | nil => exact absurd (h.1 ▸ h') h.2.1
    | cons c l' =>
      obtain ⟨rfl, -, hrest⟩ := h
      obtain ⟨rfl, -, hrest'⟩ := h'
      rw [ih hrest hrest']

omit h

theorem suffix (h : Linked next head (pre ++ b :: l)) : Linked next b (b :: l) := by
  induction pre generalizing head with
  | nil => exact ⟨rfl, h.2⟩
  | cons c pre ih => exact ih h.2.2

/-- The first address does not come again: the list from there would be shorter. -/
theorem not_mem (h : Linked next head (b :: l)) : b ∉ l := by
  intro hb
  obtain ⟨pre, post, rfl⟩ := List.append_of_mem hb
  have hpost : Linked next b (b :: post) := h.2.2.suffix
  have heq := congrArg List.length (h.unique (h.1 ▸ hpost))
  simp only [List.length_cons, List.length_append] at heq
  omega

include h

theorem nodup : l.Nodup := by
  induction l generalizing head with
  | nil => exact List.nodup_nil
  | cons b l ih => exact List.nodup_cons.mpr ⟨h.not_mem, ih h.2.2⟩

/-- A node put in front. -/
theorem push (ha : a ≠ 0) (hl : a ∉ l) : Linked (update next a head) a (a :: l) := by
  refine ⟨rfl, ha, ?_⟩
  rw [update_self]
  exact h.congr fun b hb => update_of_ne (fun hba : b = a => hl (hba ▸ hb)) _ _

/-- A node that is not in the list gets another link. -/
theorem update (hl : a ∉ l) (n : Nat) : Linked (update next a n) head l :=
  h.congr fun b hb => update_of_ne (fun hba : b = a => hl (hba ▸ hb)) _ _

end

end Linked

end Drunix.Lib
