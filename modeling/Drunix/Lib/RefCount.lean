import Drunix.Lib.Count

/-!
# Reference counts

Objects that several owners share. An owner has at most one pointer to an object (`ptr`), an
object counts its owners, and it is freed when the count falls to zero. `Held h S ptr extra`
says that the counts are right: the owners are the places of `S`, and `extra` counts the
references that are on their way, held by no place yet or no place any more.

A step of a program is then a chain of small moves, each with its rule: `Held.create` and
`Held.get` make a reference, `Held.install` gives it to a place, `Held.take` takes it from
one, and `Held.put` drops it.
-/

namespace Drunix.Lib

open Function

/-- One at `o`, zero elsewhere. -/
def tick {κ : Type} [DecidableEq κ] (o : κ) : κ → Nat := fun x => if x = o then 1 else 0

section Tick

variable {κ : Type} [DecidableEq κ]

@[simp] theorem tick_self (o : κ) : tick o o = 1 := if_pos rfl

theorem tick_ne {o x : κ} (h : x ≠ o) : tick o x = 0 := if_neg h

theorem update_bump (f : κ → Nat) (o x : κ) : update f o (f o + 1) x = f x + tick o x := by
  by_cases h : x = o
  · rw [h, update_self, tick_self]
  · rw [update_of_ne h, tick_ne h, Nat.add_zero]

theorem update_drop {f : κ → Nat} {o : κ} (ho : 0 < f o) (x : κ) :
    update f o (f o - 1) x + tick o x = f x := by
  by_cases h : x = o
  · rw [h, update_self, tick_self, Nat.sub_add_cancel ho]
  · rw [update_of_ne h, tick_ne h, Nat.add_zero]

theorem ite_beq_eq_tick (o x : κ) : (if (o == x) = true then 1 else 0) = tick o x :=
  if_congr (beq_iff_eq.trans eq_comm) rfl rfl

end Tick

/-- The reference that a pointer is. -/
def ptrTick : Option Nat → Nat → Nat
  | none => 0
  | some o => tick o

/-- The objects that exist, their counts and what they hold. -/
structure RefHeap (α : Type) where
  live : Finset Nat
  refs : Nat → Nat
  val : Nat → α

namespace RefHeap

variable {α : Type}

/-- No objects; `v` stands where there is none. -/
def empty (v : α) : RefHeap α := { live := ∅, refs := fun _ => 0, val := fun _ => v }

/-- A new object with one reference. -/
def create (h : RefHeap α) (o : Nat) (v : α) : RefHeap α :=
  { live := insert o h.live, refs := update h.refs o 1, val := update h.val o v }

/-- One reference more. -/
def get (h : RefHeap α) (o : Nat) : RefHeap α :=
  { h with refs := update h.refs o (h.refs o + 1) }

/-- One reference fewer, if there is one. -/
def dec (h : RefHeap α) (o : Nat) : RefHeap α :=
  { h with refs := update h.refs o (h.refs o - 1) }

/-- The object is gone. -/
def free (h : RefHeap α) (o : Nat) : RefHeap α := { h with live := h.live.erase o }

/-- The object holds something else. -/
def set (h : RefHeap α) (o : Nat) (v : α) : RefHeap α := { h with val := update h.val o v }

theorem dec_refs_self (h : RefHeap α) (o : Nat) : (h.dec o).refs o = h.refs o - 1 :=
  update_self ..

theorem dec_refs_ne (h : RefHeap α) {o x : Nat} (hx : x ≠ o) : (h.dec o).refs x = h.refs x :=
  update_of_ne hx ..

theorem set_val_self (h : RefHeap α) (o : Nat) (v : α) : (h.set o v).val o = v :=
  update_self ..

theorem create_val_self (h : RefHeap α) (o : Nat) (v : α) : (h.create o v).val o = v :=
  update_self ..

theorem create_val_ne (h : RefHeap α) {o x : Nat} (v : α) (hx : x ≠ o) :
    (h.create o v).val x = h.val x :=
  update_of_ne hx ..

end RefHeap

/-- The counts are right: every pointer is to an object that exists, and an object has as
many references as there are pointers to it in `S`, and `extra` besides. -/
structure Held {α β : Type} (h : RefHeap α) (S : Finset β) (ptr : β → Option Nat)
    (extra : Nat → Nat) : Prop where
  mem : ∀ x ∈ S, ∀ o, ptr x = some o → o ∈ h.live
  absent : ∀ o, o ∉ h.live → extra o = 0
  refs : ∀ o ∈ h.live, h.refs o = count S (fun x => ptr x == some o) + extra o
  pos : ∀ o ∈ h.live, 0 < h.refs o

namespace Held

variable {α β : Type} {h : RefHeap α} {S : Finset β} {ptr ptr' : β → Option Nat}
  {extra : Nat → Nat} {o : Nat}

theorem empty (v : α) : Held (RefHeap.empty v) S (fun _ => none) 0 where
  mem _ _ _ h := absurd h (by simp)
  absent _ _ := rfl
  refs _ h := absurd h (Finset.notMem_empty _)
  pos _ h := absurd h (Finset.notMem_empty _)

/-- An object with a reference on its way exists. -/
theorem live_of_extra (hh : Held h S ptr (extra + tick o)) : o ∈ h.live := by
  by_contra hno
  have := hh.absent o hno
  simp at this

/-- No place points to an object that does not exist. -/
theorem count_eq_zero (hh : Held h S ptr extra) (hno : o ∉ h.live) :
    count S (fun x => ptr x == some o) = 0 := by
  rw [Lib.count_eq_zero]
  intro x hx
  rw [beq_eq_false_iff_ne]
  intro hp
  exact hno (hh.mem x hx o hp)

/-- What the objects hold does not matter. -/
theorem set (hh : Held h S ptr extra) (x : Nat) (v : α) : Held (h.set x v) S ptr extra :=
  ⟨hh.mem, hh.absent, hh.refs, hh.pos⟩

theorem create (hh : Held h S ptr extra) (hno : o ∉ h.live) (v : α) :
    Held (h.create o v) S ptr (extra + tick o) where
  mem x hx o' ho' := Finset.mem_insert_of_mem (hh.mem x hx o' ho')
  absent o' ho' := by
    rw [RefHeap.create, Finset.mem_insert, not_or] at ho'
    rw [Pi.add_apply, hh.absent o' ho'.2, tick_ne ho'.1]
  refs o' ho' := by
    dsimp only [RefHeap.create] at ho' ⊢
    rw [Pi.add_apply]
    by_cases he : o' = o
    · subst he
      rw [update_self, hh.count_eq_zero hno, hh.absent _ hno, tick_self]
    · rw [update_of_ne he, tick_ne he, hh.refs o' (Finset.mem_of_mem_insert_of_ne ho' he)]
      rfl
  pos o' ho' := by
    dsimp only [RefHeap.create] at ho' ⊢
    by_cases he : o' = o
    · subst he
      rw [update_self]
      exact Nat.one_pos
    · rw [update_of_ne he]
      exact hh.pos o' (Finset.mem_of_mem_insert_of_ne ho' he)

theorem get (hh : Held h S ptr extra) (ho : o ∈ h.live) :
    Held (h.get o) S ptr (extra + tick o) where
  mem := hh.mem
  absent o' ho' := by
    have hne : o' ≠ o := fun he => ho' (he ▸ ho)
    rw [Pi.add_apply, hh.absent o' ho', tick_ne hne]
  refs o' ho' := by
    dsimp only [RefHeap.get] at ho' ⊢
    rw [Pi.add_apply]
    by_cases he : o' = o
    · subst he
      rw [update_self, hh.refs _ ho', tick_self]
      rfl
    · rw [update_of_ne he, tick_ne he, hh.refs o' ho']
      rfl
  pos o' ho' := by
    dsimp only [RefHeap.get] at ho' ⊢
    by_cases he : o' = o
    · subst he
      rw [update_self]
      exact Nat.succ_pos _
    · rw [update_of_ne he]
      exact hh.pos o' ho'

/-- A reference is dropped and others remain. -/
theorem dec (hh : Held h S ptr (extra + tick o)) (hr : (h.dec o).refs o ≠ 0) :
    Held (h.dec o) S ptr extra where
  mem := hh.mem
  absent o' ho' := by
    have := hh.absent o' ho'
    rw [Pi.add_apply] at this
    omega
  refs o' ho' := by
    have hrefs := hh.refs o' ho'
    rw [Pi.add_apply] at hrefs
    by_cases he : o' = o
    · subst he
      rw [tick_self] at hrefs
      rw [h.dec_refs_self]
      omega
    · rw [tick_ne he] at hrefs
      rw [h.dec_refs_ne he]
      omega
  pos o' ho' := by
    by_cases he : o' = o
    · subst he
      omega
    · rw [h.dec_refs_ne he]
      exact hh.pos o' ho'

/-- With the last reference dropped no place points to the object. -/
theorem count_of_last (hh : Held h S ptr (extra + tick o)) (hr : (h.dec o).refs o = 0) :
    count S (fun x => ptr x == some o) = 0 ∧ extra o = 0 := by
  have hrefs := hh.refs o hh.live_of_extra
  rw [Pi.add_apply, tick_self] at hrefs
  rw [h.dec_refs_self] at hr
  exact ⟨by omega, by omega⟩

theorem ne_of_last (hh : Held h S ptr (extra + tick o)) (hr : (h.dec o).refs o = 0) {x : β}
    (hx : x ∈ S) : ptr x ≠ some o := by
  have hfalse := Lib.count_eq_zero.mp (hh.count_of_last hr).1 x hx
  rwa [beq_eq_false_iff_ne] at hfalse

/-- The last reference is dropped and the object freed. -/
theorem dec_free (hh : Held h S ptr (extra + tick o)) (hr : (h.dec o).refs o = 0) :
    Held ((h.dec o).free o) S ptr extra where
  mem x hx o' ho' := by
    have hne : o' ≠ o := fun he => hh.ne_of_last hr hx (he ▸ ho')
    exact Finset.mem_erase.mpr ⟨hne, hh.mem x hx o' ho'⟩
  absent o' ho' := by
    by_cases he : o' = o
    · rw [he]
      exact (hh.count_of_last hr).2
    · have hno : o' ∉ h.live := fun hl => ho' (Finset.mem_erase.mpr ⟨he, hl⟩)
      have := hh.absent o' hno
      rw [Pi.add_apply] at this
      omega
  refs o' ho' := by
    obtain ⟨hne, hl⟩ := Finset.mem_erase.mp ho'
    have hrefs := hh.refs o' hl
    rw [Pi.add_apply, tick_ne hne] at hrefs
    show (h.dec o).refs o' = _
    rw [h.dec_refs_ne hne, hrefs]
    rfl
  pos o' ho' := by
    obtain ⟨hne, hl⟩ := Finset.mem_erase.mp ho'
    show 0 < (h.dec o).refs o'
    rw [h.dec_refs_ne hne]
    exact hh.pos o' hl

/-- An object exists exactly while a place points to it. -/
theorem live_iff (hh : Held h S ptr 0) : o ∈ h.live ↔ ∃ x ∈ S, ptr x = some o := by
  refine ⟨fun ho => ?_, fun hp => hp.elim fun x hx => hh.mem x hx.1 o hx.2⟩
  have hpos := hh.pos o ho
  rw [hh.refs o ho] at hpos
  obtain ⟨x, hx⟩ := Finset.card_pos.mp hpos
  exact ⟨x, by simpa using hx⟩

/-- There are no more objects than places that point to one. -/
theorem card_live_le (hh : Held h S ptr 0) :
    h.live.card ≤ (S.filter fun x => (ptr x).isSome).card := by
  apply Finset.card_le_card_of_surjOn fun x => (ptr x).getD 0
  intro o ho
  have hpos : 0 < count S fun x => ptr x == some o := by
    have hrefs := hh.refs o ho
    have := hh.pos o ho
    rw [hrefs] at this
    exact this
  obtain ⟨x, hx⟩ := Finset.card_pos.mp hpos
  obtain ⟨hxS, hxo⟩ := Finset.mem_filter.mp hx
  have hxo : ptr x = some o := by simpa using hxo
  refine ⟨x, ?_, by simp [hxo]⟩
  simp [hxS, hxo]

/-! ## References and places -/

variable [DecidableEq β] {x : β}

/-- The pointers to `o` when place `x` gets another pointer. -/
theorem count_ptr_update (ptr : β → Option Nat) (hx : x ∈ S) (p : Option Nat) (o : Nat) :
    count S (fun y => update ptr x p y == some o) + (if ptr x == some o then 1 else 0) =
      count S (fun y => ptr y == some o) + (if p == some o then 1 else 0) := by
  have := count_update hx
    (q := fun y => update ptr x p y == some o) fun y _ hy => by rw [update_of_ne hy]
  rwa [show update ptr x p x = p from update_self ..] at this

/-- A place without a pointer takes a reference. -/
theorem install (hh : Held h S ptr (extra + tick o)) (hx : x ∈ S) (hp : ptr x = none) :
    Held h S (update ptr x (some o)) extra where
  mem y hy o' ho' := by
    by_cases he : y = x
    · subst he
      rw [update_self, Option.some.injEq] at ho'
      rw [← ho']
      exact hh.live_of_extra
    · rw [update_of_ne he] at ho'
      exact hh.mem y hy o' ho'
  absent o' ho' := by
    have := hh.absent o' ho'
    rw [Pi.add_apply] at this
    omega
  refs o' ho' := by
    have hcount := count_ptr_update ptr hx (some o) o'
    rw [hp] at hcount
    rw [hh.refs o' ho', Pi.add_apply]
    by_cases he : o' = o
    · subst he
      rw [tick_self]
      simp at hcount
      omega
    · rw [tick_ne he]
      simp [Ne.symm he] at hcount
      omega
  pos := hh.pos

/-- A place gives up its pointer. -/
theorem take (hh : Held h S ptr extra) (hx : x ∈ S) (hp : ptr x = some o) :
    Held h S (update ptr x none) (extra + tick o) where
  mem y hy o' ho' := by
    by_cases he : y = x
    · subst he
      rw [update_self] at ho'
      cases ho'
    · rw [update_of_ne he] at ho'
      exact hh.mem y hy o' ho'
  absent o' ho' := by
    have hne : o' ≠ o := fun he => ho' (he ▸ hh.mem x hx o hp)
    rw [Pi.add_apply, hh.absent o' ho', tick_ne hne]
  refs o' ho' := by
    have hcount := count_ptr_update ptr hx none o'
    rw [hp] at hcount
    rw [hh.refs o' ho', Pi.add_apply]
    by_cases he : o' = o
    · subst he
      rw [tick_self]
      simp at hcount
      omega
    · rw [tick_ne he]
      simp [Ne.symm he] at hcount
      omega
  pos := hh.pos

end Held

end Drunix.Lib
