import Mathlib

/-!
# Ring buffers

A buffer of `cap` places with a read index, a write index and a count. `RingBuf.Ok cap` is what
its operations keep, and `RingBuf.contents cap` the queue that it stands for: `contents_push`
and `contents_skip` say that writing puts an element at the end and reading takes elements
from the front.
-/

namespace Drunix.Lib

open Function

variable {α : Type}

/-- A ring buffer; its places are those below the capacity. -/
structure RingBuf (α : Type) where
  buf : Nat → α
  readIdx : Nat
  writeIdx : Nat
  count : Nat

variable {n cap : Nat}

namespace RingBuf

/-- No more elements than places, and the next one goes behind the last. -/
structure Ok (cap : Nat) (r : RingBuf α) : Prop where
  le : r.count ≤ cap
  lt : r.readIdx < cap
  write : (r.readIdx + r.count) % cap = r.writeIdx

/-- The `n` elements from `start` on. -/
def window (cap : Nat) (buf : Nat → α) (start n : Nat) : List α :=
  (List.range n).map fun i => buf ((start + i) % cap)

/-- The elements in the order in which they are read. -/
def contents (cap : Nat) (r : RingBuf α) : List α := window cap r.buf r.readIdx r.count

/-- An element is written. -/
def push (cap : Nat) (r : RingBuf α) (a : α) : RingBuf α :=
  { r with
    buf := update r.buf r.writeIdx a
    writeIdx := (r.writeIdx + 1) % cap
    count := r.count + 1 }

/-- The first `n` elements are read. -/
def skip (cap : Nat) (r : RingBuf α) (n : Nat) : RingBuf α :=
  { r with readIdx := (r.readIdx + n) % cap, count := r.count - n }

@[simp] theorem window_length (cap : Nat) (buf : Nat → α) (start n : Nat) :
    (window cap buf start n).length = n := by
  rw [window, List.length_map, List.length_range]

@[simp] theorem contents_length (cap : Nat) (r : RingBuf α) : (contents cap r).length = r.count :=
  window_length ..

theorem window_mod (cap : Nat) (buf : Nat → α) (start n : Nat) :
    window cap buf (start % cap) n = window cap buf start n := by
  refine List.map_congr_left fun i _ => ?_
  rw [Nat.mod_add_mod]

theorem window_add (cap : Nat) (buf : Nat → α) (start m n : Nat) :
    window cap buf start (m + n) = window cap buf start m ++ window cap buf (start + m) n := by
  unfold window
  rw [List.range_add, List.map_append, List.map_map]
  congr 1
  refine List.map_congr_left fun i _ => ?_
  rw [Function.comp_apply, Nat.add_assoc]

theorem window_one (cap : Nat) (buf : Nat → α) (start : Nat) :
    window cap buf start 1 = [buf (start % cap)] := rfl

/-- A write behind the window leaves it. -/
theorem window_update {start i : Nat} (buf : Nat → α) (a : α) (hi : n ≤ i) (hcap : i < cap) :
    window cap (update buf ((start + i) % cap) a) start n = window cap buf start n := by
  refine List.map_congr_left fun j hj => update_of_ne (fun heq => ?_) _ _
  have hj := List.mem_range.mp hj
  have hsub := Nat.sub_mod_eq_zero_of_mod_eq heq.symm
  rw [Nat.mod_eq_of_lt (by omega)] at hsub
  omega

theorem Ok.push {r : RingBuf α} (h : Ok cap r) (hlt : r.count < cap) (a : α) :
    Ok cap (r.push cap a) where
  le := hlt
  lt := h.lt
  write := by
    show (r.readIdx + (r.count + 1)) % cap = (r.writeIdx + 1) % cap
    rw [← h.write, Nat.mod_add_mod, Nat.add_assoc]

theorem Ok.contents_push {r : RingBuf α} (h : Ok cap r) (hlt : r.count < cap) (a : α) :
    contents cap (r.push cap a) = contents cap r ++ [a] := by
  show window cap (update r.buf r.writeIdx a) r.readIdx (r.count + 1) = _
  rw [window_add, window_one, ← h.write, update_self, window_update r.buf a le_rfl hlt]
  rfl

theorem Ok.skip {r : RingBuf α} (h : Ok cap r) (hn : n ≤ r.count) : Ok cap (r.skip cap n) where
  le := Nat.le_trans (Nat.sub_le _ _) h.le
  lt := Nat.mod_lt _ (Nat.lt_of_le_of_lt (Nat.zero_le _) h.lt)
  write := by
    show ((r.readIdx + n) % cap + (r.count - n)) % cap = r.writeIdx
    rw [← h.write, Nat.mod_add_mod]
    congr 1
    omega

/-- What is read comes from the front of the queue. -/
theorem contents_skip {r : RingBuf α} (hn : n ≤ r.count) :
    contents cap r = window cap r.buf r.readIdx n ++ contents cap (r.skip cap n) := by
  show window cap r.buf r.readIdx r.count =
    _ ++ window cap r.buf ((r.readIdx + n) % cap) (r.count - n)
  rw [window_mod, ← window_add]
  congr 1
  omega

end RingBuf

end Drunix.Lib
