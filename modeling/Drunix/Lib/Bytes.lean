import Mathlib

/-!
# Byte buffers and 32-bit words

The C sources move raw memory about: `k_memcpy` between a stack object and a
heap block, big-endian journal headers, little-endian on-disk structs. A buffer
is modelled as a total function from offsets to bytes, so that a copy that runs
past the end of the object it was meant for is visible as a change at those
offsets instead of being cut off by the type.

Words are natural numbers below `2 ^ 32`; `u32` is the reduction the C
arithmetic performs on `uint32_t`.
-/

namespace Drunix.Lib

/-- Reduction to `uint32_t`. -/
def u32 (n : Nat) : Nat := n % 4294967296

theorem u32_lt (n : Nat) : u32 n < 4294967296 := Nat.mod_lt _ (by decide)

theorem u32_of_lt {n : Nat} (h : n < 4294967296) : u32 n = n := Nat.mod_eq_of_lt h

/-- A region of memory, by byte offset. -/
abbrev Buf := Nat → UInt8

/-- `k_memcpy(dst + doff, src + soff, n)`. -/
def memcpy (dst : Buf) (doff : Nat) (src : Buf) (soff n : Nat) : Buf :=
  fun i => if doff ≤ i ∧ i < doff + n then src (soff + (i - doff)) else dst i

variable {p q dst src : Buf} {i k n v off off' doff soff : Nat}

theorem memcpy_in (h : doff ≤ i) (h' : i < doff + n) :
    memcpy dst doff src soff n i = src (soff + (i - doff)) := if_pos ⟨h, h'⟩

theorem memcpy_out (h : i < doff ∨ doff + n ≤ i) :
    memcpy dst doff src soff n i = dst i := if_neg (by omega)

theorem memcpy_add (h : i < n) : memcpy dst doff src 0 n (doff + i) = src i := by
  rw [memcpy_in (by omega) (by omega), Nat.add_sub_cancel_left, Nat.zero_add]

/-- `k_memset(dst + off, v, n)`. -/
def memset (dst : Buf) (off : Nat) (v : UInt8) (n : Nat) : Buf :=
  fun i => if off ≤ i ∧ i < off + n then v else dst i

/-- `n` bytes from `off` on, as an array of their own. -/
def slice (p : Buf) (off n : Nat) : Buf := fun i => if i < n then p (off + i) else 0

/-- An array of `n` bytes: nothing from `n` on. -/
def Clipped (n : Nat) (p : Buf) : Prop := ∀ i, n ≤ i → p i = 0

theorem slice_clipped (p : Buf) (off n : Nat) : Clipped n (slice p off n) :=
  fun _ hi => if_neg (by omega)

theorem Clipped.memcpy (h : Clipped n p) (hk : off + k ≤ n)
    (src : Buf) (soff : Nat) : Clipped n (memcpy p off src soff k) := by
  intro i hi
  rw [memcpy_out (by omega)]
  exact h i hi

/-- Filling an array leaves the bytes put in. -/
theorem Clipped.memcpy_all (h : Clipped n p) (src : Buf) :
    Lib.memcpy p 0 src 0 n = slice src 0 n := by
  funext i
  unfold slice
  split
  next hi => rw [memcpy_in (Nat.zero_le i) (by omega), Nat.sub_zero]
  next hi => rw [memcpy_out (by omega), h i (by omega)]

/-- Arrays with the same bytes are the same. -/
theorem Clipped.ext (hp : Clipped n p) (hq : Clipped n q) (h : ∀ i < n, p i = q i) : p = q := by
  funext i
  by_cases hi : i < n
  · exact h i hi
  · rw [hp i (by omega), hq i (by omega)]

theorem Clipped.slice_self (h : Clipped n p) : slice p 0 n = p :=
  (slice_clipped p 0 n).ext h fun i hi => by simp [slice, hi]

theorem Clipped.memset (h : Clipped n p) (hk : off + k ≤ n)
    (v : UInt8) : Clipped n (memset p off v k) := by
  intro i hi
  unfold Lib.memset
  rw [if_neg (by omega)]
  exact h i hi

/-- `be32`: the big-endian word at `p + off`. -/
def be32 (p : Buf) (off : Nat) : Nat :=
  16777216 * (p off).toNat + 65536 * (p (off + 1)).toNat + 256 * (p (off + 2)).toNat
    + (p (off + 3)).toNat

/-- `put_be32`. -/
def putBe32 (p : Buf) (off v : Nat) : Buf := fun i =>
  if i = off then UInt8.ofNat (v / 16777216)
  else if i = off + 1 then UInt8.ofNat (v / 65536)
  else if i = off + 2 then UInt8.ofNat (v / 256)
  else if i = off + 3 then UInt8.ofNat v
  else p i

/-- A little-endian `uint16_t` field at offset `off`. -/
def le16 (p : Buf) (off : Nat) : Nat := (p off).toNat + 256 * (p (off + 1)).toNat

/-- A little-endian `uint32_t` field at offset `off`. -/
def le32 (p : Buf) (off : Nat) : Nat :=
  (p off).toNat + 256 * (p (off + 1)).toNat + 65536 * (p (off + 2)).toNat
    + 16777216 * (p (off + 3)).toNat

/-- Store to a little-endian `uint32_t` field. -/
def putLe32 (p : Buf) (off v : Nat) : Buf := fun i =>
  if i = off then UInt8.ofNat v
  else if i = off + 1 then UInt8.ofNat (v / 256)
  else if i = off + 2 then UInt8.ofNat (v / 65536)
  else if i = off + 3 then UInt8.ofNat (v / 16777216)
  else p i

theorem toNat_ofNat_u8 (v : Nat) : (UInt8.ofNat v).toNat = v % 256 := by
  simp [UInt8.toNat_ofNat']

theorem le32_lt (p : Buf) (off : Nat) : le32 p off < 4294967296 := by
  have h0 := (p off).toNat_lt
  have h1 := (p (off + 1)).toNat_lt
  have h2 := (p (off + 2)).toNat_lt
  have h3 := (p (off + 3)).toNat_lt
  unfold le32
  omega

/-- A store leaves the bytes outside its four alone. -/
theorem putBe32_out (p : Buf) (v : Nat) (h : i < off ∨ off + 4 ≤ i) : putBe32 p off v i = p i := by
  unfold putBe32
  rw [if_neg (by omega), if_neg (by omega), if_neg (by omega), if_neg (by omega)]

theorem Clipped.putBe32 (h : Clipped n p) (hoff : off + 4 ≤ n)
    (v : Nat) : Clipped n (putBe32 p off v) :=
  fun i hi => (putBe32_out p v (by omega)).trans (h i hi)

/-- Reading back the word just stored. -/
theorem be32_putBe32 (hv : v < 4294967296) (p : Buf) (off : Nat) :
    be32 (putBe32 p off v) off = v := by
  simp only [be32, putBe32, Nat.add_left_cancel_iff, Nat.add_eq_left, Nat.reduceEqDiff, one_ne_zero,
    OfNat.ofNat_ne_zero, OfNat.ofNat_ne_one, if_true, if_false, toNat_ofNat_u8]
  omega

/-- Storing the word a buffer holds gives that buffer. -/
theorem putBe32_be32 (h : ∀ i, i < off ∨ off + 4 ≤ i → q i = p i) :
    putBe32 q off (be32 p off) = p := by
  have h0 := (p off).toNat_lt
  have h1 := (p (off + 1)).toNat_lt
  have h2 := (p (off + 2)).toNat_lt
  have h3 := (p (off + 3)).toNat_lt
  have hbyte : ∀ (v : Nat) (x : UInt8), v % 256 = x.toNat → UInt8.ofNat v = x := by
    intro v x hv
    apply UInt8.toNat_inj.mp
    rw [toNat_ofNat_u8, hv]
  funext i
  unfold putBe32 be32
  split
  next he => rw [he]; exact hbyte _ _ (by omega)
  split
  next he => rw [he]; exact hbyte _ _ (by omega)
  split
  next he => rw [he]; exact hbyte _ _ (by omega)
  split
  next he => rw [he]; exact hbyte _ _ (by omega)
  exact h i (by omega)

/-- A word away from the stored one is untouched. -/
theorem be32_putBe32_ne (p : Buf) (v : Nat)
    (h : off' + 4 ≤ off ∨ off + 4 ≤ off') : be32 (putBe32 p off v) off' = be32 p off' := by
  have hne : ∀ k < 4, putBe32 p off v (off' + k) = p (off' + k) :=
    fun k hk => putBe32_out p v (by omega)
  have h0 := hne 0 (by decide)
  rw [Nat.add_zero] at h0
  unfold be32
  rw [h0, hne 1 (by decide), hne 2 (by decide), hne 3 (by decide)]

theorem le32_putLe32 (hv : v < 4294967296) (p : Buf) (off : Nat) :
    le32 (putLe32 p off v) off = v := by
  simp only [le32, putLe32, Nat.add_left_cancel_iff, Nat.add_eq_left, Nat.reduceEqDiff, one_ne_zero,
    OfNat.ofNat_ne_zero, OfNat.ofNat_ne_one, if_true, if_false, toNat_ofNat_u8]
  omega

/-- A store leaves the bytes outside its four alone. -/
theorem putLe32_out (p : Buf) (v : Nat) (h : i < off ∨ off + 4 ≤ i) : putLe32 p off v i = p i := by
  unfold putLe32
  rw [if_neg (by omega), if_neg (by omega), if_neg (by omega), if_neg (by omega)]

theorem le32_congr (h : ∀ k < 4, p (off + k) = q (off' + k)) : le32 p off = le32 q off' := by
  have h0 := h 0 (by decide)
  rw [Nat.add_zero, Nat.add_zero] at h0
  unfold le32
  rw [h0, h 1 (by decide), h 2 (by decide), h 3 (by decide)]

/-- A word of what was copied. -/
theorem le32_memcpy (h : off + 4 ≤ n) :
    le32 (memcpy dst doff src 0 n) (doff + off) = le32 src off :=
  le32_congr fun k hk => by
    rw [Nat.add_assoc]
    exact memcpy_add (by omega)

theorem le32_putLe32_ne (p : Buf) (v : Nat)
    (h : off' + 4 ≤ off ∨ off + 4 ≤ off') : le32 (putLe32 p off v) off' = le32 p off' :=
  le32_congr fun k hk => putLe32_out p v (by omega)

end Drunix.Lib
