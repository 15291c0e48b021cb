import Drunix.Lib.Bytes
import Drunix.Lib.Loop

/-!
# The kernel heap

`mm/kheap.c` on x86: blocks with a 16-byte header in a singly linked list, first
fit, split and forward coalescing. `kheap_run`: after any calls of `kmalloc` with 32-bit
sizes and of `kfree` on live pointers, the blocks tile the heap in address order, no two
neighbours are free, the live pointers are the payloads of the blocks in use, and a call of
`kmalloc` fails only if no free block has so many bytes. What it returns has as many bytes
as asked for exactly if the size is at most `0xFFFFFFFC`: above, rounding up to four wraps
to zero (`kmalloc_wraps`).

Mirroring notes:
- Memory is seen through the headers in it: `Headers` gives what `heap_block_t *` reads at
  an address. Programs stay in their payloads, so that only these functions write headers.
- The heap's bounds come from the architecture: `HeapArea` says what they have to satisfy.
- The loops over the list get fuel for every block that fits into the heap.
-/

namespace Drunix.Mm

open Lib Function

/-! ## kheap.c -/

/-- `heap_block_t`. -/
@[ext]
structure HeapBlock where
  magic : Nat
  size : Nat
  free : Bool
  next : Nat
deriving DecidableEq

abbrev Headers := Nat → HeapBlock

/-- `HEAP_MAGIC`. -/
def heapMagic : Nat := 0xDEADBEEF

/-- `sizeof(heap_block_t)`. -/
def headerSize : Nat := 16

/-- `HEAP_MIN_SPLIT`. -/
def heapMinSplit : Nat := 32

/-- `kheap_arch_base` and `kheap_arch_size`. -/
structure HeapArea where
  base : Nat
  size : Nat
  above : headerSize < base
  room : headerSize ≤ size
  aligned : 4 ∣ size
  fits : base + size ≤ 4294967296

/-- `heap_align_size`. -/
def heapAlignSize (size : Nat) : Nat := u32 (size + 3) / 4 * 4

/-- `kheap_init`, over whatever was in memory. -/
def kheapInit (area : HeapArea) (m : Headers) : Headers :=
  update m area.base
    { magic := heapMagic, size := area.size - headerSize, free := true, next := 0 }

/-- The block `cur` is taken for `size` bytes, and what is left becomes a block if it is
large enough. -/
def takeBlock (m : Headers) (cur size : Nat) : Headers :=
  let m :=
    if (m cur).size ≥ u32 (size + heapMinSplit) then
      let next := cur + headerSize + size
      let m' := update m next
        { magic := heapMagic, size := (m cur).size - size - headerSize, free := true
          next := (m cur).next }
      update m' cur { m' cur with size := size, next := next }
    else m
  update m cur { m cur with free := false }

/-- The loop of `kmalloc`. -/
def kmallocLoop (size : Nat) : Nat → Headers → Nat → Nat × Headers
  | 0, m, _ => (0, m)
  | fuel + 1, m, cur =>
    if cur = 0 then (0, m)
    else if (m cur).magic ≠ heapMagic then (0, m)
    else if (m cur).free = true ∧ (m cur).size ≥ size then (cur + headerSize, takeBlock m cur size)
    else kmallocLoop size fuel m (m cur).next

/-- As many blocks as a heap can have. -/
def HeapArea.fuel (area : HeapArea) : Nat := area.size / headerSize + 1

/-- `kmalloc`. -/
def kmalloc (area : HeapArea) (m : Headers) (size : Nat) : Nat × Headers :=
  kmallocLoop (heapAlignSize size) area.fuel m area.base

/-- The block `cur` takes in the one behind it. -/
def absorb (m : Headers) (cur : Nat) : Headers :=
  let next := (m cur).next
  update m cur
    { m cur with
      size := u32 ((m cur).size + (headerSize + (m next).size))
      next := (m next).next }

/-- The coalescing pass of `kfree`. -/
def coalesce : Nat → Headers → Nat → Headers
  | 0, m, _ => m
  | fuel + 1, m, cur =>
    if cur = 0 ∨ (m cur).next = 0 then m
    else if (m cur).free = true ∧ (m (m cur).next).free = true then
      coalesce fuel (absorb m cur) cur
    else coalesce fuel m (m cur).next

/-- The block is free again. -/
def release (m : Headers) (block : Nat) : Headers :=
  update m block { m block with free := true }

/-- `kfree`. -/
def kfree (area : HeapArea) (m : Headers) (ptr : Nat) : Headers :=
  if ptr = 0 then m
  else if (m (ptr - headerSize)).magic ≠ heapMagic then m
  else coalesce area.fuel (release m (ptr - headerSize)) area.base

/-! ## The blocks in memory -/

/-- The end of the block at `a`. -/
def blockEnd (m : Headers) (a : Nat) : Nat := a + headerSize + (m a).size

/-- The blocks from `a` to the end of the heap: each begins where the one before ends, and
the links follow them. -/
def Tiled (m : Headers) (stop : Nat) : Nat → List Nat → Prop
  | a, [] => a = stop
  | a, b :: l =>
    a = b ∧ (m b).magic = heapMagic ∧ 4 ∣ (m b).size ∧
      (m b).next = (if l = [] then 0 else blockEnd m b) ∧ Tiled m stop (blockEnd m b) l

/-- No two neighbours are free. -/
def Coalesced (m : Headers) (l : List Nat) : Prop :=
  l.IsChain fun a b => ¬ ((m a).free = true ∧ (m b).free = true)

variable {m m' : Headers} {area : HeapArea} {l pre post : List Nat}
  {b a c size stop : Nat}

theorem Coalesced.congr (h : Coalesced m l)
    (hm : ∀ b ∈ l, (m' b).free = (m b).free) : Coalesced m' l := by
  induction l with
  | nil => exact List.IsChain.nil
  | cons a l ih =>
    cases l with
    | nil => exact List.IsChain.singleton a
    | cons b l =>
      obtain ⟨hab, hrest⟩ := List.isChain_cons_cons.mp h
      refine List.isChain_cons_cons.mpr ⟨?_, ih hrest fun c hc => hm c (List.mem_cons_of_mem a hc)⟩
      rw [hm a (by simp), hm b (by simp)]
      exact hab

theorem Tiled.congr (h : Tiled m stop a l) (hm : ∀ b ∈ l, m' b = m b) : Tiled m' stop a l := by
  induction l generalizing a with
  | nil => exact h
  | cons b l ih =>
    obtain ⟨ha, hmagic, hdvd, hnext, hrest⟩ := h
    have hb := hm b List.mem_cons_self
    refine ⟨ha, by rw [hb]; exact hmagic, by rw [hb]; exact hdvd, ?_, ?_⟩
    · rw [blockEnd, hb]
      exact hnext
    · rw [blockEnd, hb]
      exact ih hrest fun c hc => hm c (List.mem_cons_of_mem b hc)

theorem Tiled.block (h : Tiled m stop a l)
    (hb : b ∈ l) : (m b).magic = heapMagic ∧ 4 ∣ (m b).size := by
  induction l generalizing a with
  | nil => exact absurd hb List.not_mem_nil
  | cons c l ih =>
    obtain ⟨-, hmagic, hdvd, -, hrest⟩ := h
    rcases List.mem_cons.mp hb with rfl | hb
    · exact ⟨hmagic, hdvd⟩
    · exact ih hrest hb

/-- Whether a block is free says nothing about where it is. -/
theorem Tiled.release (h : Tiled m stop a l) (b : Nat) : Tiled (release m b) stop a l := by
  unfold Mm.release
  induction l generalizing a with
  | nil => exact h
  | cons c l ih =>
    obtain ⟨hac, hblock⟩ := h
    refine ⟨hac, ?_⟩
    by_cases hcb : c = b
    · subst hcb
      rw [blockEnd, update_self]
      exact ⟨hblock.1, hblock.2.1, hblock.2.2.1, ih hblock.2.2.2⟩
    · rw [blockEnd, update_of_ne hcb]
      exact ⟨hblock.1, hblock.2.1, hblock.2.2.1, ih hblock.2.2.2⟩

/-- All blocks of the list begin behind its start, and end before the heap does. -/
theorem Tiled.bounds (h : Tiled m stop a l) : a ≤ stop ∧ ∀ b ∈ l, a ≤ b ∧ blockEnd m b ≤ stop := by
  induction l generalizing a with
  | nil => exact ⟨Nat.le_of_eq h, by simp⟩
  | cons b l ih =>
    obtain ⟨rfl, -, -, -, hrest⟩ := h
    obtain ⟨hle, hin⟩ := ih hrest
    have hend : a ≤ blockEnd m a := by unfold blockEnd; omega
    refine ⟨Nat.le_trans hend hle, fun c hc => ?_⟩
    rcases List.mem_cons.mp hc with rfl | hc
    · exact ⟨Nat.le_refl _, hle⟩
    · exact ⟨Nat.le_trans hend (hin c hc).1, (hin c hc).2⟩

/-- The first block is not among the others. -/
theorem Tiled.not_mem (h : Tiled m stop a (a :: l)) : a ∉ l := by
  intro hmem
  have := (h.2.2.2.2.bounds.2 a hmem).1
  unfold blockEnd headerSize at this
  omega

/-- Two blocks do not overlap. -/
theorem Tiled.disjoint (h : Tiled m stop a l) : l.Pairwise fun b c => blockEnd m b ≤ c := by
  induction l generalizing a with
  | nil => exact List.Pairwise.nil
  | cons b l ih =>
    obtain ⟨-, -, -, -, hrest⟩ := h
    exact List.pairwise_cons.mpr ⟨fun c hc => (hrest.bounds.2 c hc).1, ih hrest⟩

/-- There are no more blocks than headers fit. -/
theorem Tiled.length_le (h : Tiled m stop a l) : a + headerSize * l.length ≤ stop := by
  induction l generalizing a with
  | nil => exact Nat.le_of_eq h
  | cons b l ih =>
    obtain ⟨rfl, -, -, -, hrest⟩ := h
    have := ih hrest
    unfold blockEnd at this
    rw [List.length_cons, Nat.mul_succ]
    omega

variable {l' : List Nat} {ptr : Nat}

/-- Putting other blocks for the last ones of the list. -/
theorem Tiled.replace
    (h : Tiled m stop a (pre ++ l)) (hm : ∀ b ∈ pre, m' b = m b) (hne : l ≠ []) (hne' : l' ≠ [])
    (hl : ∀ c, Tiled m stop c l → Tiled m' stop c l') : Tiled m' stop a (pre ++ l') := by
  induction pre generalizing a with
  | nil => exact hl a h
  | cons b pre ih =>
    obtain ⟨ha, hmagic, hdvd, hnext, hrest⟩ := h
    have hb := hm b List.mem_cons_self
    refine ⟨ha, by rw [hb]; exact hmagic, by rw [hb]; exact hdvd, ?_, ?_⟩
    · rw [if_neg (by simp [hne])] at hnext
      rw [if_neg (by simp [hne']), hb, blockEnd, hb]
      exact hnext
    · rw [blockEnd, hb]
      exact ih hrest fun c hc => hm c (List.mem_cons_of_mem b hc)

/-! ## kmalloc -/

/-- The search finds the first free block that is large enough, or there is none. -/
theorem kmallocLoop_spec {fuel : Nat} (size : Nat)
    (h : Tiled m stop a l) (hpos : 0 < a) (hfuel : l.length < fuel) :
    (kmallocLoop size fuel m (if l = [] then 0 else a) = (0, m) ∧
      ∀ b ∈ l, (m b).free = true → (m b).size < size) ∨
    ∃ b ∈ l, (m b).free = true ∧ size ≤ (m b).size ∧
      kmallocLoop size fuel m (if l = [] then 0 else a) = (b + headerSize, takeBlock m b size) := by
  induction fuel generalizing a l with
  | zero => omega
  | succ fuel ih =>
    unfold kmallocLoop
    cases l with
    | nil => exact .inl ⟨rfl, by simp⟩
    | cons b l =>
      obtain ⟨rfl, hmagic, -, hnext, hrest⟩ := h
      rw [if_neg (List.cons_ne_nil a l), if_neg (by omega), if_neg (by simpa using hmagic)]
      by_cases hfit : (m a).free = true ∧ (m a).size ≥ size
      · rw [if_pos hfit]
        exact .inr ⟨a, List.mem_cons_self, hfit.1, hfit.2, rfl⟩
      · rw [if_neg hfit, hnext]
        have hpos' : 0 < blockEnd m a := by unfold blockEnd; omega
        rcases ih hrest hpos' (by simpa using hfuel) with ⟨hr, hnone⟩ | ⟨b, hb, hfree, hle, hr⟩
        · refine .inl ⟨hr, fun c hc hfree => ?_⟩
          rcases List.mem_cons.mp hc with rfl | hc
          · exact Nat.lt_of_not_le fun hle => hfit ⟨hfree, hle⟩
          · exact hnone c hc hfree
        · exact .inr ⟨b, List.mem_cons_of_mem a hb, hfree, hle, hr⟩

/-- What taking a block leaves: the block in use, with at least `size` bytes, and perhaps a
free one behind it. -/
structure Taken (m m' : Headers) (b size : Nat) (rest : List Nat) : Prop where
  used : (m' b).free = false
  enough : size ≤ (m' b).size
  other : ∀ c, c ≠ b → c ∉ rest → m' c = m c
  free : ∀ c ∈ rest, (m' c).free = true ∧ b < c ∧ c < blockEnd m b

theorem takeBlock_whole (h : (m b).size < u32 (size + heapMinSplit)) :
    takeBlock m b size = update m b { m b with free := false } := by
  unfold takeBlock
  simp only [if_neg (show ¬ (m b).size ≥ u32 (size + heapMinSplit) by omega)]

theorem takeBlock_split (h : u32 (size + heapMinSplit) ≤ (m b).size) : takeBlock m b size =
      update
        (update m (b + headerSize + size)
          { magic := heapMagic, size := (m b).size - size - headerSize, free := true
            next := (m b).next })
        b { magic := (m b).magic, size := size, free := false, next := b + headerSize + size } := by
  have hne : b ≠ b + headerSize + size := by unfold headerSize; omega
  unfold takeBlock
  simp only [ge_iff_le, if_pos h, update_self, update_idem, update_of_ne hne]

/-- Between the blocks before `b` and those behind it. -/
theorem Tiled.around (h : Tiled m stop a (pre ++ b :: post)) :
    (∀ c ∈ pre, c < b) ∧ (∀ c ∈ post, blockEnd m b ≤ c) ∧ a ≤ b ∧ blockEnd m b ≤ stop := by
  have hpair := List.pairwise_append.mp h.disjoint
  have hb := h.bounds.2 b (by simp)
  refine ⟨fun c hc => ?_, (List.pairwise_cons.mp hpair.2.1).1, hb⟩
  have := hpair.2.2 c hc b List.mem_cons_self
  unfold blockEnd headerSize at this
  omega

/-- A block in use may stand anywhere. -/
theorem Coalesced.use (hpre : Coalesced m pre) (hm : ∀ c ∈ pre, (m' c).free = (m c).free)
    (hb : (m' b).free = false) (hpost : Coalesced m' post) : Coalesced m' (pre ++ b :: post) := by
  refine List.isChain_append.mpr ⟨hpre.congr hm, ?_, ?_⟩
  · refine List.isChain_cons.mpr ⟨fun c _ hfree => ?_, hpost⟩
    rw [hb] at hfree
    exact absurd hfree.1 (by simp)
  · intro x _ y hy hfree
    rw [List.head?_cons, Option.mem_some] at hy
    rw [← hy, hb] at hfree
    exact absurd hfree.2 (by simp)

section

variable (h : Tiled m stop a (pre ++ b :: post)) (hc : Coalesced m (pre ++ b :: post))

include h hc

theorem takeBlock_whole_spec (hle : size ≤ (m b).size) :
    let m' := update m b { m b with free := false }
    Taken m m' b size [] ∧ Tiled m' stop a (pre ++ b :: ([] ++ post)) ∧
      Coalesced m' (pre ++ b :: ([] ++ post)) := by
  intro m'
  obtain ⟨hpre, hpost, -⟩ := h.around
  have hself : m' b = { m b with free := false } := update_self ..
  have hother : ∀ c, c ≠ b → m' c = m c := fun c hcb => update_of_ne hcb _ _
  have hb : b < blockEnd m b := by unfold blockEnd headerSize; omega
  have hbehind : ∀ c ∈ post, m' c = m c := fun c hcp =>
    hother c (Nat.ne_of_gt (Nat.lt_of_lt_of_le hb (hpost c hcp)))
  have hbefore : ∀ c ∈ pre, m' c = m c := fun c hcp => hother c (Nat.ne_of_lt (hpre c hcp))
  refine ⟨⟨by rw [hself], by rw [hself]; exact hle, fun c hcb _ => hother c hcb, by simp⟩, ?_, ?_⟩
  · refine h.replace hbefore (by simp) (by simp) fun c ht => ?_
    obtain ⟨hcb, hmagic, hdvd, hnext, hrest⟩ := ht
    rw [List.nil_append]
    refine ⟨hcb, ?_⟩
    rw [blockEnd, hself]
    exact ⟨hmagic, hdvd, hnext, hrest.congr hbehind⟩
  · obtain ⟨hcpre, hcpost, -⟩ := List.isChain_append.mp hc
    refine Coalesced.use hcpre (fun c hcp => by rw [hbefore c hcp]) (by rw [hself]) ?_
    exact Coalesced.congr hcpost.tail fun c hcp => by rw [hbehind c hcp]

theorem takeBlock_split_spec
    (hsize : 4 ∣ size) (hfree : (m b).free = true) (hroom : size + heapMinSplit ≤ (m b).size) :
    let n := b + headerSize + size
    let m' := update
      (update m n
        { magic := heapMagic, size := (m b).size - size - headerSize, free := true
          next := (m b).next })
      b { magic := (m b).magic, size := size, free := false, next := n }
    Taken m m' b size [n] ∧ Tiled m' stop a (pre ++ b :: ([n] ++ post)) ∧
      Coalesced m' (pre ++ b :: ([n] ++ post)) := by
  intro n m'
  obtain ⟨hpre, hpost, -⟩ := h.around
  have hbn : b < n := by show b < b + headerSize + size; unfold headerSize; omega
  have hend : n < blockEnd m b := by
    show b + headerSize + size < blockEnd m b
    unfold blockEnd headerSize heapMinSplit at *
    omega
  have hself : m' b = { magic := (m b).magic, size := size, free := false, next := n } :=
    update_self ..
  have hnew : m' n = { magic := heapMagic, size := (m b).size - size - headerSize, free := true
                       next := (m b).next } := by
    show update _ b _ n = _
    rw [update_of_ne (Nat.ne_of_gt hbn), update_self]
  have hother : ∀ c, c ≠ b → c ≠ n → m' c = m c := fun c hcb hcn => by
    show update _ b _ c = _
    rw [update_of_ne hcb, update_of_ne hcn]
  have hbehind : ∀ c ∈ post, m' c = m c := fun c hcp => by
    have := hpost c hcp
    exact hother c (by omega) (by omega)
  have hbefore : ∀ c ∈ pre, m' c = m c := fun c hcp => by
    have := hpre c hcp
    exact hother c (by omega) (by omega)
  have hnewEnd : blockEnd m' n = blockEnd m b := by
    rw [blockEnd, hnew]
    show b + headerSize + size + headerSize + ((m b).size - size - headerSize) = _
    unfold blockEnd headerSize heapMinSplit at *
    omega
  refine ⟨⟨by rw [hself], by rw [hself],
    fun c hcb hcn => hother c hcb (by simpa using hcn), fun c hcn => ?_⟩, ?_, ?_⟩
  · rw [List.mem_singleton] at hcn
    rw [hcn, hnew]
    exact ⟨rfl, hbn, hend⟩
  · refine h.replace hbefore (by simp) (by simp) fun c ht => ?_
    obtain ⟨hcb, hmagic, hdvd, hnext, hrest⟩ := ht
    refine ⟨hcb, by rw [hself]; exact hmagic, by rw [hself]; exact hsize, ?_, ?_⟩
    · rw [blockEnd, hself]
      rfl
    · rw [show blockEnd m' b = n by rw [blockEnd, hself]]
      refine ⟨rfl, by rw [hnew], ?_, ?_, ?_⟩
      · rw [hnew]
        show 4 ∣ (m b).size - size - 16
        omega
      · rw [hnewEnd, hnew]
        exact hnext
      · rw [hnewEnd]
        exact hrest.congr hbehind
  · obtain ⟨hcpre, hcpost, -⟩ := List.isChain_append.mp hc
    refine Coalesced.use hcpre (fun c hcp => by rw [hbefore c hcp]) (by rw [hself]) ?_
    refine List.isChain_cons.mpr ⟨fun c hcp hboth => ?_, ?_⟩
    · -- what is left was part of the free block before `c`
      rw [hbehind c (List.mem_of_mem_head? hcp)] at hboth
      exact (List.isChain_cons.mp hcpost).1 c hcp ⟨hfree, hboth.2⟩
    · exact Coalesced.congr hcpost.tail fun c hcp => by rw [hbehind c hcp]

theorem takeBlock_spec (hlow : headerSize < a) (hhigh : stop ≤ 4294967296) (hsize : 4 ∣ size)
    (hfree : (m b).free = true) (hle : size ≤ (m b).size) :
    ∃ rest, Taken m (takeBlock m b size) b size rest ∧
      Tiled (takeBlock m b size) stop a (pre ++ b :: (rest ++ post)) ∧
      Coalesced (takeBlock m b size) (pre ++ b :: (rest ++ post)) := by
  obtain ⟨-, -, hab, hend⟩ := h.around
  -- the sizes are far enough from the end of the address space for the sum
  have hsum : u32 (size + heapMinSplit) = size + heapMinSplit := by
    unfold u32 heapMinSplit
    unfold blockEnd headerSize at *
    omega
  by_cases hroom : u32 (size + heapMinSplit) ≤ (m b).size
  · rw [takeBlock_split hroom]
    exact ⟨_, takeBlock_split_spec h hc hsize hfree (by omega)⟩
  · rw [takeBlock_whole (by omega)]
    exact ⟨_, takeBlock_whole_spec h hc hle⟩

end

/-! ## kfree -/

/-- What coalescing leaves: fewer blocks, and those in use as they were. -/
structure Merged (m m' : Headers) (l l' : List Nat) : Prop where
  fewer : l'.Sublist l
  free : ∀ b, (m' b).free = (m b).free
  kept : ∀ b, b ∉ l ∨ (m b).free = false → m' b = m b
  used : ∀ b ∈ l, (m b).free = false → b ∈ l'

theorem Merged.refl (m : Headers) (l : List Nat) : Merged m m l l :=
  ⟨List.Sublist.refl l, fun _ => rfl, fun _ _ => rfl, fun _ hb _ => hb⟩

theorem absorb_free (m : Headers) (a b : Nat) : (absorb m a b).free = (m b).free := by
  unfold absorb
  by_cases hb : b = a
  · rw [hb, update_self]
  · rw [update_of_ne hb]

theorem absorb_of_ne (h : b ≠ a) : absorb m a b = m b :=
  update_of_ne h _ _

theorem absorb_tiled (h : Tiled m stop a (a :: c :: l)) (hhigh : stop ≤ 4294967296) (hpos : 0 < a) :
    Tiled (absorb m a) stop a (a :: l) := by
  obtain ⟨-, hmagic, hdvd, hnext, hac, -, hdvdc, hnextc, hrest⟩ := id h
  have hcend := (h.bounds.2 c (by simp)).2
  have hsum : u32 ((m a).size + (headerSize + (m c).size)) =
      (m a).size + (headerSize + (m c).size) := by
    unfold u32
    unfold blockEnd headerSize at *
    omega
  have hself : absorb m a a =
      { m a with size := (m a).size + (headerSize + (m c).size), next := (m c).next } := by
    rw [if_neg (List.cons_ne_nil c l), hac] at hnext
    rw [← hsum, ← hnext]
    exact update_self ..
  have hend : blockEnd (absorb m a) a = blockEnd m c := by
    rw [blockEnd, hself]
    show a + headerSize + ((m a).size + (headerSize + (m c).size)) = c + headerSize + (m c).size
    unfold blockEnd at hac
    omega
  have hother : ∀ b ∈ l, absorb m a b = m b := fun b hb =>
    absorb_of_ne fun hba : b = a => h.not_mem (hba ▸ List.mem_cons_of_mem c hb)
  refine ⟨rfl, by rw [hself]; exact hmagic, ?_, ?_, ?_⟩
  · rw [hself]
    show 4 ∣ (m a).size + (16 + (m c).size)
    omega
  · rw [hend, hself]
    exact hnextc
  · rw [hend]
    exact hrest.congr hother

/-- A pass that goes on after `a` took in the free block `c`. -/
theorem Merged.absorbed (ha : (m a).free = true)
    (hc : (m c).free = true) (h : Merged (absorb m a) m' (a :: l) (a :: l')) :
    Merged m m' (a :: c :: l) (a :: l') := by
  refine ⟨h.fewer.trans (List.Sublist.cons_cons a (List.sublist_cons_self c l)),
    fun b => (h.free b).trans (absorb_free m a b), fun b hb => ?_, fun b hb hused => ?_⟩
  · have hba : b ≠ a := by
      rintro rfl
      rcases hb with hb | hb
      · exact hb List.mem_cons_self
      · rw [ha] at hb
        cases hb
    refine (h.kept b ?_).trans (absorb_of_ne hba)
    rw [absorb_free]
    refine hb.imp_left fun hb => ?_
    simp only [List.mem_cons, not_or] at hb ⊢
    exact ⟨hb.1, hb.2.2⟩
  · refine h.used b ?_ ((absorb_free m a b).trans hused)
    rcases List.mem_cons.mp hb with rfl | hb
    · exact List.mem_cons_self
    · rcases List.mem_cons.mp hb with rfl | hb
      · rw [hc] at hused
        cases hused
      · exact List.mem_cons_of_mem a hb

/-- A pass that goes on behind `a`. -/
theorem Merged.skipped (a : Nat) (h : Merged m m' l l') : Merged m m' (a :: l) (a :: l') := by
  refine ⟨List.Sublist.cons_cons a h.fewer, h.free, fun b hb => ?_, fun b hb hused => ?_⟩
  · exact h.kept b (hb.imp_left fun hb hmem => hb (List.mem_cons_of_mem a hmem))
  · rcases List.mem_cons.mp hb with rfl | hb
    · exact List.mem_cons_self
    · exact List.mem_cons_of_mem a (h.used b hb hused)

theorem coalesce_spec {fuel : Nat}
    (h : Tiled m stop a (a :: l)) (hhigh : stop ≤ 4294967296) (hpos : 0 < a)
    (hfuel : l.length < fuel) :
    ∃ l', Tiled (coalesce fuel m a) stop a (a :: l') ∧ Coalesced (coalesce fuel m a) (a :: l') ∧
      Merged m (coalesce fuel m a) (a :: l) (a :: l') := by
  induction fuel generalizing m a l with
  | zero => omega
  | succ fuel ih =>
    unfold coalesce
    obtain ⟨-, hmagic, hdvd, hnext, hrest⟩ := id h
    cases l with
    | nil =>
      rw [if_pos rfl] at hnext
      rw [if_pos (.inr hnext)]
      exact ⟨[], h, List.IsChain.singleton a, Merged.refl m _⟩
    | cons c l =>
      have hc : blockEnd m a = c := hrest.1
      rw [if_neg (List.cons_ne_nil c l), hc] at hnext
      have hac : a < c := by rw [← hc]; unfold blockEnd headerSize; omega
      have hshort : l.length < fuel := by simpa using hfuel
      rw [hnext, if_neg (by omega)]
      by_cases hboth : (m a).free = true ∧ (m c).free = true
      · rw [if_pos hboth]
        obtain ⟨l', ht, hcoal, hmerged⟩ := ih (absorb_tiled h hhigh hpos) hpos hshort
        exact ⟨l', ht, hcoal, hmerged.absorbed hboth.1 hboth.2⟩
      · rw [if_neg hboth]
        rw [hc] at hrest
        obtain ⟨l', ht, hcoal, hmerged⟩ := ih hrest (by omega) hshort
        have ha : coalesce fuel m c a = m a := hmerged.kept a (.inl h.not_mem)
        have hend : blockEnd (coalesce fuel m c) a = c := by
          rw [blockEnd, ha]
          exact hc
        refine ⟨c :: l', ⟨rfl, by rw [ha]; exact hmagic, by rw [ha]; exact hdvd, ?_, ?_⟩, ?_,
          hmerged.skipped a⟩
        · rw [if_neg (List.cons_ne_nil c l'), hend, ha]
          exact hnext
        · rw [hend]
          exact ht
        · refine List.isChain_cons_cons.mpr ⟨?_, hcoal⟩
          rw [ha, hmerged.free c]
          exact hboth

/-! ## Runs -/

/-- The heap, and what was asked for at each pointer in use. -/
structure HeapState where
  headers : Headers
  live : List (Nat × Nat)

inductive HeapOp where
  | kmalloc (size : Nat)
  | kfree (ptr : Nat)

def heapStep (area : HeapArea) (s : HeapState) : HeapOp → HeapState
  | .kmalloc size =>
    let r := kmalloc area s.headers size
    { headers := r.2, live := if r.1 = 0 then s.live else (r.1, size) :: s.live }
  | .kfree ptr =>
    { headers := kfree area s.headers ptr, live := s.live.filter fun x => x.1 ≠ ptr }

/-- Sizes are 32-bit words, and only pointers in use are freed. -/
def HeapOp.Allowed (s : HeapState) : HeapOp → Prop
  | .kmalloc size => size < 4294967296
  | .kfree ptr => ptr ∈ s.live.map Prod.fst

/-- The heap just after `kheap_init`. -/
def kheapStart (area : HeapArea) (m : Headers) : HeapState := ⟨kheapInit area m, []⟩

/-- The number of bytes at a pointer. -/
def payload (m : Headers) (ptr : Nat) : Nat := (m (ptr - headerSize)).size

/-- The blocks of the heap, and what they are to the pointers in use. -/
structure HeapInv (area : HeapArea) (s : HeapState) (l : List Nat) : Prop where
  tiled : Tiled s.headers (area.base + area.size) area.base l
  coalesced : Coalesced s.headers l
  once : (s.live.map Prod.fst).Nodup
  used : ∀ ptr, ptr ∈ s.live.map Prod.fst ↔
    ∃ b ∈ l, (s.headers b).free = false ∧ ptr = b + headerSize
  enough : ∀ ptr size, (ptr, size) ∈ s.live → heapAlignSize size ≤ payload s.headers ptr

variable {s : HeapState}

theorem HeapInv.start (area : HeapArea) (m : Headers) :
    HeapInv area (kheapStart area m) [area.base] := by
  have hself : (kheapStart area m).headers area.base =
      { magic := heapMagic, size := area.size - headerSize, free := true, next := 0 } :=
    update_self ..
  have hroom := area.room
  have haligned := area.aligned
  refine ⟨⟨rfl, by rw [hself], ?_, by rw [hself]; rfl, ?_⟩, List.IsChain.singleton _,
    List.nodup_nil, fun ptr => ?_, by simp [kheapStart]⟩
  · rw [hself]
    show 4 ∣ area.size - 16
    omega
  · show blockEnd _ _ = _
    rw [blockEnd, hself]
    show area.base + headerSize + (area.size - headerSize) = _
    omega
  · simp only [kheapStart, List.map_nil, List.not_mem_nil, List.mem_singleton, exists_eq_left,
      false_iff, not_and]
    intro hused
    have hfree : ((kheapStart area m).headers area.base).free = true := by rw [hself]
    exact absurd (hfree.symm.trans hused) (by simp)

/-- The blocks of a heap that is in order have room for the headers only. -/
theorem HeapInv.length_lt (h : HeapInv area s l) : l.length < area.fuel := by
  have := h.tiled.length_le
  unfold HeapArea.fuel headerSize at *
  omega

theorem HeapInv.cons (h : HeapInv area s l) : ∃ l', l = area.base :: l' := by
  have hroom := area.room
  have ht := h.tiled
  unfold headerSize at hroom
  cases l with
  | nil =>
    have : area.base = area.base + area.size := ht
    omega
  | cons b l => exact ⟨l, by rw [← ht.1]⟩

theorem heapAlignSize_dvd (size : Nat) : 4 ∣ heapAlignSize size := by
  unfold heapAlignSize
  omega

/-- What `kmalloc` does: nothing if no block is large enough, and else it takes one. -/
theorem kmalloc_spec (h : HeapInv area s l) (size : Nat) :
    (kmalloc area s.headers size = (0, s.headers) ∧
      ∀ b ∈ l, (s.headers b).free = true → (s.headers b).size < heapAlignSize size) ∨
    ∃ b ∈ l, (s.headers b).free = true ∧ heapAlignSize size ≤ (s.headers b).size ∧
      kmalloc area s.headers size =
        (b + headerSize, takeBlock s.headers b (heapAlignSize size)) := by
  have habove := area.above
  have hspec := kmallocLoop_spec (heapAlignSize size) h.tiled (by omega) h.length_lt
  obtain ⟨l', rfl⟩ := h.cons
  rw [if_neg (List.cons_ne_nil _ _)] at hspec
  exact hspec

/-- The headers of the blocks before and behind `b` stay. -/
theorem Taken.kept {rest : List Nat}
    (h : Taken m m' b size rest) (ht : Tiled m stop a (pre ++ b :: post))
    (hc : c ∈ pre ∨ c ∈ post) : m' c = m c := by
  obtain ⟨hpre, hpost, -, -⟩ := ht.around
  have hout : c < b ∨ blockEnd m b ≤ c := hc.imp (hpre c) (hpost c)
  refine h.other c ?_ fun hrest => ?_
  · rintro rfl
    unfold blockEnd headerSize at hout
    omega
  · obtain ⟨-, hbc, hcend⟩ := h.free c hrest
    omega

/-- Only `b` comes into use. -/
theorem Taken.mem_used {rest : List Nat}
    (h : Taken m m' b size rest) (ht : Tiled m stop a (pre ++ b :: post))
    (hfree : (m b).free = true) (c : Nat) :
    c ∈ pre ++ b :: (rest ++ post) ∧ (m' c).free = false ↔
      c = b ∨ (c ∈ pre ++ b :: post ∧ (m c).free = false) := by
  simp only [List.mem_append, List.mem_cons]
  constructor
  · rintro ⟨hc | hc | hc | hc, hused⟩
    · exact .inr ⟨.inl hc, h.kept ht (.inl hc) ▸ hused⟩
    · exact .inl hc
    · rw [(h.free c hc).1] at hused
      cases hused
    · exact .inr ⟨.inr (.inr hc), h.kept ht (.inr hc) ▸ hused⟩
  · rintro (rfl | ⟨hc | rfl | hc, hused⟩)
    · exact ⟨.inr (.inl rfl), h.used⟩
    · rw [h.kept ht (.inl hc)]
      exact ⟨.inl hc, hused⟩
    · rw [hfree] at hused
      cases hused
    · rw [h.kept ht (.inr hc)]
      exact ⟨.inr (.inr (.inr hc)), hused⟩

theorem payload_add (m : Headers) (b : Nat) : payload m (b + headerSize) = (m b).size := by
  rw [payload, Nat.add_sub_cancel]

theorem HeapInv.kmalloc (h : HeapInv area s l)
    (size : Nat) : ∃ l', HeapInv area (heapStep area s (.kmalloc size)) l' := by
  unfold heapStep
  rcases kmalloc_spec h size with ⟨hr, -⟩ | ⟨b, hb, hfree, hle, hr⟩
  · simp only [hr, if_true]
    exact ⟨l, h⟩
  simp only [hr, if_neg (show ¬ b + headerSize = 0 by unfold headerSize; omega)]
  obtain ⟨pre, post, rfl⟩ := List.append_of_mem hb
  obtain ⟨rest, htaken, ht, hc⟩ := takeBlock_spec h.tiled h.coalesced area.above area.fits
    (heapAlignSize_dvd size) hfree hle
  have hused := htaken.mem_used h.tiled hfree
  have hfresh : b + headerSize ∉ s.live.map Prod.fst := fun hmem => by
    obtain ⟨c, -, hcused, hcb⟩ := (h.used _).mp hmem
    rw [← Nat.add_right_cancel hcb, hfree] at hcused
    cases hcused
  refine ⟨_, ht, hc, List.nodup_cons.mpr ⟨hfresh, h.once⟩, fun ptr => ?_, fun ptr n hmem => ?_⟩
  · rw [List.map_cons, List.mem_cons, h.used]
    constructor
    · rintro (rfl | ⟨c, hcl, hcused, rfl⟩)
      · obtain ⟨hin, hb⟩ := (hused b).mpr (.inl rfl)
        exact ⟨b, hin, hb, rfl⟩
      · obtain ⟨hin, hc⟩ := (hused c).mpr (.inr ⟨hcl, hcused⟩)
        exact ⟨c, hin, hc, rfl⟩
    · rintro ⟨c, hcl, hcused, rfl⟩
      rcases (hused c).mp ⟨hcl, hcused⟩ with rfl | hc
      · exact .inl rfl
      · exact .inr ⟨c, hc.1, hc.2, rfl⟩
  · rcases List.mem_cons.mp hmem with hnew | hold
    · obtain ⟨rfl, rfl⟩ := Prod.mk.injEq .. ▸ hnew
      rw [payload_add]
      exact htaken.enough
    · obtain ⟨c, hcl, hcused, rfl⟩ := (h.used ptr).mp (List.mem_map_of_mem hold)
      have hcb : c ≠ b := by
        rintro rfl
        exact hfresh (List.mem_map_of_mem hold)
      have hkept := htaken.kept h.tiled (show c ∈ pre ∨ c ∈ post by simpa [hcb] using hcl)
      have henough := h.enough _ _ hold
      rw [payload_add] at henough ⊢
      exact Nat.le_trans henough (Nat.le_of_eq (congrArg HeapBlock.size hkept.symm))

/-- What `kfree` does: the block is free, and free neighbours are merged. -/
theorem kfree_spec (h : HeapInv area s l) (hb : b ∈ l) :
    ∃ l', Tiled (kfree area s.headers (b + headerSize)) (area.base + area.size) area.base l' ∧
      Coalesced (kfree area s.headers (b + headerSize)) l' ∧
      Merged (release s.headers b) (kfree area s.headers (b + headerSize)) l l' := by
  have hmagic := (h.tiled.block hb).1
  have hfuel := h.length_lt
  have habove := area.above
  obtain ⟨l, rfl⟩ := h.cons
  unfold kfree
  rw [Nat.add_sub_cancel, if_neg (by unfold headerSize; omega), if_neg (by simpa using hmagic)]
  obtain ⟨l', hspec⟩ := coalesce_spec (h.tiled.release b) area.fits (by omega)
    (show l.length < area.fuel by rw [List.length_cons] at hfuel; omega)
  exact ⟨_, hspec⟩

theorem release_free (m : Headers) (b c : Nat) :
    (release m b c).free = false ↔ c ≠ b ∧ (m c).free = false := by
  unfold release
  by_cases hcb : c = b
  · rw [hcb, update_self]
    simp
  · rw [update_of_ne hcb]
    simp [hcb]

theorem HeapInv.kfree (h : HeapInv area s l) (hlive : ptr ∈ s.live.map Prod.fst) :
    ∃ l', HeapInv area (heapStep area s (.kfree ptr)) l' := by
  obtain ⟨b, hb, -, rfl⟩ := (h.used ptr).mp hlive
  obtain ⟨l', ht, hc, hmerged⟩ := kfree_spec h hb
  refine ⟨l', ht, hc, ?_, fun q => ?_, fun q n hmem => ?_⟩
  · exact h.once.sublist (List.filter_sublist.map Prod.fst)
  · have hleft : q ∈ (s.live.filter fun x => x.1 ≠ b + headerSize).map Prod.fst ↔
        q ∈ s.live.map Prod.fst ∧ q ≠ b + headerSize := by
      simp only [List.mem_map, List.mem_filter, decide_eq_true_eq]
      constructor
      · rintro ⟨x, ⟨hx, hne⟩, rfl⟩
        exact ⟨⟨x, hx, rfl⟩, hne⟩
      · rintro ⟨⟨x, hx, rfl⟩, hne⟩
        exact ⟨x, ⟨hx, hne⟩, rfl⟩
    refine hleft.trans ?_
    rw [h.used]
    constructor
    · rintro ⟨⟨c, hcl, hused, rfl⟩, hne⟩
      have hrel := (release_free s.headers b c).mpr ⟨fun hcb => hne (by rw [hcb]), hused⟩
      exact ⟨c, hmerged.used c hcl hrel, (hmerged.free c).trans hrel, rfl⟩
    · rintro ⟨c, hcl, hused, rfl⟩
      obtain ⟨hcb, hused⟩ := (release_free s.headers b c).mp ((hmerged.free c).symm.trans hused)
      exact ⟨⟨c, hmerged.fewer.subset hcl, hused, rfl⟩, fun hne => hcb (Nat.add_right_cancel hne)⟩
  · obtain ⟨hold, hne⟩ := List.mem_filter.mp hmem
    obtain ⟨c, -, hused, rfl⟩ := (h.used q).mp (List.mem_map_of_mem hold)
    have hcb : c ≠ b := fun hcb => by simp [hcb] at hne
    have hkept := hmerged.kept c (.inr ((release_free s.headers b c).mpr ⟨hcb, hused⟩))
    rw [show release s.headers b c = s.headers c from update_of_ne hcb _ _] at hkept
    have henough := h.enough _ _ hold
    rw [payload_add] at henough ⊢
    exact Nat.le_trans henough (Nat.le_of_eq (congrArg HeapBlock.size hkept.symm))

theorem HeapInv.step {op : HeapOp}
    (h : ∃ l, HeapInv area s l) (hop : op.Allowed s) : ∃ l, HeapInv area (heapStep area s op) l := by
  obtain ⟨l, h⟩ := h
  cases op with
  | kmalloc size => exact h.kmalloc size
  | kfree ptr => exact h.kfree hop

/-! ## What the blocks mean -/

/-- Rounding up to four keeps a size up to `0xFFFFFFFC`. -/
theorem le_heapAlignSize (h : size ≤ 0xFFFFFFFC) : size ≤ heapAlignSize size := by
  unfold heapAlignSize u32
  omega

/-- A payload is as large as asked for exactly if rounding did not wrap. -/
theorem HeapInv.payload_iff (h : HeapInv area s l) (hlive : (ptr, size) ∈ s.live) :
    size ≤ payload s.headers ptr ↔ size ≤ 0xFFFFFFFC := by
  refine ⟨fun hle => ?_, fun hle => Nat.le_trans (le_heapAlignSize hle) (h.enough ptr size hlive)⟩
  obtain ⟨b, hb, -, rfl⟩ := (h.used ptr).mp (List.mem_map_of_mem hlive)
  obtain ⟨hab, hend⟩ := h.tiled.bounds.2 b hb
  have hfits := area.fits
  rw [payload_add] at hle
  unfold blockEnd headerSize at *
  omega

/-- A call that fails found no free block as large as asked for. -/
theorem HeapInv.kmalloc_zero
    (h : HeapInv area s l) (hsize : size < 4294967296) (hr : (Mm.kmalloc area s.headers size).1 = 0) :
    ∀ b ∈ l, (s.headers b).free = true → (s.headers b).size < size := by
  intro b hb hfree
  have hdvd := (h.tiled.block hb).2
  rcases kmalloc_spec h size with ⟨-, hnone⟩ | ⟨b, -, -, -, hsome⟩
  · have := hnone b hb hfree
    unfold heapAlignSize u32 at this
    omega
  · rw [hsome] at hr
    exact absurd hr (by unfold headerSize; simp)

/-- With nothing in use there is one block. -/
theorem HeapInv.all_free (h : HeapInv area s l) (hlive : s.live = []) :
    l = [area.base] ∧ s.headers area.base =
      { magic := heapMagic, size := area.size - headerSize, free := true, next := 0 } := by
  have hfree : ∀ b ∈ l, (s.headers b).free = true := fun b hb => by
    by_contra hused
    have := (h.used (b + headerSize)).mpr ⟨b, hb, by simpa using hused, rfl⟩
    rw [hlive] at this
    exact absurd this List.not_mem_nil
  obtain ⟨l, rfl⟩ := h.cons
  cases l with
  | cons c l =>
    exact absurd ⟨hfree _ (by simp), hfree c (by simp)⟩ (List.isChain_cons_cons.mp h.coalesced).1
  | nil =>
    obtain ⟨-, hmagic, -, hnext, hend⟩ := h.tiled
    have hsize : (s.headers area.base).size = area.size - headerSize := by
      have : area.base + headerSize + (s.headers area.base).size = area.base + area.size := hend
      omega
    exact ⟨rfl, HeapBlock.ext hmagic hsize (hfree _ List.mem_cons_self) hnext⟩

theorem Tiled.apart (h : Tiled m stop a l)
    (hb : b ∈ l) (hc : c ∈ l) (hbc : b ≠ c) : blockEnd m b ≤ c ∨ blockEnd m c ≤ b := by
  have : Std.Symm fun b c => blockEnd m b ≤ c ∨ blockEnd m c ≤ b := ⟨fun _ _ => Or.symm⟩
  have hpair : l.Pairwise fun b c => blockEnd m b ≤ c ∨ blockEnd m c ≤ b :=
    h.disjoint.imp fun hle => .inl hle
  exact hpair.forall hb hc hbc

/-- The bytes at a pointer in use are in no other block and in no header. -/
theorem HeapInv.payload_apart (h : HeapInv area s l) (hlive : ptr ∈ s.live.map Prod.fst) :
    (∀ b ∈ l, ptr + payload s.headers ptr ≤ b ∨ b + headerSize ≤ ptr) ∧
      ∀ q ∈ s.live.map Prod.fst, ptr ≠ q →
        ptr + payload s.headers ptr ≤ q ∨ q + payload s.headers q ≤ ptr := by
  obtain ⟨b, hb, -, rfl⟩ := (h.used ptr).mp hlive
  rw [payload_add]
  refine ⟨fun c hc => ?_, fun q hq hne => ?_⟩
  · by_cases hbc : b = c
    · exact .inr (by rw [hbc])
    · refine (h.tiled.apart hb hc hbc).imp_right fun hle => ?_
      unfold blockEnd at hle
      omega
  · obtain ⟨c, hc, -, rfl⟩ := (h.used q).mp hq
    rw [payload_add]
    refine (h.tiled.apart hb hc fun hbc => hne (by rw [hbc])).imp (fun hle => ?_) fun hle => ?_
    · exact Nat.le_trans hle (Nat.le_add_right c headerSize)
    · exact Nat.le_trans hle (Nat.le_add_right b headerSize)

/-- A heap in order. -/
structure HeapOrder (area : HeapArea) (s : HeapState) (l : List Nat) : Prop where
  /-- the blocks tile the heap in the order of their addresses -/
  tiled : Tiled s.headers (area.base + area.size) area.base l
  /-- the blocks in use are those of the pointers in use, each given out once -/
  used : ∀ ptr, ptr ∈ s.live.map Prod.fst ↔
    ∃ b ∈ l, (s.headers b).free = false ∧ ptr = b + headerSize
  once : (s.live.map Prod.fst).Nodup
  headers : ∀ ptr ∈ s.live.map Prod.fst, ∀ b ∈ l,
    ptr + payload s.headers ptr ≤ b ∨ b + headerSize ≤ ptr
  payloads : ∀ ptr ∈ s.live.map Prod.fst, ∀ q ∈ s.live.map Prod.fst, ptr ≠ q →
    ptr + payload s.headers ptr ≤ q ∨ q + payload s.headers q ≤ ptr
  /-- `kmalloc` fails only for want of a block -/
  fails : ∀ size < 4294967296, (kmalloc area s.headers size).1 = 0 →
    ∀ b ∈ l, (s.headers b).free = true → (s.headers b).size < size
  /-- no two neighbours are free -/
  coalesced : Coalesced s.headers l
  /-- with everything freed the heap is as `kheap_init` left it -/
  whole : s.live = [] → l = [area.base] ∧ s.headers area.base =
    { magic := heapMagic, size := area.size - headerSize, free := true, next := 0 }

theorem HeapInv.order (h : HeapInv area s l) : HeapOrder area s l where
  tiled := h.tiled
  used := h.used
  once := h.once
  headers := fun _ hptr => (h.payload_apart hptr).1
  payloads := fun _ hptr => (h.payload_apart hptr).2
  fails := fun _ hsize hr => h.kmalloc_zero hsize hr
  coalesced := h.coalesced
  whole := h.all_free

/-- After any calls the heap is in order, and a pointer in use has as many bytes as were
asked for exactly if that was at most `0xFFFFFFFC`. -/
theorem kheap_run (area : HeapArea) (m : Headers) {s : HeapState}
    (h : Reach (heapStep area) HeapOp.Allowed (kheapStart area m) s) :
    (∃ l, HeapOrder area s l) ∧
      ∀ ptr size, (ptr, size) ∈ s.live → (size ≤ payload s.headers ptr ↔ size ≤ 0xFFFFFFFC) := by
  obtain ⟨l, hinv⟩ := h.inv (fun s => ∃ l, HeapInv area s l) ⟨_, HeapInv.start area m⟩
    fun _ _ hs hop => HeapInv.step hs hop
  exact ⟨⟨l, hinv.order⟩, fun ptr size hlive => hinv.payload_iff hlive⟩

/-- `ARCH_HEAP_START` and `ARCH_HEAP_END` of x86. -/
def x86Heap : HeapArea where
  base := 0x52000
  size := 0x9F000 - 0x52000
  above := by decide
  room := by decide
  aligned := by decide
  fits := by decide

theorem kheap_run_hundred :
    let s := heapStep x86Heap (kheapStart x86Heap fun _ => ⟨0, 0, false, 0⟩) (.kmalloc 100)
    (∃ l, HeapOrder x86Heap s l) ∧
      ∀ ptr size, (ptr, size) ∈ s.live → (size ≤ payload s.headers ptr ↔ size ≤ 0xFFFFFFFC) :=
  kheap_run x86Heap _ (Reach.step (HeapOp.kmalloc 100) Reach.start (show 100 < 4294967296 by decide))

/-- `kmalloc(0xFFFFFFFF)` succeeds with no bytes. -/
theorem kmalloc_wraps :
    let s := heapStep x86Heap (kheapStart x86Heap fun _ => ⟨0, 0, false, 0⟩) (.kmalloc 0xFFFFFFFF)
    s.live = [(0x52010, 0xFFFFFFFF)] ∧ payload s.headers 0x52010 = 0 := by
  decide

end Drunix.Mm
