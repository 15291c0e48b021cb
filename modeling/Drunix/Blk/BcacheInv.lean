import Drunix.Blk.DiskInv
import Drunix.Lib.Loop

/-!
# The cache as a view of the device

Behind the slots there is one value per key: the cached copy, or the block on the
device where there is none (`Cache.view`). The invariant `CacheInv` keeps one slot
per key and clean copies equal to the device, except at the keys of a set `T`,
where a write-through has failed and left the device in an unknown state.

Each call is specified by what it does to the view, to the dirty blocks and to the
sequence of sector writes. `Hidden` is what evictions and write-backs do: nothing
that shows. A dirty block stays dirty or ends up on the device in full.
-/

namespace Drunix.Blk

open Lib Function

def Slot.key (s : Slot) : Key := (s.dev, s.lba)

/-- The value at a key. -/
def Cache.view (b : Cache) (k : Key) : Buf :=
  match findSlot b k.1 k.2 with
  | some i => (b.slots i).data
  | none => b.disk.block k

/-- A slot with data that is not on the device yet. -/
def Cache.DirtyAt (b : Cache) (k : Key) (data : Buf) : Prop :=
  ∃ i < slotCount, (b.slots i).valid = true ∧ (b.slots i).dirty = true ∧ (b.slots i).key = k ∧
    (b.slots i).data = data

def Cache.Clean (b : Cache) (k : Key) : Prop := ∀ data, ¬ b.DirtyAt k data

structure CacheInv (K T : Set Key) (b : Cache) : Prop where
  clip : ∀ i, Clipped 4096 (b.slots i).data
  key : ∀ i < slotCount, (b.slots i).valid = true → (b.slots i).key ∈ K
  uniq : ∀ i < slotCount, ∀ j < slotCount, (b.slots i).valid = true → (b.slots j).valid = true →
    (b.slots i).key = (b.slots j).key → i = j
  coh : ∀ i < slotCount, (b.slots i).valid = true → (b.slots i).dirty = false →
    (b.slots i).key ∉ T → (b.slots i).data = b.disk.block (b.slots i).key
  lru : b.lru.In (· < slotCount)
  tail : b.lru.tail.isSome = true

/-- A change that does not show at the keys of `K`. -/
structure Quiet (K T : Set Key) (b b' : Cache) : Prop where
  view : ∀ k ∈ K, k ∉ T → b'.view k = b.view k
  dirty : ∀ k ∈ K, ∀ data, b'.DirtyAt k data → b.DirtyAt k data
  saved : ∀ k ∈ K, ∀ data, b.DirtyAt k data →
    b'.DirtyAt k data ∨ b'.Clean k ∧ b'.disk.block k = data
  block : ∀ k ∈ K, b.Clean k → b'.disk.block k = b.disk.block k

/-- What does not change: the devices' nature and how far walks are followed. -/
structure Env (b b' : Cache) : Prop where
  base : b'.disk.base = b.disk.base
  canWrite : b'.disk.canWrite = b.disk.canWrite
  fails : b'.disk.fails = b.disk.fails
  walk : b'.walk = b.walk

/-- The sectors written belong to blocks that were dirty. -/
def Logged (K : Set Key) (b b' : Cache) : Prop :=
  ∃ ws, b'.disk.log = b.disk.log ++ ws ∧
    ∀ w ∈ ws, ∃ k ∈ K, ∃ data, ∃ i < 8, b.DirtyAt k data ∧ w = sectorOf k.1 k.2 data i

/-- An eviction or a write-back. -/
structure Hidden (K T : Set Key) (b b' : Cache) : Prop extends Quiet K T b b', Env b b' where
  log : Logged K b b'

section Relations

variable {K K' T T' : Set Key} {b b' b'' : Cache}

theorem Quiet.refl (K T : Set Key) (b : Cache) : Quiet K T b b :=
  ⟨fun _ _ _ => rfl, fun _ _ _ h => h, fun _ _ _ h => .inl h, fun _ _ _ => rfl⟩

theorem Quiet.trans (h : Quiet K T b b') (h' : Quiet K T b' b'') : Quiet K T b b'' where
  view k hk hT := (h'.view k hk hT).trans (h.view k hk hT)
  dirty k hk data hd := h.dirty k hk data (h'.dirty k hk data hd)
  saved k hk data hd := by
    rcases h.saved k hk data hd with hs | ⟨hc, hb⟩
    · exact h'.saved k hk data hs
    · -- clean on the way: what is on the device stays there
      refine .inr ⟨fun data' hd' => hc data' (h'.dirty k hk data' hd'), ?_⟩
      rw [h'.block k hk hc, hb]
  block k hk hc := by
    rw [h'.block k hk fun data hd => hc data (h.dirty k hk data hd), h.block k hk hc]

theorem Quiet.mono (h : Quiet K T b b') (hK : K' ⊆ K) (hT : T ⊆ T') : Quiet K' T' b b' where
  view k hk hkT := h.view k (hK hk) fun hc => hkT (hT hc)
  dirty k hk := h.dirty k (hK hk)
  saved k hk := h.saved k (hK hk)
  block k hk := h.block k (hK hk)

theorem Env.refl (b : Cache) : Env b b := ⟨rfl, rfl, rfl, rfl⟩

theorem Env.trans (h : Env b b') (h' : Env b' b'') : Env b b'' :=
  ⟨h'.base.trans h.base, h'.canWrite.trans h.canWrite, h'.fails.trans h.fails,
    h'.walk.trans h.walk⟩

theorem Logged.of_eq (h : b'.disk.log = b.disk.log) : Logged K b b' :=
  ⟨[], by rw [h, List.append_nil], nofun⟩

theorem Logged.trans (h : Logged K b b') (h' : Logged K b' b'')
    (hd : ∀ k ∈ K, ∀ data, b'.DirtyAt k data → b.DirtyAt k data) : Logged K b b'' := by
  obtain ⟨ws, hlog, hws⟩ := h
  obtain ⟨ws', hlog', hws'⟩ := h'
  refine ⟨ws ++ ws', by rw [hlog', hlog, List.append_assoc], fun w hw => ?_⟩
  rcases List.mem_append.mp hw with hw | hw
  · exact hws w hw
  · obtain ⟨k, hk, data, i, hi, hdirty, he⟩ := hws' w hw
    exact ⟨k, hk, data, i, hi, hd k hk data hdirty, he⟩

theorem Hidden.refl (K T : Set Key) (b : Cache) : Hidden K T b b :=
  { Quiet.refl K T b, Env.refl b with log := Logged.of_eq rfl }

theorem Hidden.trans (h : Hidden K T b b') (h' : Hidden K T b' b'') : Hidden K T b b'' :=
  { h.toQuiet.trans h'.toQuiet, h.toEnv.trans h'.toEnv with log := h.log.trans h'.log h.dirty }

end Relations

variable {k : Key} {i : Nat}

section Slots

variable {K T : Set Key} {b : Cache}

theorem Slot.holds_iff {s : Slot} : s.holds k.1 k.2 = true ↔ s.valid = true ∧ s.key = k := by
  simp [Slot.holds, Slot.key, Prod.ext_iff]

theorem findSlot_some (h : findSlot b k.1 k.2 = some i) :
    i < slotCount ∧ (b.slots i).valid = true ∧ (b.slots i).key = k := by
  have hmem := List.mem_of_find?_eq_some h
  have hp := List.find?_some h
  exact ⟨List.mem_range.mp hmem, Slot.holds_iff.mp hp⟩

theorem findSlot_none (h : findSlot b k.1 k.2 = none) :
    ∀ i < slotCount, (b.slots i).valid = true → (b.slots i).key ≠ k := by
  intro i hi hv hk
  have := List.find?_eq_none.mp h i (List.mem_range.mpr hi)
  exact this (Slot.holds_iff.mpr ⟨hv, hk⟩)

theorem CacheInv.view_cached (h : CacheInv K T b) (hi : i < slotCount)
    (hv : (b.slots i).valid = true) (hk : (b.slots i).key = k) : b.view k = (b.slots i).data := by
  unfold Cache.view
  cases hf : findSlot b k.1 k.2 with
  | some j =>
    obtain ⟨hj, hjv, hjk⟩ := findSlot_some hf
    rw [h.uniq j hj i hi hjv hv (hjk.trans hk.symm)]
  | none => exact absurd hk (findSlot_none hf i hi hv)

theorem view_uncached (h : ∀ i < slotCount, (b.slots i).valid = true → (b.slots i).key ≠ k) :
    b.view k = b.disk.block k := by
  unfold Cache.view
  cases hf : findSlot b k.1 k.2 with
  | some j =>
    obtain ⟨hj, hjv, hjk⟩ := findSlot_some hf
    exact absurd hjk (h j hj hjv)
  | none => rfl

theorem clean_uncached
    (h : ∀ i < slotCount, (b.slots i).valid = true → (b.slots i).key ≠ k) : b.Clean k := by
  intro data hd
  obtain ⟨i, hi, hv, -, hk, -⟩ := hd
  exact h i hi hv hk

/-- A key without dirty copy shows the device. -/
theorem CacheInv.view_clean (h : CacheInv K T b) (hT : k ∉ T) (hc : b.Clean k) :
    b.view k = b.disk.block k := by
  by_cases hex : ∃ i < slotCount, (b.slots i).valid = true ∧ (b.slots i).key = k
  · obtain ⟨i, hi, hv, hk⟩ := hex
    have hd : (b.slots i).dirty = false := by
      by_contra hd
      exact hc _ ⟨i, hi, hv, by simpa using hd, hk, rfl⟩
    rw [h.view_cached hi hv hk, h.coh i hi hv hd (hk ▸ hT), hk]
  · exact view_uncached fun i hi hv hk => hex ⟨i, hi, hv, hk⟩

/-- The cache does not look at the time on the device. -/
theorem CacheInv.sameDisk (h : CacheInv K T b) {disk : Disk} (hd : SameDisk b.disk disk) :
    CacheInv K T { b with disk } :=
  { h with coh := fun i hi hv hdirty hT =>
      (h.coh i hi hv hdirty hT).trans (hd.block _).symm }

theorem CacheInv.view_clipped (h : CacheInv K T b) (k : Key) : Clipped 4096 (b.view k) := by
  unfold Cache.view
  split
  · exact h.clip _
  · exact b.disk.block_clipped k

theorem CacheInv.view_dirty (h : CacheInv K T b) {data : Buf} (hd : b.DirtyAt k data) :
    b.view k = data := by
  obtain ⟨i, hi, hv, -, hk, hdata⟩ := hd
  rw [h.view_cached hi hv hk, hdata]

theorem view_congr {b' : Cache} (hs : b'.slots = b.slots)
    (hb : b'.disk.block k = b.disk.block k) : b'.view k = b.view k := by
  unfold Cache.view findSlot
  rw [hs, hb]

theorem dirtyAt_congr {b' : Cache} {data : Buf} (hs : b'.slots = b.slots) :
    b'.DirtyAt k data ↔ b.DirtyAt k data := by
  unfold Cache.DirtyAt
  rw [hs]

/-- A change of disk and list only. -/
theorem Quiet.of_slots {b' : Cache} (hs : b'.slots = b.slots)
    (hv : ∀ k ∈ K, k ∉ T → b'.view k = b.view k)
    (hb : ∀ k ∈ K, b.Clean k → b'.disk.block k = b.disk.block k) : Quiet K T b b' where
  view := hv
  dirty _ _ _ hd := (dirtyAt_congr hs).mp hd
  saved _ _ _ hd := .inl ((dirtyAt_congr hs).mpr hd)
  block := hb

@[simp] theorem setSlot_self (i : Nat) (s : Slot) : (b.setSlot i s).slots i = s :=
  update_self ..

theorem setSlot_ne {j : Nat} (h : j ≠ i) (s : Slot) : (b.setSlot i s).slots j = b.slots j :=
  update_of_ne h ..

/-! ## The list -/

theorem lruTouch_eq (b : Cache) (i : Nat) :
    lruTouch b i = b ∨ lruTouch b i = { b with lru := (b.lru.detach i).pushFront i } := by
  unfold lruTouch
  split
  · exact .inl rfl
  · exact .inr rfl

theorem lruDemote_eq (b : Cache) (i : Nat) :
    lruDemote b i = b ∨ lruDemote b i = { b with lru := (b.lru.detach i).pushBack i } := by
  unfold lruDemote
  split
  · exact .inl rfl
  · exact .inr rfl

theorem CacheInv.setLru (h : CacheInv K T b) {lru : DList Nat} (hin : lru.In (· < slotCount))
    (ht : lru.tail.isSome = true) :
    CacheInv K T { b with lru } ∧ Hidden K T b { b with lru } := by
  refine ⟨{ h with lru := hin, tail := ht }, ?_⟩
  have hq : Quiet K T b { b with lru } :=
    Quiet.of_slots rfl (fun k _ _ => view_congr rfl rfl) fun _ _ _ => rfl
  exact { hq, Env.mk rfl rfl rfl rfl with log := Logged.of_eq rfl }

@[simp] theorem lruTouch_slots (b : Cache) (i : Nat) : (lruTouch b i).slots = b.slots := by
  rcases lruTouch_eq b i with h | h <;> rw [h]

@[simp] theorem lruTouch_disk (b : Cache) (i : Nat) : (lruTouch b i).disk = b.disk := by
  rcases lruTouch_eq b i with h | h <;> rw [h]

@[simp] theorem lruDemote_slots (b : Cache) (i : Nat) : (lruDemote b i).slots = b.slots := by
  rcases lruDemote_eq b i with h | h <;> rw [h]

@[simp] theorem lruDemote_disk (b : Cache) (i : Nat) : (lruDemote b i).disk = b.disk := by
  rcases lruDemote_eq b i with h | h <;> rw [h]

theorem CacheInv.touch (h : CacheInv K T b) (hi : i < slotCount) :
    CacheInv K T (lruTouch b i) ∧ Hidden K T b (lruTouch b i) := by
  rcases lruTouch_eq b i with he | he
  · rw [he]
    exact ⟨h, Hidden.refl K T b⟩
  · rw [he]
    exact h.setLru ((h.lru.detach hi).pushFront (fun _ hx => hx) hi fun _ hx _ => hx)
      (DList.pushFront_tail _ _)

theorem CacheInv.demote (h : CacheInv K T b) (hi : i < slotCount) :
    CacheInv K T (lruDemote b i) ∧ Hidden K T b (lruDemote b i) := by
  rcases lruDemote_eq b i with he | he
  · rw [he]
    exact ⟨h, Hidden.refl K T b⟩
  · rw [he]
    exact h.setLru ((h.lru.detach hi).pushBack hi) rfl

end Slots

end Drunix.Blk
