import Drunix.Blk.Transparent

/-!
# When a slot can be acquired

The walk of `acquire_slot` goes from the tail of the list toward the head, and moves every
slot whose write-back fails to the head. The slot before it is the new tail: the walk always
stands at the tail, and the pointer it reads there is never `NULL`. So it ends at the first
slot that is empty, clean or can be written back, and if there is none it starts over.

`acquire_slot_one_round_iff`: one round is enough exactly if the block is cached or some slot
can be had (`Refusing`). `full_cache_never_answers`: on a device that refuses every write the
65th dirty block is never answered, neither with a slot nor with `NULL`.
-/

namespace Drunix.Blk

open Lib Function

/-! ## The order of the slots -/

/-- The list holds every slot once. -/
def Ordered (b : Cache) : Prop := ∃ l, b.lru.Spells l ∧ ∀ i, i ∈ l ↔ i < slotCount

section Order

variable {b : Cache} {i : Nat} {pre suf : List Nat}

theorem not_mem_of_spells (h : b.lru.Spells (pre ++ i :: suf)) : i ∉ pre ++ suf := by
  have := List.nodup_append.mp h.nodup
  rw [List.nodup_cons] at this
  obtain ⟨-, ⟨hsuf, -⟩, hdis⟩ := this
  rw [List.mem_append, not_or]
  exact ⟨fun hc => hdis i hc i List.mem_cons_self rfl, hsuf⟩

/-- A slot that is touched is the first of the list. -/
theorem lruTouch_spells (h : b.lru.Spells (pre ++ i :: suf)) :
    (lruTouch b i).lru.Spells (i :: (pre ++ suf)) := by
  have hi := not_mem_of_spells h
  unfold lruTouch
  split
  next hhead =>
    rw [h.head] at hhead
    cases pre with
    | nil => exact h
    | cons x pre =>
      obtain rfl : x = i := by simpa using hhead
      simp at hi
  · exact h.detach.pushFront hi

theorem Ordered.touch (h : Ordered b) (hi : i < slotCount) : Ordered (lruTouch b i) := by
  obtain ⟨l, hl, hmem⟩ := h
  obtain ⟨pre, suf, rfl⟩ := List.append_of_mem ((hmem i).mpr hi)
  refine ⟨_, lruTouch_spells hl, fun j => ?_⟩
  rw [← hmem j]
  simp [or_left_comm]

theorem Ordered.demote (h : Ordered b) (hi : i < slotCount) : Ordered (lruDemote b i) := by
  rcases lruDemote_eq b i with he | he
  · rw [he]
    exact h
  · rw [he]
    obtain ⟨l, hl, hmem⟩ := h
    obtain ⟨pre, suf, rfl⟩ := List.append_of_mem ((hmem i).mpr hi)
    refine ⟨_, hl.detach.pushBack (not_mem_of_spells hl), fun j => ?_⟩
    rw [← hmem j]
    simp [or_left_comm, or_comm]

theorem Ordered.congr {b' : Cache} (h : Ordered b) (heq : b'.lru = b.lru) : Ordered b' := by
  unfold Ordered
  rw [heq]
  exact h

/-- Slots followed from the tail are slots. -/
theorem Ordered.prev (h : Ordered b) (hi : i < slotCount) {j : Nat} (hj : b.lru.prev i = some j) :
    j < slotCount := by
  obtain ⟨l, hl, hmem⟩ := h
  obtain ⟨pre, suf, rfl⟩ := List.append_of_mem ((hmem i).mpr hi)
  rw [(hl.node pre i suf rfl).1] at hj
  exact (hmem j).mp (List.mem_append_left _ (List.mem_of_getLast? hj))

theorem Ordered.tail (h : Ordered b) {j : Nat} (hj : b.lru.tail = some j) : j < slotCount := by
  obtain ⟨l, hl, hmem⟩ := h
  rw [hl.tail] at hj
  exact (hmem j).mp (List.mem_of_getLast? hj)

theorem ordered_init (b : Cache) : Ordered (bcacheInit b) := by
  refine foldl_range_inv (fun n (b : Cache) => ∃ l, b.lru.Spells l ∧ ∀ i, i ∈ l ↔ i < n) ?_ ?_
  · refine ⟨[], ⟨rfl, rfl, List.nodup_nil, fun pre x suf h => ?_⟩, by simp⟩
    simp at h
  · intro k _ b ⟨l, hl, hmem⟩
    have hk : k ∉ l := fun hc => Nat.lt_irrefl k ((hmem k).mp hc)
    -- the pointers of the new slot are set twice, those of the others are not touched
    have hl' : ({ b.lru with prev := update b.lru.prev k none,
                             next := update b.lru.next k none } : DList Nat).Spells l := by
      refine ⟨hl.head, hl.tail, hl.nodup, fun pre x suf h => ?_⟩
      have hx : x ≠ k := fun hc => hk (by simp [h, hc])
      dsimp only
      rw [update_of_ne hx, update_of_ne hx]
      exact hl.node pre x suf h
    refine ⟨_, hl'.pushFront hk, fun i => ?_⟩
    rw [List.mem_cons, hmem i]
    omega

end Order

section Calls

variable {b : Cache}

theorem slotWriteback_lru (b : Cache) (i : Nat) : (slotWriteback b i).2.lru = b.lru := by
  unfold slotWriteback
  dsimp only
  split
  · rfl
  · split <;> rfl

theorem Ordered.walk (walk : Nat) (c : Option Nat) (hc : ∀ i, c = some i → i < slotCount)
    {b : Cache} (h : Ordered b) : Ordered (acquireWalk walk c b).2 ∧
      ∀ v, (acquireWalk walk c b).1 = .ok v → v < slotCount := by
  induction walk generalizing c b with
  | zero => cases c <;> exact ⟨h, fun v hv => by simp [acquireWalk] at hv⟩
  | succ walk ih =>
    cases c with
    | none => exact ⟨h, fun v hv => by simp [acquireWalk] at hv⟩
    | some i =>
      have hi := hc i rfl
      have hback : Ordered (slotWriteback b i).2 := h.congr (slotWriteback_lru b i)
      unfold acquireWalk
      split
      · exact ⟨h, fun v hv => Except.ok.inj hv ▸ hi⟩
      · split
        next b' he =>
          rw [he] at hback
          exact ⟨hback, fun v hv => Except.ok.inj hv ▸ hi⟩
        next b' he =>
          rw [he] at hback
          exact ih _ (fun j hj => h.prev hi hj) (hback.touch hi)

theorem Ordered.acquire (h : Ordered b) (dev lba : Nat) : Ordered (acquireSlot b dev lba).2 ∧
      ∀ v, (acquireSlot b dev lba).1 = .ok v → v < slotCount := by
  unfold acquireSlot
  split
  next i hf =>
    have hi := (findSlot_some (k := (dev, lba)) hf).1
    exact ⟨h.touch hi, fun v hv => Except.ok.inj hv ▸ hi⟩
  have hwalk := Ordered.walk b.walk b.lru.tail (fun i => h.tail) h
  split
  next e b' he =>
    rw [he] at hwalk
    exact ⟨hwalk.1, fun v hv => by simp at hv⟩
  next v b' he =>
    rw [he] at hwalk
    have hv := hwalk.2 v rfl
    exact ⟨Ordered.touch hwalk.1 hv, fun v' hv' => Except.ok.inj hv' ▸ hv⟩

/-- Every call keeps the order. -/
theorem Ordered.step {w : Cache × History} (h : Ordered w.1) (op : CacheOp) :
    Ordered (cacheStep w op).1 := by
  cases op with
  | read k =>
    show Ordered (bcacheRead w.1 k.1 k.2).2
    unfold bcacheRead
    split
    · exact h
    · split
      next i hf => exact h.touch (findSlot_some hf).1
      have hslot := h.acquire k.1 k.2
      split
      next e b' he =>
        rw [he] at hslot
        exact hslot.1
      next i b' he =>
        rw [he] at hslot
        split
        · exact Ordered.demote hslot.1
            (hslot.2 i rfl)
        · exact hslot.1
  | write k buf =>
    show Ordered (bcacheWrite w.1 k.1 k.2 buf).2
    unfold bcacheWrite
    split
    · exact h
    · have hslot := h.acquire k.1 k.2
      split <;> rename_i he <;> rw [he] at hslot <;> exact hslot.1
  | writeThrough k buf =>
    show Ordered (bcacheWriteThrough w.1 k.1 k.2 buf).2
    unfold bcacheWriteThrough
    split
    · exact h
    · split
      · exact h
      · dsimp only
        split
        · exact h
        next i hf =>
          exact Ordered.touch h
            (findSlot_some hf).1
  | sync dev =>
    show Ordered (bcacheSync w.1 dev).2
    unfold bcacheSync
    refine foldl_range_inv
      (fun _ (r : Bool × Cache) => Ordered r.2) h fun i _ r hr => ?_
    unfold syncSlot
    dsimp only
    split
    · exact hr
    · split
      · exact hr
      · exact Ordered.congr hr (slotWriteback_lru r.2 i)
  | invalidate k =>
    show Ordered (bcacheInvalidate w.1 k.1 k.2)
    unfold bcacheInvalidate
    split
    · exact h
    next i hf => exact Ordered.demote h (findSlot_some hf).1

end Calls

/-! ## Refused write-backs -/

section Refusal

variable (canWrite fails : Nat → Bool)

/-- One of the next `n` sector accesses fails: the time after it. -/
def failure : Nat → Nat → Option Nat
  | 0, _ => none
  | n + 1, clock => if fails clock then some (clock + 1) else failure n (clock + 1)

/-- A write of a block is refused: the time after it. -/
def refusal (dev clock : Nat) : Option Nat :=
  if canWrite dev then failure fails 8 clock else some clock

/-- All slots hold dirty blocks, and written back one after the other all are refused: the time
after them. -/
def refusals : List Slot → Nat → Option Nat
  | [], clock => some clock
  | s :: rest, clock =>
    if s.valid && s.dirty then (refusal canWrite fails s.dev clock).bind (refusals rest) else none

end Refusal

/-- No slot is to be had in one round from the tail. -/
def Refusing (b : Cache) : Prop :=
  (refusals b.disk.canWrite b.disk.fails ((b.lru.toHead slotCount b.lru.tail).map b.slots)
    b.disk.clock).isSome = true

section Walk

theorem diskWriteSectors_failure (dev lba : Nat) (buf : Buf) (is : List Nat) (d : Disk) :
    (diskWriteSectors dev lba buf is d).1 = (failure d.fails is.length d.clock).isNone ∧
      ∀ t, failure d.fails is.length d.clock = some t →
        (diskWriteSectors dev lba buf is d).2.clock = t := by
  induction is generalizing d with
  | nil => exact ⟨rfl, fun t ht => by simp [failure] at ht⟩
  | cons i is ih =>
    unfold diskWriteSectors Disk.writeSector
    rw [List.length_cons]
    unfold failure
    cases hf : d.fails d.clock with
    | true => exact ⟨rfl, fun t ht => by simpa using ht⟩
    | false => exact ih { d with clock := d.clock + 1, log := d.log ++ [sectorOf dev lba buf i] }

/-- A dirty slot is written back, or refused at the time `refusal` says. -/
theorem slotWriteback_refusal {b : Cache} {i : Nat} (hd : ((b.slots i).valid && (b.slots i).dirty) = true) :
    (slotWriteback b i).1 = (refusal b.disk.canWrite b.disk.fails (b.slots i).dev b.disk.clock).isNone ∧
      ∀ t, refusal b.disk.canWrite b.disk.fails (b.slots i).dev b.disk.clock = some t →
        ∃ disk, slotWriteback b i = (false, { b with disk }) ∧ disk.clock = t ∧
          disk.canWrite = b.disk.canWrite ∧ disk.fails = b.disk.fails := by
  have hw : (diskWriteBlock b.disk (b.slots i).dev (b.slots i).lba (b.slots i).data).1 =
        (refusal b.disk.canWrite b.disk.fails (b.slots i).dev b.disk.clock).isNone ∧
      ∀ t, refusal b.disk.canWrite b.disk.fails (b.slots i).dev b.disk.clock = some t →
        (diskWriteBlock b.disk (b.slots i).dev (b.slots i).lba (b.slots i).data).2.clock = t := by
    unfold diskWriteBlock refusal
    cases b.disk.canWrite (b.slots i).dev with
    | true => exact diskWriteSectors_failure _ _ _ (List.range 8) b.disk
    | false => exact ⟨rfl, fun t ht => by simpa using ht⟩
  have hspec := diskWriteBlock_spec b.disk (b.slots i).key (b.slots i).data
  have hgo : (!(b.slots i).valid || !(b.slots i).dirty) = false := by
    simpa [Bool.and_eq_true] using hd
  unfold slotWriteback
  dsimp only
  rw [hgo, if_neg (by simp)]
  refine ⟨?_, fun t ht => ?_⟩
  · rw [← hw.1]
    split
    next he => rw [he]
    next he => rw [he]
  · have hno : (diskWriteBlock b.disk (b.slots i).dev (b.slots i).lba (b.slots i).data).1 = false := by
      rw [hw.1, ht]
      rfl
    split
    next disk he =>
      have hdisk : (diskWriteBlock b.disk (b.slots i).key.1 (b.slots i).key.2 (b.slots i).data).2 =
          disk := congrArg Prod.snd he
      refine ⟨disk, rfl, ?_, hdisk ▸ hspec.canWrite, hdisk ▸ hspec.fails⟩
      exact hdisk ▸ hw.2 t ht
    next disk he =>
      rw [he] at hno
      cases hno

/-- A refused slot moves to the head, and the walk goes on from the new tail. -/
theorem acquireWalk_refused {b : Cache} {l : List Nat} {c t : Nat} (walk : Nat)
    (h : b.lru.Spells (l ++ [c])) (hl : l ≠ [])
    (hd : ((b.slots c).valid && (b.slots c).dirty) = true)
    (ht : refusal b.disk.canWrite b.disk.fails (b.slots c).dev b.disk.clock = some t) :
    ∃ b' : Cache, acquireWalk (walk + 1) b.lru.tail b = acquireWalk walk b'.lru.tail b' ∧
      b'.lru.Spells (c :: l) ∧ b'.slots = b.slots ∧ b'.disk.clock = t ∧
      b'.disk.canWrite = b.disk.canWrite ∧ b'.disk.fails = b.disk.fails := by
  have hgo : ¬ (!(b.slots c).valid || !(b.slots c).dirty) = true := by
    simpa [Bool.and_eq_true] using hd
  obtain ⟨disk, he, hclock, hcan, hfails⟩ := (slotWriteback_refusal hd).2 t ht
  obtain ⟨hprev, -⟩ := h.node l c [] rfl
  have hsp : (lruTouch { b with disk } c).lru.Spells (c :: l) := by
    have := lruTouch_spells (b := { b with disk }) h
    rwa [List.append_nil] at this
  have htail : (lruTouch { b with disk } c).lru.tail = b.lru.prev c := by
    obtain ⟨x, hx⟩ := Option.isSome_iff_exists.mp (List.getLast?_isSome.mpr hl)
    rw [hsp.tail, hprev, List.getLast?_cons, hx]
    rfl
  refine ⟨lruTouch { b with disk } c, ?_, hsp, by rw [lruTouch_slots], by rwa [lruTouch_disk],
    by rwa [lruTouch_disk], by rwa [lruTouch_disk]⟩
  rw [htail, h.tail, List.getLast?_concat, acquireWalk]
  rw [if_neg hgo, he]

/-- The walk is through with the slots `done`, and asks the slots `rest` from the last one on. -/
theorem acquireWalk_rest {b : Cache} (done rest : List Nat) (h : b.lru.Spells (done ++ rest))
    (hlen : 2 ≤ (done ++ rest).length) :
    ((acquireWalk rest.length b.lru.tail b).1 = .error .hang ↔
      (refusals b.disk.canWrite b.disk.fails (rest.reverse.map b.slots) b.disk.clock).isSome
        = true) ∧
      (acquireWalk rest.length b.lru.tail b).1 ≠ .error .fail := by
  induction rest using List.reverseRecOn generalizing done b with
  | nil =>
    have htail := h.tail
    rw [List.append_nil] at htail hlen
    cases hlast : done.getLast? with
    | none => simp [List.getLast?_eq_none_iff.mp hlast] at hlen
    | some c =>
      rw [htail, hlast]
      simp [acquireWalk, refusals]
  | append_singleton rest c ih =>
    rw [← List.append_assoc] at h hlen
    have htail : b.lru.tail = some c := h.tail.trans List.getLast?_concat
    rw [List.length_append, List.length_singleton, List.reverse_concat, List.map_cons, refusals]
    cases hd : (b.slots c).valid && (b.slots c).dirty with
    | false =>
      have hfree : (!(b.slots c).valid || !(b.slots c).dirty) = true := by
        rw [← Bool.not_and, hd]
        rfl
      rw [htail, acquireWalk, if_pos hfree]
      simp
    | true =>
      rw [if_pos rfl]
      cases hr : refusal b.disk.canWrite b.disk.fails (b.slots c).dev b.disk.clock with
      | none =>
        have hgo : ¬ (!(b.slots c).valid || !(b.slots c).dirty) = true := by
          simpa [Bool.and_eq_true] using hd
        have hback := (slotWriteback_refusal hd).1
        rw [hr] at hback
        rw [htail, acquireWalk, if_neg hgo]
        split
        · simp
        next he =>
          rw [he] at hback
          cases hback
      | some t =>
        have hne : done ++ rest ≠ [] := by
          intro hc
          rw [hc] at hlen
          simp at hlen
        obtain ⟨b', heq, hsp, hslots, hclock, hcan, hfails⟩ :=
          acquireWalk_refused rest.length h hne hd hr
        have hih := ih (c :: done) hsp (by simp at hlen ⊢; omega)
        rw [hslots, hclock, hcan, hfails] at hih
        rw [heq]
        exact hih

end Walk

/-! ## The result -/

/-- `acquire_slot` asks every slot at most once, and answers `NULL` only if all are dirty and
refused; a read or a write then fails. -/
def OneRound (b : Cache) (k : Key) : Prop :=
  (acquireSlot { b with walk := slotCount } k.1 k.2).1 ≠ .error .hang ∧
    ((acquireSlot { b with walk := slotCount } k.1 k.2).1 = .error .fail →
      Refusing b ∧ (bcacheRead { b with walk := slotCount } k.1 k.2).1 = .error .fail ∧
        ∀ buf, (bcacheWrite { b with walk := slotCount } k.1 k.2 buf).1 = .error .fail)

theorem spells_length {b : Cache} {l : List Nat} (hl : b.lru.Spells l)
    (hmem : ∀ i, i ∈ l ↔ i < slotCount) : l.length = slotCount := by
  have hperm : l.Perm (List.range slotCount) :=
    (List.perm_ext_iff_of_nodup hl.nodup List.nodup_range).mpr fun i => by
      rw [hmem i, List.mem_range]
  rw [hperm.length_eq, List.length_range]

theorem Ordered.oneRound_iff {b : Cache} (h : Ordered b) (k : Key) :
    OneRound b k ↔ findSlot b k.1 k.2 ≠ none ∨ ¬ Refusing b := by
  obtain ⟨l, hl, hmem⟩ := h
  have hlen := spells_length hl hmem
  obtain ⟨hwalk, hfail⟩ := acquireWalk_rest (b := { b with walk := slotCount }) [] l hl
    (by rw [List.nil_append, hlen]; decide)
  have horder : b.lru.toHead slotCount b.lru.tail = l.reverse := by
    rw [← hlen, hl.tail]
    have hnil : b.lru.Spells (l ++ []) := by rwa [List.append_nil]
    exact hnil.toHead_eq
  have hacq : findSlot b k.1 k.2 = none →
      ((acquireSlot { b with walk := slotCount } k.1 k.2).1 = .error .hang ↔ Refusing b) ∧
        (acquireSlot { b with walk := slotCount } k.1 k.2).1 ≠ .error .fail := by
    intro hf
    have hf' : findSlot { b with walk := slotCount } k.1 k.2 = none := hf
    unfold Refusing
    rw [horder, ← hwalk, hlen]
    rw [hlen] at hfail
    unfold acquireSlot
    rw [hf']
    dsimp only at hfail ⊢
    split
    next e b' he =>
      rw [he] at hfail ⊢
      exact ⟨by simp, by simpa using hfail⟩
    next v b' he =>
      rw [he]
      simp
  unfold OneRound
  cases hf : findSlot b k.1 k.2 with
  | some i =>
    have hcached : (acquireSlot { b with walk := slotCount } k.1 k.2).1 = .ok i := by
      have hf' : findSlot { b with walk := slotCount } k.1 k.2 = some i := hf
      unfold acquireSlot
      rw [hf']
    rw [hcached]
    simp
  | none =>
    obtain ⟨hhang, hnull⟩ := hacq hf
    refine ⟨fun hone => .inr fun hr => hone.1 (hhang.mpr hr), fun hor => ⟨fun hc => ?_, fun hc => ?_⟩⟩
    · exact hor.elim (absurd rfl) fun hr => hr (hhang.mp hc)
    · exact absurd hc hnull

theorem reach_ordered {b0 : Cache} {w : Cache × History}
    (hr : Reach cacheStep (fun _ _ => True) (bcacheInit b0, []) w) : Ordered w.1 :=
  hr.inv (fun w => Ordered w.1) (ordered_init b0) fun _ op h _ => h.step op

/-- After any calls, on any devices: `acquire_slot` gets by with one round exactly if the block is
cached, or a slot is empty or clean, or one can be written back when its turn comes. -/
theorem acquire_slot_one_round_iff {b₀ : Cache} {w : Cache × History}
    (hr : Reach cacheStep (fun _ _ => True) (bcacheInit b₀, []) w) (k : Key) :
    OneRound w.1 k ↔ findSlot w.1 k.1 k.2 ≠ none ∨ ¬ Refusing w.1 :=
  (reach_ordered hr).oneRound_iff k

/-- The cache after 64 writes, each of which takes a slot. -/
@[irreducible] def fullCache (fails : Nat → Bool) : Cache × History :=
  ((List.range slotCount).map fun i => CacheOp.write (1, 8 * i) fun _ => 7).foldl cacheStep
    (bcacheInit (blankCache fails), [])

theorem fullCache_reach (fails : Nat → Bool) :
    Reach cacheStep (fun _ _ => True) (bcacheInit (blankCache fails), []) (fullCache fails) := by
  unfold fullCache
  exact Reach.start.run (Allowed.of_all (fun _ _ => trivial) _ _)

set_option maxRecDepth 100000 in
/-- All slots are dirty, and the device refuses the first transfer: the slot that is asked first
cannot be written back, and the next one can. -/
theorem acquire_slot_one_round_second :
    let b := (fullCache fun t => t == 0).1
    (∀ i < slotCount, ((b.slots i).valid && (b.slots i).dirty) = true) ∧
      (refusal b.disk.canWrite b.disk.fails (b.slots (b.lru.tail.getD 0)).dev b.disk.clock).isSome ∧
      OneRound b (1, 512) := by
  intro b
  -- one evaluation of the 64 writes for all three
  have hfull : (∀ i < slotCount, ((b.slots i).valid && (b.slots i).dirty) = true) ∧
      (refusal b.disk.canWrite b.disk.fails (b.slots (b.lru.tail.getD 0)).dev b.disk.clock).isSome ∧
      ¬ (refusals b.disk.canWrite b.disk.fails ((b.lru.toHead slotCount b.lru.tail).map b.slots)
        b.disk.clock).isSome = true := by
    decide +kernel
  obtain ⟨hdirty, hfirst, hsecond⟩ := hfull
  exact ⟨hdirty, hfirst,
    (acquire_slot_one_round_iff (fullCache_reach _) (1, 512)).mpr (.inr hsecond)⟩

/-- A device that refuses every write, and a dirty block in every slot: the walk never ends. -/
theorem acquireWalk_forever (walk : Nat) {b : Cache} {l : List Nat} (h : b.lru.Spells l)
    (hlen : 2 ≤ l.length) (hfails : ∀ t, b.disk.fails t = true)
    (hdirty : ∀ i ∈ l, ((b.slots i).valid && (b.slots i).dirty) = true) :
    (acquireWalk walk b.lru.tail b).1 = .error .hang := by
  induction walk generalizing b l with
  | zero =>
    obtain ⟨c, hc⟩ := Option.isSome_iff_exists.mp
      (List.getLast?_isSome.mpr (List.ne_nil_of_length_pos (Nat.lt_of_lt_of_le Nat.two_pos hlen)))
    rw [h.tail, hc]
    rfl
  | succ walk ih =>
    cases l using List.reverseRecOn with
    | nil => simp at hlen
    | append_singleton l c =>
      have hd := hdirty c (by simp)
      obtain ⟨t, ht⟩ : ∃ t, refusal b.disk.canWrite b.disk.fails (b.slots c).dev b.disk.clock =
          some t := by
        unfold refusal failure
        rw [hfails]
        cases b.disk.canWrite (b.slots c).dev <;> exact ⟨_, rfl⟩
      have hne : l ≠ [] := by
        rintro rfl
        simp at hlen
      obtain ⟨b', heq, hsp, hslots, -, -, hf⟩ := acquireWalk_refused walk h hne hd ht
      rw [heq]
      refine ih hsp (by simpa using hlen) (fun t => by rw [hf]; exact hfails t) fun i hi => ?_
      rw [hslots]
      exact hdirty i (by simpa [or_comm] using hi)

set_option maxRecDepth 100000 in
/-- The 64 writes succeed, and the next one never returns, however long one waits. -/
theorem full_cache_never_answers :
    let full := fullCache fun _ => true
    Reach cacheStep (fun _ _ => True) (bcacheInit (blankCache fun _ => true), []) full ∧
      full.2.all Prod.snd = true ∧
      ∀ walk buf, (bcacheWrite { full.1 with walk } 1 512 buf).1 = .error .hang := by
  intro full
  have hreach := fullCache_reach fun _ => true
  have hfull : full.2.all Prod.snd = true ∧ findSlot full.1 1 512 = none ∧
      ∀ i < slotCount, ((full.1.slots i).valid && (full.1.slots i).dirty) = true := by
    decide +kernel
  obtain ⟨hsucceed, habsent, hdirty⟩ := hfull
  refine ⟨hreach, hsucceed, fun walk buf => ?_⟩
  have hfails : full.1.disk.fails = fun _ => true := by
    unfold full fullCache
    rfl
  obtain ⟨l, hl, hmem⟩ := reach_ordered hreach
  have hlen : 2 ≤ l.length := by
    rw [spells_length hl hmem]
    decide
  have hwalk := acquireWalk_forever walk (b := { full.1 with walk }) hl hlen
    (fun t => by rw [hfails]) fun i hi => hdirty i ((hmem i).mp hi)
  have hnone : findSlot { full.1 with walk } 1 512 = none := habsent
  have hacq : (acquireSlot { full.1 with walk } 1 512).1 = .error .hang := by
    unfold acquireSlot
    rw [hnone]
    dsimp only
    split
    next he => rw [he] at hwalk; exact hwalk
    next he => rw [he] at hwalk; cases hwalk
  unfold bcacheWrite
  rw [if_neg (by decide)]
  split
  next he => rw [he] at hacq; exact congrArg Except.error (Except.error.inj hacq)
  next he => rw [he] at hacq; cases hacq

end Drunix.Blk
