import Drunix.Lib.Bytes
import Drunix.Lib.Loop

/-!
# Pseudo-terminals

`proc/pty.c`: the pool of terminal pairs, and how handles to their two ends come and
go. `pty_lifetime`: a pair is in use as long as a handle to it is open and no longer, in
every run in which a master handle is released without a slave open only if it is the last
one, and a slave handle without a master open only if it is the last one.
`release_drops_open_handle` shows what happens otherwise: the release clears `in_use`
after looking at the other end only.

Mirroring notes:
- `Handles` counts the open handles of each pair; a call of `pty_get_*` is a dup of an open
  handle, and does nothing where there is none.
- The bytes of the rings and the wait queues are left out: these functions only reset them
  or wake who waits.
-/

namespace Drunix.Proc

open Lib Function

/-! ## The pool -/

/-- `pty_ring_t`. -/
structure PtyRing where
  head : Nat := 0
  tail : Nat := 0
  count : Nat := 0
  closed : Bool := false
deriving DecidableEq

/-- `pty_t`. -/
structure Pty where
  inUse : Bool := false
  masterOpen : Nat := 0
  slaveOpen : Nat := 0
  toSlave : PtyRing := {}
  toMaster : PtyRing := {}
deriving DecidableEq

/-- `PTY_MAX`. -/
def ptyMax : Nat := 4

/-- `pty_pool`. -/
abbrev PtyPool := Nat → Pty

/-- The loop of `pty_alloc_master`. -/
def allocMasterFrom (pool : PtyPool) : List Nat → Option Nat × PtyPool
  | [] => (none, pool)
  | i :: is =>
    if (pool i).inUse then allocMasterFrom pool is
    else (some i, update pool i { inUse := true, masterOpen := 1, slaveOpen := 0 })

/-- `pty_alloc_master`. -/
def ptyAllocMaster (pool : PtyPool) : Option Nat × PtyPool :=
  allocMasterFrom pool (List.range ptyMax)

/-- `pty_open_slave`. -/
def ptyOpenSlave (pool : PtyPool) (i : Nat) : Bool × PtyPool :=
  if i ≥ ptyMax then (false, pool)
  else if (pool i).inUse = false ∨ (pool i).masterOpen = 0 ∨ (pool i).slaveOpen ≠ 0 then (false, pool)
  else (true, update pool i { pool i with slaveOpen := 1 })

/-- `pty_get_master`. -/
def ptyGetMaster (pool : PtyPool) (i : Nat) : PtyPool :=
  if i ≥ ptyMax then pool
  else if (pool i).inUse = true ∧ (pool i).masterOpen > 0 then
    update pool i { pool i with masterOpen := u32 ((pool i).masterOpen + 1) }
  else pool

/-- `pty_get_slave`. -/
def ptyGetSlave (pool : PtyPool) (i : Nat) : PtyPool :=
  if i ≥ ptyMax then pool
  else if (pool i).inUse = true ∧ (pool i).slaveOpen > 0 then
    update pool i { pool i with slaveOpen := u32 ((pool i).slaveOpen + 1) }
  else pool

/-- Both rings closed. -/
def Pty.close (p : Pty) : Pty :=
  { p with toSlave := { p.toSlave with closed := true }
           toMaster := { p.toMaster with closed := true } }

/-- A pair after a master handle is released. -/
def Pty.releaseMaster (p : Pty) : Pty :=
  let p := { p with masterOpen := p.masterOpen - 1 }
  let p := if p.masterOpen = 0 then p.close else p
  if p.slaveOpen = 0 then { p with inUse := false } else p

/-- A pair after a slave handle is released. -/
def Pty.releaseSlave (p : Pty) : Pty :=
  let p := { p with slaveOpen := p.slaveOpen - 1 }
  let p := if p.slaveOpen = 0 then p.close else p
  if p.masterOpen = 0 then { p with inUse := false } else p

/-- `pty_release_master`. -/
def ptyReleaseMaster (pool : PtyPool) (i : Nat) : PtyPool :=
  if i ≥ ptyMax then pool
  else if (pool i).inUse = false then pool
  else update pool i (pool i).releaseMaster

/-- `pty_release_slave`. -/
def ptyReleaseSlave (pool : PtyPool) (i : Nat) : PtyPool :=
  if i ≥ ptyMax then pool
  else if (pool i).inUse = false then pool
  else update pool i (pool i).releaseSlave

/-! ## Handles -/

/-- The open handles of a pair. -/
structure Handles where
  masters : Nat := 0
  slaves : Nat := 0

/-- The pool and the open handles of each pair. -/
structure PtyState where
  pool : PtyPool
  handles : Nat → Handles

/-- A call. -/
inductive PtyOp where
  | allocMaster
  | openSlave (i : Nat)
  | getMaster (i : Nat)
  | getSlave (i : Nat)
  | releaseMaster (i : Nat)
  | releaseSlave (i : Nat)

/-- A call, with the handle it obtains or gives up. -/
def ptyStep (s : PtyState) : PtyOp → PtyState
  | .allocMaster =>
    match ptyAllocMaster s.pool with
    | (some i, pool) =>
      { pool, handles := update s.handles i
          { s.handles i with masters := (s.handles i).masters + 1 } }
    | (none, pool) => { s with pool }
  | .openSlave i =>
    match ptyOpenSlave s.pool i with
    | (true, pool) =>
      { pool, handles := update s.handles i
          { s.handles i with slaves := (s.handles i).slaves + 1 } }
    | (false, pool) => { s with pool }
  | .getMaster i =>
    { pool := ptyGetMaster s.pool i
      handles := if (s.handles i).masters = 0 then s.handles else
        update s.handles i { s.handles i with masters := (s.handles i).masters + 1 } }
  | .getSlave i =>
    { pool := ptyGetSlave s.pool i
      handles := if (s.handles i).slaves = 0 then s.handles else
        update s.handles i { s.handles i with slaves := (s.handles i).slaves + 1 } }
  | .releaseMaster i =>
    { pool := ptyReleaseMaster s.pool i
      handles := update s.handles i
        { s.handles i with masters := (s.handles i).masters - 1 } }
  | .releaseSlave i =>
    { pool := ptyReleaseSlave s.pool i
      handles := update s.handles i
        { s.handles i with slaves := (s.handles i).slaves - 1 } }

/-- A handle is released only while it is open. -/
def ReleasesOpen (s : PtyState) : PtyOp → Prop
  | .releaseMaster i => 0 < (s.handles i).masters
  | .releaseSlave i => 0 < (s.handles i).slaves
  | _ => True

/-- The steps that go well: a release with nothing open at the other end is the last one, and
the counters do not wrap. -/
def PtySafe (s : PtyState) : PtyOp → Prop
  | .getMaster i => (s.pool i).masterOpen + 1 < 4294967296
  | .getSlave i => (s.pool i).slaveOpen + 1 < 4294967296
  | .releaseMaster i => (s.pool i).slaveOpen = 0 → (s.pool i).masterOpen ≤ 1
  | .releaseSlave i => (s.pool i).masterOpen = 0 → (s.pool i).slaveOpen ≤ 1
  | _ => True

/-- The counters of a pair are those of its handles, and it is in use while there is one. -/
structure PtyOk (p : Pty) (h : Handles) : Prop where
  open_iff : p.inUse = true ↔ 0 < h.masters + h.slaves
  masters : p.inUse = true → p.masterOpen = h.masters
  slaves : p.inUse = true → p.slaveOpen = h.slaves

/-- The invariant of the pool. -/
def PtyInv (s : PtyState) : Prop := ∀ i, PtyOk (s.pool i) (s.handles i)

variable {p : Pty} {s : PtyState}

theorem ptyOk_free (h : p.inUse = false) : PtyOk p {} :=
  ⟨by simp [h], by simp [h], by simp [h]⟩

variable {h : Handles} {i : Nat}

/-- A pair that is not in use has no handle. -/
theorem PtyOk.closed (hp : PtyOk p h) (hfree : p.inUse = false) : h.masters = 0 ∧ h.slaves = 0 := by
  have hno : ¬ 0 < h.masters + h.slaves := fun hpos => by
    rw [hp.open_iff.mpr hpos] at hfree
    cases hfree
  omega

/-- A change of one pair. -/
theorem PtyInv.update (h : PtyInv s) {hs : Handles}
    (hp : PtyOk p hs) : PtyInv ⟨update s.pool i p, update s.handles i hs⟩ := by
  intro j
  by_cases hj : j = i
  · subst hj
    simpa using hp
  · simpa [update_of_ne hj] using h j

/-- What an allocation gives: the first pair that is not in use. -/
theorem allocMasterFrom_spec (pool : PtyPool) (is : List Nat) :
    ((allocMasterFrom pool is).1 = none ∧ (allocMasterFrom pool is).2 = pool) ∨
    ∃ i ∈ is, (allocMasterFrom pool is).1 = some i ∧ (pool i).inUse = false ∧
      (allocMasterFrom pool is).2 = update pool i { inUse := true, masterOpen := 1 } := by
  induction is with
  | nil => exact .inl ⟨rfl, rfl⟩
  | cons i is ih =>
    unfold allocMasterFrom
    split
    · rcases ih with ih | ⟨j, hj, h1, h2, h3⟩
      · exact .inl ih
      · exact .inr ⟨j, List.mem_cons_of_mem i hj, h1, h2, h3⟩
    · next hfree => exact .inr ⟨i, List.mem_cons_self, rfl, by simpa using hfree, rfl⟩

/-! ## Releasing -/

theorem Pty.releaseMaster_fields (p : Pty) :
    p.releaseMaster.inUse = (p.inUse && decide (p.slaveOpen ≠ 0)) ∧
      p.releaseMaster.masterOpen = p.masterOpen - 1 ∧ p.releaseMaster.slaveOpen = p.slaveOpen := by
  unfold Pty.releaseMaster Pty.close
  dsimp only
  split <;> split <;> simp_all

theorem Pty.releaseSlave_fields (p : Pty) :
    p.releaseSlave.inUse = (p.inUse && decide (p.masterOpen ≠ 0)) ∧
      p.releaseSlave.masterOpen = p.masterOpen ∧ p.releaseSlave.slaveOpen = p.slaveOpen - 1 := by
  unfold Pty.releaseSlave Pty.close
  dsimp only
  split <;> split <;> simp_all

/-- A handle of one kind is released, and the pair stays in use while there is one of the other
kind: this goes well exactly if there is one or the handle is the last. -/
theorem released_ok_iff {p' : Pty} {h' : Handles} {own other : Nat}
    (hiff : p'.inUse = true ↔ other ≠ 0) (hm : p'.masterOpen = h'.masters)
    (hs : p'.slaveOpen = h'.slaves) (hcount : h'.masters + h'.slaves = own - 1 + other) :
    PtyOk p' h' ↔ (other = 0 → own ≤ 1) := by
  constructor
  · intro hok h0
    by_contra hmany
    exact hiff.mp (hok.open_iff.mpr (by omega)) h0
  · intro hlast
    refine ⟨hiff.trans ⟨fun h0 => by omega, fun hpos h0 => ?_⟩, fun _ => hm, fun _ => hs⟩
    omega

theorem releaseMaster_ok_iff (hp : PtyOk p h) (hopen : 0 < h.masters) :
    PtyOk p.releaseMaster { h with masters := h.masters - 1 } ↔
      (p.slaveOpen = 0 → p.masterOpen ≤ 1) := by
  obtain ⟨hu, hm, hs⟩ := p.releaseMaster_fields
  have huse : p.inUse = true := hp.open_iff.mpr (by omega)
  have hmc := hp.masters huse
  have hsc := hp.slaves huse
  exact released_ok_iff (by simp [hu, huse]) (by rw [hm, hmc]) (by rw [hs, hsc]) (by rw [hmc, hsc])

theorem releaseSlave_ok_iff (hp : PtyOk p h) (hopen : 0 < h.slaves) :
    PtyOk p.releaseSlave { h with slaves := h.slaves - 1 } ↔
      (p.masterOpen = 0 → p.slaveOpen ≤ 1) := by
  obtain ⟨hu, hm, hs⟩ := p.releaseSlave_fields
  have huse : p.inUse = true := hp.open_iff.mpr (by omega)
  have hmc := hp.masters huse
  have hsc := hp.slaves huse
  exact released_ok_iff (by simp [hu, huse]) (by rw [hm, hmc]) (by rw [hs, hsc])
    (by rw [hmc, hsc, Nat.add_comm])

/-! ## Runs -/

/-- Only the four pairs of the pool are ever in use. -/
structure PtyReached (s : PtyState) : Prop where
  inv : PtyInv s
  outside : ∀ i, ptyMax ≤ i → (s.pool i).inUse = false

theorem PtyReached.update (h : PtyReached s) (hi : i < ptyMax) {hs : Handles} (hp : PtyOk p hs) :
    PtyReached ⟨update s.pool i p, update s.handles i hs⟩ :=
  ⟨h.inv.update hp, fun j hj => by
    have hne : j ≠ i := by omega
    simpa [update_of_ne hne] using h.outside j hj⟩

/-- A pair with a handle is one of the pool. -/
theorem PtyReached.lt (h : PtyReached s)
    (hopen : 0 < (s.handles i).masters + (s.handles i).slaves) : i < ptyMax := by
  by_contra hge
  have hfree := h.outside i (by omega)
  rw [(h.inv i).open_iff.mpr hopen] at hfree
  cases hfree

theorem ptyStep_reached (h : PtyReached s) {op : PtyOp} (hrel : ReleasesOpen s op)
    (hsafe : PtySafe s op) : PtyReached (ptyStep s op) := by
  cases op with
  | allocMaster =>
    simp only [ptyStep, ptyAllocMaster]
    rcases allocMasterFrom_spec s.pool (List.range ptyMax) with ⟨h1, h2⟩ | ⟨i, hi, h1, hfree, h2⟩
    · rw [show allocMasterFrom s.pool (List.range ptyMax) = (none, s.pool) from Prod.ext h1 h2]
      exact h
    · rw [show allocMasterFrom s.pool (List.range ptyMax) = (some i, _) from Prod.ext h1 h2]
      obtain ⟨hm, hs⟩ := (h.inv i).closed hfree
      exact h.update (List.mem_range.mp hi) ⟨iff_of_true rfl (Nat.add_pos_left (Nat.succ_pos _) _),
        by simp [hm], by simp [hs]⟩
  | openSlave i =>
    simp only [ptyStep, ptyOpenSlave]
    by_cases hi : i ≥ ptyMax
    · rw [if_pos hi]
      exact h
    rw [if_neg hi]
    by_cases hrefuse : (s.pool i).inUse = false ∨ (s.pool i).masterOpen = 0 ∨ (s.pool i).slaveOpen ≠ 0
    · rw [if_pos hrefuse]
      exact h
    rw [if_neg hrefuse]
    have huse : (s.pool i).inUse = true := by simpa using (not_or.mp hrefuse).1
    have hm := (h.inv i).masters huse
    have hs := (h.inv i).slaves huse
    exact h.update (by omega) ⟨iff_of_true huse (Nat.add_pos_right _ (Nat.succ_pos _)), fun _ => hm,
      fun _ => by simp only; omega⟩
  | getMaster i =>
    simp only [ptyStep, ptyGetMaster]
    by_cases hnone : (s.handles i).masters = 0
    · -- no handle to dup, and the counter says so
      rw [if_pos hnone]
      have hsame : ¬ ((s.pool i).inUse = true ∧ (s.pool i).masterOpen > 0) := fun hc => by
        have := (h.inv i).masters hc.1
        omega
      rw [if_neg hsame, ite_self]
      exact h
    · have huse : (s.pool i).inUse = true := (h.inv i).open_iff.mpr (by omega)
      have hlt := h.lt (i := i) (by omega)
      have hm := (h.inv i).masters huse
      rw [if_neg hnone, if_neg (by omega), if_pos ⟨huse, by omega⟩]
      refine h.update hlt ⟨iff_of_true huse (Nat.add_pos_left (Nat.succ_pos _) _), fun _ => ?_,
        fun _ => (h.inv i).slaves huse⟩
      have hfits : (s.pool i).masterOpen + 1 < 4294967296 := hsafe
      simp only [u32]
      rw [Nat.mod_eq_of_lt hfits, hm]
  | getSlave i =>
    simp only [ptyStep, ptyGetSlave]
    by_cases hnone : (s.handles i).slaves = 0
    · rw [if_pos hnone]
      have hsame : ¬ ((s.pool i).inUse = true ∧ (s.pool i).slaveOpen > 0) := fun hc => by
        have := (h.inv i).slaves hc.1
        omega
      rw [if_neg hsame, ite_self]
      exact h
    · have huse : (s.pool i).inUse = true := (h.inv i).open_iff.mpr (by omega)
      have hlt := h.lt (i := i) (by omega)
      have hs := (h.inv i).slaves huse
      rw [if_neg hnone, if_neg (by omega), if_pos ⟨huse, by omega⟩]
      refine h.update hlt ⟨iff_of_true huse (Nat.add_pos_right _ (Nat.succ_pos _)),
        fun _ => (h.inv i).masters huse, fun _ => ?_⟩
      have hfits : (s.pool i).slaveOpen + 1 < 4294967296 := hsafe
      simp only [u32]
      rw [Nat.mod_eq_of_lt hfits, hs]
  | releaseMaster i =>
    have hlt := h.lt (Nat.add_pos_left hrel _)
    have huse : (s.pool i).inUse = true := (h.inv i).open_iff.mpr (Nat.add_pos_left hrel _)
    simp only [ptyStep, ptyReleaseMaster]
    rw [if_neg (by omega), if_neg (by simp [huse])]
    exact h.update hlt ((releaseMaster_ok_iff (h.inv i) hrel).mpr hsafe)
  | releaseSlave i =>
    have hlt := h.lt (Nat.add_pos_right _ hrel)
    have huse : (s.pool i).inUse = true := (h.inv i).open_iff.mpr (Nat.add_pos_right _ hrel)
    simp only [ptyStep, ptyReleaseSlave]
    rw [if_neg (by omega), if_neg (by simp [huse])]
    exact h.update hlt ((releaseSlave_ok_iff (h.inv i) hrel).mpr hsafe)

/-- The empty pool. -/
def ptyBoot : PtyState := ⟨fun _ => {}, fun _ => {}⟩

/-- In every state reached by steps that go well, a pair is in use exactly while a handle to
it is open, and an allocation gives one without open handles. -/
theorem pty_lifetime {s : PtyState}
    (hr : Reach ptyStep (fun s op => ReleasesOpen s op ∧ PtySafe s op) ptyBoot s) :
    (∀ i, (s.pool i).inUse = true ↔ 0 < (s.handles i).masters + (s.handles i).slaves) ∧
    ∀ i, (ptyAllocMaster s.pool).1 = some i →
      (s.handles i).masters = 0 ∧ (s.handles i).slaves = 0 := by
  have h : PtyReached s := hr.inv PtyReached
    ⟨fun i => ptyOk_free rfl, fun _ _ => rfl⟩ fun s op hs hok => ptyStep_reached hs hok.1 hok.2
  refine ⟨fun i => (h.inv i).open_iff, fun i hi => ?_⟩
  rcases allocMasterFrom_spec s.pool (List.range ptyMax) with ⟨hnone, -⟩ | ⟨j, -, hj, hfree, -⟩
  · rw [ptyAllocMaster, hnone] at hi
    cases hi
  · rw [ptyAllocMaster, hj] at hi
    obtain rfl := Option.some.inj hi
    exact (h.inv j).closed hfree

/-- A terminal whose master is released while a slave is open, and then the slave. -/
def ordinarySession : List PtyOp :=
  [.allocMaster, .openSlave 0, .getSlave 0, .releaseSlave 0, .releaseMaster 0]

theorem pty_lifetime_ordinary :
    ((ordinarySession.foldl ptyStep ptyBoot).pool 0).inUse = true ∧
    (ptyAllocMaster (ordinarySession.foldl ptyStep ptyBoot).pool).1 = some 1 := by
  have hr : Reach ptyStep (fun s op => ReleasesOpen s op ∧ PtySafe s op) ptyBoot
      (ordinarySession.foldl ptyStep ptyBoot) := by
    refine Reach.step (PtyOp.releaseMaster 0) (Reach.step (PtyOp.releaseSlave 0)
      (Reach.step (PtyOp.getSlave 0) (Reach.step (PtyOp.openSlave 0)
        (Reach.step PtyOp.allocMaster Reach.start ?_) ?_) ?_) ?_) ?_
    · exact ⟨trivial, trivial⟩
    · exact ⟨trivial, trivial⟩
    · exact ⟨trivial, show _ < _ by decide⟩
    · exact ⟨show _ < _ by decide, show _ → _ by decide⟩
    · exact ⟨show _ < _ by decide, show _ → _ by decide⟩
  exact ⟨((pty_lifetime hr).1 0).mpr (by decide), by decide⟩

/-- A dup of the only master handle is released: the pair is handed out again with the other
one open. The same with two slaves, the master released. -/
theorem release_drops_open_handle :
    (([.allocMaster, .getMaster 0, .releaseMaster 0].foldl ptyStep ptyBoot).handles 0).masters = 1 ∧
    (ptyAllocMaster ([.allocMaster, .getMaster 0, .releaseMaster 0].foldl ptyStep ptyBoot).pool).1 =
      some 0 ∧
    (([.allocMaster, .openSlave 0, .getSlave 0, .releaseMaster 0, .releaseSlave 0].foldl
      ptyStep ptyBoot).handles 0).slaves = 1 ∧
    (ptyAllocMaster ([.allocMaster, .openSlave 0, .getSlave 0, .releaseMaster 0,
      .releaseSlave 0].foldl ptyStep ptyBoot).pool).1 = some 0 := by
  decide

end Drunix.Proc
