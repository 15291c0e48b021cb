import Drunix.Proc.Task

/-!
# The life of a page directory

Over the calls of `Proc.Task`: a page directory is destroyed once, when no task refers to it
any more, and no task that can run has a destroyed one (`directory_destroyed_once`).

This holds in every run in which a task calls `execve` only if no other task, a zombie
included, has its address space, `fork` is not called with the process table full, and `clone`
is not called when the next id is a negative `int`.
`execve` looks at the tasks of the caller's group alone: after `clone` with `CLONE_VM` but
without `CLONE_THREAD` it destroys the directory under the other task
(`execve_destroys_shared_directory`).

`Dirs` is the balance that carries this: every directory that was made is destroyed once, or
belongs to one address space, or is on its way from one to the other.
-/

namespace Drunix.Proc

open Lib Function

/-- One for the directories that were made. -/
def made (nextPd pd : Nat) : Nat := if 0 < pd ∧ pd < nextPd then 1 else 0

/-- The number of address spaces with directory `pd`. -/
def spacesOf (spaces : RefHeap Nat) (pd : Nat) : Nat :=
  count spaces.live fun a => spaces.val a == pd

/-- Every directory that was made was destroyed once, or is that of one address space, or is
one of the `dirs` besides. -/
structure Dirs (h : AsHeap) (dirs : Nat → Nat) : Prop where
  pos : 0 < h.nextPd
  once : ∀ pd, h.destroyed.count pd + spacesOf h.spaces pd + dirs pd = made h.nextPd pd

/-- The counts of the address spaces are right for the pointers `ptr` of the tasks and the
`extra` references besides, and a task has the directory of its address space. -/
structure AsState (h : AsHeap) (ptr : Nat → Option Nat) (pds : Nat → Nat) (extra dirs : Nat → Nat) :
    Prop where
  held : Held h.spaces slots ptr extra
  dirs : Dirs h dirs
  agree : ∀ x ∈ slots, ∀ a, ptr x = some a → h.spaces.val a = pds x

/-- The directories of the tasks. -/
def pdsOf (tasks : Nat → Task) (i : Nat) : Nat := (tasks i).pdPhys

/-- The invariant. -/
structure AsInv (s : TaskSys) : Prop where
  ok : TaskOk s
  as : AsState s.as (ptrs Task.as s.tasks) (pdsOf s.tasks) 0 0

/-! ## Moves -/

section Moves

variable {h : AsHeap} {ptr : Nat → Option Nat} {pds extra dirs : Nat → Nat} {a pd x : Nat}

theorem AsState.newPd (hs : AsState h ptr pds extra dirs) :
    AsState h.newPd.2 ptr pds extra (dirs + tick h.newPd.1) := by
  refine ⟨hs.held, ⟨Nat.succ_pos _, fun pd => ?_⟩, hs.agree⟩
  have honce := hs.dirs.once pd
  have hpos := hs.dirs.pos
  show h.destroyed.count pd + spacesOf h.spaces pd + (dirs pd + tick h.nextPd pd) =
    made (h.nextPd + 1) pd
  by_cases hpd : pd = h.nextPd
  · subst hpd
    rw [made, if_neg (by omega)] at honce
    rw [tick_self, made, if_pos (by omega)]
    omega
  · rw [tick_ne hpd, Nat.add_zero, honce]
    exact if_congr (by omega) rfl rfl

theorem AsState.destroy (hs : AsState h ptr pds extra (dirs + tick pd)) :
    AsState (h.destroy pd) ptr pds extra dirs := by
  refine ⟨hs.held, ⟨hs.dirs.pos, fun pd' => ?_⟩, hs.agree⟩
  have honce := hs.dirs.once pd'
  rw [Pi.add_apply] at honce
  show (pd :: h.destroyed).count pd' + spacesOf h.spaces pd' + dirs pd' = made h.nextPd pd'
  by_cases hpd : pd' = pd
  · subst hpd
    rw [tick_self] at honce
    rw [List.count_cons_self]
    omega
  · rw [tick_ne hpd] at honce
    rw [List.count_cons_of_ne (Ne.symm hpd)]
    exact honce

theorem AsState.create (hs : AsState h ptr pds extra (dirs + tick pd)) (ha : a ∉ h.spaces.live) :
    AsState { h with spaces := h.spaces.create a pd } ptr pds (extra + tick a) dirs := by
  have hval : ∀ b ∈ h.spaces.live, (h.spaces.create a pd).val b = h.spaces.val b :=
    fun b hb => h.spaces.create_val_ne pd fun he => ha (he ▸ hb)
  refine ⟨hs.held.create ha pd, ⟨hs.dirs.pos, fun pd' => ?_⟩, fun y hy b hb => ?_⟩
  · have honce := hs.dirs.once pd'
    have hcount : spacesOf (h.spaces.create a pd) pd' = spacesOf h.spaces pd' + tick pd pd' := by
      unfold spacesOf
      rw [show (h.spaces.create a pd).live = insert a h.spaces.live from rfl, count_insert ha,
        RefHeap.create_val_self, ite_beq_eq_tick]
      congr 1
      exact count_congr fun b hb => by rw [hval b hb]
    show h.destroyed.count pd' + spacesOf (h.spaces.create a pd) pd' + dirs pd' = made h.nextPd pd'
    rw [hcount]
    rw [Pi.add_apply] at honce
    omega
  · rw [hval b (hs.held.mem y hy b hb)]
    exact hs.agree y hy b hb

theorem AsState.get (hs : AsState h ptr pds extra dirs) (ha : a ∈ h.spaces.live) :
    AsState { h with spaces := h.spaces.get a } ptr pds (extra + tick a) dirs :=
  ⟨hs.held.get ha, ⟨hs.dirs.pos, hs.dirs.once⟩, hs.agree⟩

theorem AsState.dec (hs : AsState h ptr pds (extra + tick a) dirs)
    (hr : (h.spaces.dec a).refs a ≠ 0) :
    AsState { h with spaces := h.spaces.dec a } ptr pds extra dirs :=
  ⟨hs.held.dec hr, ⟨hs.dirs.pos, hs.dirs.once⟩, hs.agree⟩

/-- An address space goes, and its directory is left. -/
theorem AsState.decFree (hs : AsState h ptr pds (extra + tick a) dirs)
    (hr : (h.spaces.dec a).refs a = 0) :
    AsState { h with spaces := (h.spaces.dec a).free a } ptr pds extra
      (dirs + tick (h.spaces.val a)) := by
  refine ⟨hs.held.dec_free hr, ⟨hs.dirs.pos, fun pd => ?_⟩, hs.agree⟩
  have honce := hs.dirs.once pd
  have hcount : spacesOf h.spaces pd =
      spacesOf ((h.spaces.dec a).free a) pd + tick (h.spaces.val a) pd := by
    unfold spacesOf
    conv_lhs => rw [← Finset.insert_erase hs.held.live_of_extra]
    rw [count_insert (Finset.notMem_erase a _), ite_beq_eq_tick]
    rfl
  show h.destroyed.count pd + spacesOf ((h.spaces.dec a).free a) pd +
    (dirs pd + tick (h.spaces.val a) pd) = made h.nextPd pd
  omega

/-- The directory number of an address space that is gone is no matter. -/
theorem AsState.setGone (hs : AsState h ptr pds extra dirs) (ha : a ∉ h.spaces.live) (v : Nat) :
    AsState { h with spaces := h.spaces.set a v } ptr pds extra dirs := by
  have hval : ∀ b ∈ h.spaces.live, (h.spaces.set a v).val b = h.spaces.val b :=
    fun b hb => update_of_ne (fun he : b = a => ha (he ▸ hb)) ..
  refine ⟨hs.held.set a v, ⟨hs.dirs.pos, fun pd => ?_⟩, fun y hy b hb => ?_⟩
  · rw [← hs.dirs.once pd]
    have hcount : spacesOf (h.spaces.set a v) pd = spacesOf h.spaces pd :=
      count_congr fun b hb => by rw [hval b hb]
    rw [hcount]
  · rw [hval b (hs.held.mem y hy b hb)]
    exact hs.agree y hy b hb

theorem AsState.install (hs : AsState h ptr pds (extra + tick a) dirs) (hx : x ∈ slots)
    (hp : ptr x = none) (ha : h.spaces.val a = pd) :
    AsState h (update ptr x (some a)) (update pds x pd) extra dirs := by
  refine ⟨hs.held.install hx hp, hs.dirs, fun y hy b hb => ?_⟩
  by_cases he : y = x
  · subst he
    rw [update_self, Option.some.injEq] at hb
    rw [update_self, ← hb]
    exact ha
  · rw [update_of_ne he] at hb ⊢
    exact hs.agree y hy b hb

/-- The task of slot `x` gives up its address space; what else it has is no matter. -/
theorem AsState.take (hs : AsState h ptr pds extra dirs) (hx : x ∈ slots) (hp : ptr x = some a)
    (pd : Nat) : AsState h (update ptr x none) (update pds x pd) (extra + tick a) dirs := by
  refine ⟨hs.held.take hx hp, hs.dirs, fun y hy b hb => ?_⟩
  by_cases he : y = x
  · subst he
    rw [update_self] at hb
    cases hb
  · rw [update_of_ne he] at hb ⊢
    exact hs.agree y hy b hb

/-- An address space has a directory. -/
theorem AsState.val_ne_zero (hs : AsState h ptr pds extra dirs) (ha : a ∈ h.spaces.live) :
    h.spaces.val a ≠ 0 := by
  intro h0
  have honce := hs.dirs.once 0
  have hpos : 0 < spacesOf h.spaces 0 := count_pos ha (by simp [h0])
  rw [made, if_neg (by simp)] at honce
  omega

end Moves

/-! ## A task that is not in the table yet -/

/-- The directory that a process has before it has an address space. -/
def looseDir (p : Task) : Nat → Nat :=
  if p.as = none ∧ p.pdPhys ≠ 0 then 0 + tick p.pdPhys else 0

/-- What process `p` holds is all that is held besides the tasks. -/
structure AsBuild (h : AsHeap) (ptr : Nat → Option Nat) (pds : Nat → Nat) (p : Task) : Prop where
  state : AsState h ptr pds (0 + ptrTick p.as) (looseDir p)
  mine : ∀ a, p.as = some a → h.spaces.val a = p.pdPhys

variable {b src : Nat} {child parent : Task}

variable {flags : CloneFlags} {tasks : Nat → Task} {q : Task}

section Build

variable {h : AsHeap} {ptr : Nat → Option Nat} {pds : Nat → Nat} {p : Task} {r : Resources}
  {m : Mem} {a : Nat}

/-- `process_release_user_space`, before there is an address space. -/
theorem AsBuild.release (hb : AsBuild h ptr pds p) (has : p.as = none) :
    AsState (processReleaseUserSpace h p).1 ptr pds 0 0 := by
  have hstate := hb.state
  unfold looseDir at hstate
  rw [has] at hstate
  unfold processReleaseUserSpace
  split
  next h0 =>
    rw [if_neg (by simp [h0])] at hstate
    exact hstate
  next h0 =>
    rw [if_pos ⟨rfl, h0⟩] at hstate
    simp only [has]
    exact AsState.destroy hstate

/-- `process_release_user_space`, of a process with an address space. -/
theorem processReleaseUserSpace_own (has : p.as = some a) (hpd : h.spaces.val a = p.pdPhys)
    (hne : p.pdPhys ≠ 0) :
    processReleaseUserSpace h p =
      ({ h.destroy p.pdPhys with spaces := h.spaces.set a 0 }, { p with pdPhys := 0 }) := by
  unfold processReleaseUserSpace
  rw [if_neg hne]
  simp only [has]
  rw [if_pos (show (h.destroy p.pdPhys).spaces.val a = p.pdPhys from hpd)]
  rfl

/-- `proc_resource_put_all`, of the last reference. -/
theorem putAs_last (has : p.as = some a) (hlast : (h.spaces.dec a).refs a = 0)
    (hpd : h.spaces.val a = p.pdPhys) (hne : p.pdPhys ≠ 0) :
    putAs h p =
      ({ h.destroy p.pdPhys with spaces := ((h.spaces.dec a).set a 0).free a },
        { p with as := none, pdPhys := 0 }) := by
  have hown := processReleaseUserSpace_own (h := { h with spaces := h.spaces.dec a }) has hpd hne
  unfold putAs
  simp only [has]
  rw [if_pos hlast, if_pos (show p.pdPhys = (h.spaces.dec a).val a from hpd.symm), hown]
  rfl

/-- `proc_resource_put_all` drops the reference, and destroys the directory with the last. -/
theorem AsState.putAs {extra dirs : Nat → Nat} (hs : AsState h ptr pds (extra + tick a) dirs)
    (has : p.as = some a) (hpd : h.spaces.val a = p.pdPhys) :
    AsState (putAs h p).1 ptr pds extra dirs := by
  have hne : p.pdPhys ≠ 0 := hpd ▸ hs.val_ne_zero hs.held.live_of_extra
  by_cases hr : (h.spaces.dec a).refs a = 0
  · rw [putAs_last has hr hpd hne]
    have hfree := hs.decFree hr
    rw [hpd] at hfree
    exact hfree.destroy.setGone (Finset.notMem_erase a _) 0
  · unfold Proc.putAs
    simp only [has]
    rw [if_neg hr]
    exact hs.dec hr

theorem AsBuild.putAs (hb : AsBuild h ptr pds p) (has : p.as = some a) :
    AsState (putAs h p).1 ptr pds 0 0 := by
  have hstate := hb.state
  rw [has, looseDir, if_neg (by simp [has])] at hstate
  exact AsState.putAs hstate has (hb.mine a has)

theorem putFilesOf_as (fd : FdHeap) (p : Task) :
    (putFilesOf fd p).2.as = p.as ∧ (putFilesOf fd p).2.pdPhys = p.pdPhys := by
  unfold putFilesOf
  split
  · split
    · exact ⟨rfl, rfl⟩
    · exact ⟨rfl, rfl⟩
  · exact ⟨rfl, rfl⟩

/-- `proc_resource_put_all` of a process that has its address space alone. -/
theorem AsBuild.putAll (hb : AsBuild r.as ptr pds p)
    (hlast : ∀ a, p.as = some a → r.as.spaces.refs a = 1) :
    AsBuild (procResourcePutAll r p).1.as ptr pds (procResourcePutAll r p).2 ∧
      (procResourcePutAll r p).2.as = none := by
  have hfiles := putFilesOf_as r.fd (Proc.putAs r.as p).2
  have has' : (procResourcePutAll r p).2.as = (Proc.putAs r.as p).2.as := hfiles.1
  have hpd' : (procResourcePutAll r p).2.pdPhys = (Proc.putAs r.as p).2.pdPhys := hfiles.2
  cases has : p.as with
  | none =>
    have hsame : Proc.putAs r.as p = (r.as, p) := by
      unfold Proc.putAs
      simp only [has]
    rw [hsame] at has' hpd'
    rw [show (procResourcePutAll r p).1.as = r.as from congrArg Prod.fst hsame]
    refine ⟨⟨?_, fun a ha => ?_⟩, has'.trans has⟩
    · rw [looseDir, has', hpd']
      exact hb.state
    · rw [hpd']
      exact hb.mine a (has'.symm.trans ha)
  | some a =>
    have hstate := hb.putAs has
    have hne : p.pdPhys ≠ 0 := by
      have hstate := hb.state
      rw [has] at hstate
      exact hb.mine a has ▸ hstate.val_ne_zero hstate.held.live_of_extra
    have heq := putAs_last has
      (show (r.as.spaces.dec a).refs a = 0 by rw [RefHeap.dec_refs_self, hlast a has])
      (hb.mine a has) hne
    rw [heq] at has' hpd'
    refine ⟨⟨?_, fun a ha => absurd (has'.symm.trans ha) (by simp)⟩, has'⟩
    rw [looseDir, has', hpd']
    exact hstate

/-- `process_fork_rollback_child` leaves nothing behind. -/
theorem AsBuild.forkRollback (hb : AsBuild r.as ptr pds p)
    (hlast : ∀ a, p.as = some a → r.as.spaces.refs a = 1) :
    AsState (processForkRollbackChild r p).as ptr pds 0 0 := by
  obtain ⟨hput, hnone⟩ := hb.putAll hlast
  exact hput.release hnone

theorem AsBuild.loose (hs : AsState h ptr pds 0 (0 + tick p.pdPhys)) (has : p.as = none)
    (hpd : p.pdPhys ≠ 0) : AsBuild h ptr pds p := by
  refine ⟨?_, fun a ha => absurd (has.symm.trans ha) (by simp)⟩
  rw [looseDir, if_pos ⟨has, hpd⟩, has]
  exact hs

theorem AsBuild.owner (hs : AsState h ptr pds (0 + tick a) 0) (has : p.as = some a)
    (hpd : h.spaces.val a = p.pdPhys) : AsBuild h ptr pds p := by
  refine ⟨?_, fun a' ha' => ?_⟩
  · rw [looseDir, if_neg (by simp [has]), has]
    exact hs
  · obtain rfl : a = a' := by simpa using has.symm.trans ha'
    exact hpd

/-- The result of `proc_resource_clone_for_fork` is all the child's, and its alone. -/
theorem procResourceCloneForFork_as
    (hs : AsState r.as ptr pds 0 (0 + tick child.pdPhys)) (hpd : child.pdPhys ≠ 0)
    (has : parent.as = some b) (hfiles : parent.files = some src)
    (hfresh : ∀ a, m.as = some a → a ∉ r.as.spaces.live) :
    let out := procResourceCloneForFork r m child parent
    AsBuild out.2.1.as ptr pds out.2.2 ∧ ∀ a, out.2.2.as = some a → out.2.1.as.spaces.refs a = 1 := by
  unfold procResourceCloneForFork
  simp only [has, hfiles]
  split
  · exact ⟨AsBuild.loose hs rfl hpd, nofun⟩
  next a ha =>
  split
  · exact ⟨AsBuild.loose hs rfl hpd, nofun⟩
  have hown := hs.create (hfresh a ha)
  have hval : (r.as.spaces.create a child.pdPhys).val a = child.pdPhys :=
    RefHeap.create_val_self ..
  have hone : ∀ a', some a = some a' → (r.as.spaces.create a child.pdPhys).refs a' = 1 := by
    rintro a' ⟨⟩
    exact update_self ..
  split
  · obtain ⟨hput, hnone⟩ := AsBuild.putAll
      (r := { r with as := { r.as with spaces := r.as.spaces.create a child.pdPhys } })
      (AsBuild.owner (p := { child with as := some a, files := none }) hown rfl hval) hone
    exact ⟨hput, fun a ha => absurd (hnone.symm.trans ha) (by simp)⟩
  next t _ =>
    split
    · exact ⟨AsBuild.owner hown rfl hval, hone⟩
    obtain ⟨hput, hnone⟩ := AsBuild.putAll
      (r := { as := { r.as with spaces := r.as.spaces.create a child.pdPhys }
              fd := fdTableDup r.fd t src })
      (AsBuild.owner (p := { child with as := some a, files := some t }) hown rfl hval) hone
    exact ⟨hput, fun a ha => absurd (hnone.symm.trans ha) (by simp)⟩

/-- What a call that makes a process leaves: nothing, or what the process holds. -/
def Leaves (ptr : Nat → Option Nat) (pds : Nat → Nat) (out : Bool × Resources × Task) : Prop :=
  if out.1 then AsBuild out.2.1.as ptr pds out.2.2 else AsState out.2.1.as ptr pds 0 0

theorem processFork_as (hs : AsState r.as ptr pds 0 0)
    (has : parent.as = some b) (hfiles : parent.files = some src)
    (hfresh : ∀ a, m.as = some a → a ∉ r.as.spaces.live) :
    Leaves ptr pds (processFork r m parent) := by
  unfold processFork
  split
  · exact hs
  dsimp only
  rw [if_pos (by simp [has])]
  have hclone : ∀ child : Task, child.pdPhys = r.as.newPd.1 →
      let out := procResourceCloneForFork { r with as := r.as.newPd.2 } m child parent
      AsBuild out.2.1.as ptr pds out.2.2 ∧
        ∀ a, out.2.2.as = some a → out.2.1.as.spaces.refs a = 1 := by
    intro child hpd
    exact procResourceCloneForFork_as
      (hpd ▸ hs.newPd) (hpd ▸ hs.dirs.pos.ne') has hfiles hfresh
  specialize hclone { parent with
    pdPhys := r.as.newPd.1, state := .unused, tid := 0, tgid := 0, group := none } rfl
  split
  next heq =>
    rw [heq] at hclone
    exact hclone.1.forkRollback hclone.2
  next heq =>
    rw [heq] at hclone
    split
    · exact hclone.1.forkRollback hclone.2
    · exact hclone.1

/-! ## clone -/

/-- The child shares the parent's address space or has a new one. -/
theorem cloneAs_as {pd : Nat} (hs : AsState r.as ptr pds 0 0)
    (hnone : child.as = none) (hb : b ∈ r.as.spaces.live) (hpd : r.as.spaces.val b = pd)
    (hfresh : ∀ a, m.as = some a → a ∉ r.as.spaces.live) :
    Leaves ptr pds (cloneAs r m flags child b pd) := by
  unfold cloneAs
  split
  · exact AsBuild.owner (hs.get hb) rfl hpd
  have hloose : AsBuild r.as.newPd.2 ptr pds { child with pdPhys := r.as.newPd.1 } :=
    AsBuild.loose hs.newPd hnone hs.dirs.pos.ne'
  unfold processCloneDuplicateAs
  split
  · exact hs
  dsimp only
  split
  · exact hloose.release hnone
  next a ha =>
    split
    · exact hloose.release hnone
    · exact AsBuild.owner (hs.newPd.create (hfresh a ha)) rfl (RefHeap.create_val_self ..)

/-- The descriptors of the child do not matter. -/
theorem cloneFiles_as (r : Resources) (m : Mem) (flags : CloneFlags) (child : Task) (src : Nat) :
    (cloneFiles r m flags child src).2.1.as = r.as ∧
      (cloneFiles r m flags child src).2.2.as = child.as ∧
      (cloneFiles r m flags child src).2.2.pdPhys = child.pdPhys := by
  unfold cloneFiles
  split
  · exact ⟨rfl, rfl, rfl⟩
  split
  · exact ⟨rfl, rfl, rfl⟩
  · exact ⟨rfl, rfl, rfl⟩

theorem AsBuild.congr (hb : AsBuild h ptr pds p) (has : q.as = p.as)
    (hpd : q.pdPhys = p.pdPhys) : AsBuild h ptr pds q := by
  refine ⟨?_, fun a ha => ?_⟩
  · rw [looseDir, has, hpd]
    exact hb.state
  · rw [hpd]
    exact hb.mine a (has ▸ ha)

/-- `process_clone_rollback`. -/
theorem AsBuild.cloneRollback (hb : AsBuild r.as ptr pds p) (has : ∃ a, p.as = some a) :
    AsState (processCloneRollback r p).as ptr pds 0 0 := by
  obtain ⟨a, ha⟩ := has
  exact hb.putAs ha

theorem processCloneResources_as
    (hs : AsState r.as ptr pds 0 0) (has : parent.as = some b) (hfiles : parent.files = some src)
    (hb : b ∈ r.as.spaces.live) (hpd : r.as.spaces.val b = parent.pdPhys)
    (hfresh : ∀ a, m.as = some a → a ∉ r.as.spaces.live) :
    Leaves ptr pds (processCloneResources r m flags child parent) := by
  unfold processCloneResources
  simp only [has, hfiles]
  have hclone : Leaves ptr pds
      (cloneAs r m flags { child with as := none, files := none } b parent.pdPhys) :=
    cloneAs_as hs rfl hb hpd hfresh
  split
  next heq =>
    rw [heq] at hclone
    exact hclone
  next r' child' heq =>
  rw [heq] at hclone
  have hsome := (cloneAs_ok heq).1
  obtain ⟨hras, hcas, hcpd⟩ := cloneFiles_as r' m flags child' src
  have hboth : AsBuild (cloneFiles r' m flags child' src).2.1.as ptr pds
      (cloneFiles r' m flags child' src).2.2 := by
    rw [hras]
    exact AsBuild.congr hclone hcas hcpd
  rw [← hcas] at hsome
  split
  next heq' =>
    rw [heq'] at hboth hsome
    exact hboth.cloneRollback hsome
  next heq' =>
    rw [heq'] at hboth hsome
    split
    · exact hboth
    · exact hboth.cloneRollback hsome

theorem processClone_as
    (hs : AsState r.as ptr pds 0 0) (has : parent.as = some b) (hfiles : parent.files = some src)
    (hb : b ∈ r.as.spaces.live) (hpd : r.as.spaces.val b = parent.pdPhys)
    (hfresh : ∀ a, m.as = some a → a ∉ r.as.spaces.live) :
    Leaves ptr pds (processClone r m flags parent) := by
  have hres : ∀ child : Task, Leaves ptr pds (processCloneResources r m flags child parent) :=
    fun _ => processCloneResources_as hs has hfiles hb hpd hfresh
  unfold processClone
  dsimp only
  specialize hres { parent with
    tid := 0
    tgid := if flags.thread then parent.tgid else 0
    group := if flags.thread then parent.group else none
    state := .unused }
  split
  next heq =>
    rw [heq] at hres
    exact hres
  next heq =>
    rw [heq] at hres
    split
    · exact AsBuild.cloneRollback hres (processCloneResources_ok heq).1
    · exact hres

/-! ## execve -/

theorem processCreateFile_as {image : Bool} {inherit : OpenFiles} (hs : AsState r.as ptr pds 0 0)
    (hfresh : ∀ a, m.as = some a → a ∉ r.as.spaces.live) :
    Leaves ptr pds (processCreateFile r m image inherit) := by
  have hloose : AsBuild r.as.newPd.2 ptr pds { pdPhys := r.as.newPd.1 } :=
    AsBuild.loose hs.newPd rfl hs.dirs.pos.ne'
  unfold processCreateFile
  split
  · exact hs
  dsimp only
  split
  · exact hloose.release rfl
  split
  next a t ha _ =>
    split
    · exact AsBuild.owner (hs.newPd.create (hfresh a ha)) rfl (RefHeap.create_val_self ..)
    · exact hloose.release rfl
  · exact hloose.release rfl

/-- The old address space of a task that has it alone goes with `execve`, and so does its
directory. -/
theorem AsState.execPut {extra dirs : Nat → Nat} (hs : AsState h ptr pds (extra + tick a) dirs)
    (has : p.as = some a) (hpd : h.spaces.val a = p.pdPhys) (hlast : (h.spaces.dec a).refs a = 0) :
    AsState (processExecCleanup (procResourcePutExecNonfiles h p) p.pdPhys) ptr pds extra dirs := by
  have hne : p.pdPhys ≠ 0 := hpd ▸ hs.val_ne_zero hs.held.live_of_extra
  have hput : procResourcePutExecNonfiles h p = { h with spaces := (h.spaces.dec a).free a } := by
    unfold procResourcePutExecNonfiles
    simp only [has, hlast, if_true]
  have hfree := hs.decFree hlast
  rw [hpd] at hfree
  rw [hput, processExecCleanup, if_pos hne]
  exact hfree.destroy

end Build

/-! ## Steps -/

section Steps

variable {s s' : TaskSys} {i : Nat} {p : Task}

theorem pdsOf_update (tasks : Nat → Task) (i : Nat) (p : Task) :
    pdsOf (update tasks i p) = update (pdsOf tasks) i p.pdPhys := by
  funext j
  unfold pdsOf
  by_cases hj : j = i
  · subst hj
    rw [update_self, update_self]
  · rw [update_of_ne hj, update_of_ne hj]

section

variable (hs : AsInv s) (hi : i < maxProcs)

include hs hi

/-- A task has an address space, with the directory that it has itself. -/
theorem AsInv.space (hst : (s.tasks i).state ≠ .unused) :
    ∃ a, (s.tasks i).as = some a ∧ ptrs Task.as s.tasks i = some a ∧ a ∈ s.as.spaces.live ∧
      s.as.spaces.val a = (s.tasks i).pdPhys := by
  obtain ⟨a, ha⟩ := (hs.ok.staffed i hi).as hst
  have hptr : ptrs Task.as s.tasks i = some a := (ptrs_of_ne hst).trans ha
  have hiS : i ∈ slots := Finset.mem_range.mpr hi
  exact ⟨a, ha, hptr, hs.as.held.mem i hiS a hptr, hs.as.agree i hiS a hptr⟩

omit hs hi

/-- A process comes into a slot whose pointer is gone. -/
theorem AsState.place {h : AsHeap} {a : Nat} (pd : Nat)
    (hs : AsState h (update (ptrs Task.as tasks) i none) (update (pdsOf tasks) i pd) (0 + tick a) 0)
    (hi : i < maxProcs) (hlive : p.state = .live) (has : p.as = some a)
    (hpd : h.spaces.val a = p.pdPhys) :
    AsState h (ptrs Task.as (update tasks i p)) (pdsOf (update tasks i p)) 0 0 := by
  have hin := hs.install (Finset.mem_range.mpr hi) (update_self ..) hpd
  rw [update_idem, update_idem] at hin
  rw [ptrs_update, if_neg (by simp [hlive]), has, pdsOf_update]
  exact hin

/-- A new process comes into a free slot. -/
theorem AsBuild.place {h : AsHeap}
    (hb : AsBuild h (ptrs Task.as tasks) (pdsOf tasks) p) (hsome : ∃ a, p.as = some a)
    (hi : i < maxProcs) (hunused : (tasks i).state = .unused) (hlive : q.state = .live) (has : q.as = p.as)
    (hpd : q.pdPhys = p.pdPhys) :
    AsState h (ptrs Task.as (update tasks i q)) (pdsOf (update tasks i q)) 0 0 := by
  obtain ⟨a, ha⟩ := hsome
  have hstate := hb.state
  rw [ha, looseDir, if_neg (by simp [ha])] at hstate
  refine AsState.place (pdsOf tasks i) ?_ hi hlive (has.trans ha) (hpd ▸ hb.mine a ha)
  rw [update_ptrs_unused hunused, update_eq_self]
  exact hstate

/-- The new task takes its address space. -/
theorem AsInv.added (hok : TaskOk s) (hchild : Addable s.groups child) {j : Nat}
    {s' : TaskSys} (hadd : schedAdd s child = (some j, s'))
    (hb : AsBuild s.as (ptrs Task.as s.tasks) (pdsOf s.tasks) child) : AsInv s' := by
  obtain ⟨hj, hunused, hok', has', -, p', htasks, hstate, hpas, hppd, -⟩ :=
    hok.schedAdd_some hchild hadd
  refine ⟨hok', ?_⟩
  rw [has', htasks]
  exact AsBuild.place hb hchild.as hj hunused hstate hpas hppd

include hs hi

theorem AsInv.syscallFork (hlive : (s.tasks i).state = .live)
    {m : Mem} (hm : m.Fresh s) (hslot : freeSlot s ≠ none) : AsInv (syscallFork s i m).2 := by
  obtain ⟨src, hsrc⟩ := (hs.ok.staffed i hi).files hlive
  obtain ⟨a, ha, -⟩ := hs.space hi (by simp [hlive])
  have hfork := processFork_as hs.as ha hsrc hm.1
  refine hs.ok.fork_rule hi hlive hslot hs (fun r child heq => ?_)
    fun r child j s' heq hchild hadd => ?_
  · rw [heq] at hfork
    exact ⟨hs.ok.of_eq rfl rfl, hfork⟩
  · rw [heq] at hfork
    exact AsInv.added (hs.ok.resources r) hchild hadd hfork

/-- The task of slot `i` goes, with its address space. -/
theorem AsInv.leave (hst : (s.tasks i).state ≠ .unused)
    (hok : TaskOk s') (htasks : s'.tasks = update s.tasks i p)
    (has : s'.as = (putAs s.as (s.tasks i)).1) (hp : p.state = .unused) : AsInv s' := by
  obtain ⟨a, ha, hptr, -, hpd⟩ := hs.space hi hst
  refine ⟨hok, ?_⟩
  rw [has, htasks, ptrs_update, if_pos hp, pdsOf_update]
  exact (hs.as.take (Finset.mem_range.mpr hi) hptr p.pdPhys).putAs ha hpd

theorem AsInv.schedMarkExit (hlive : (s.tasks i).state = .live) : AsInv (schedMarkExit s i) := by
  have hst : (s.tasks i).state ≠ .unused := by simp [hlive]
  refine ⟨hs.ok.schedMarkExit hi hlive, ?_⟩
  show AsState s.as (ptrs Task.as (update s.tasks i _)) (pdsOf (update s.tasks i _)) 0 0
  rw [ptrs_update, pdsOf_update]
  rw [if_neg (by simp), ← ptrs_of_ne (f := Task.as) hst, update_eq_self,
    show (s.tasks i).pdPhys = pdsOf s.tasks i from rfl, update_eq_self]
  exact hs.as

theorem AsInv.removed (h : s' = s ∨ Removed s i s') : AsInv s' := by
  rcases h with rfl | h
  · exact hs
  · obtain ⟨p, hp, htasks⟩ := h.tasks
    exact hs.leave hi h.used h.ok htasks (by rw [h.resources]; rfl) hp

theorem AsInv.schedWaitpid : AsInv (schedWaitpid s i) :=
  schedWaitpid_rule (fun _ hs _ hi => hs.removed hi (hs.ok.schedReap hi)) hs hi

theorem AsInv.syscallClone (hlive : (s.tasks i).state = .live)
    {m : Mem} (hm : m.Fresh s) (hpid : s.nextPid < 2147483648) (flags : CloneFlags)
    (parentTid childTid : Bool) : AsInv (syscallClone s i flags m parentTid childTid).2 := by
  obtain ⟨src, hsrc⟩ := (hs.ok.staffed i hi).files hlive
  obtain ⟨a, ha, -, hmem, hpd⟩ := hs.space hi (by simp [hlive])
  have hclone : Leaves (ptrs Task.as s.tasks) (pdsOf s.tasks)
      (processClone s.toResources m flags (s.tasks i)) :=
    processClone_as hs.as ha hsrc hmem hpd hm.1
  refine hs.ok.clone_rule hi hlive hpid hs (fun r child heq => ?_) (fun r child heq => ?_)
    (fun r child hchild hb => ⟨hs.ok.of_eq rfl rfl, AsBuild.cloneRollback hb hchild.as⟩)
    (fun r child j s' hchild hb hadd => AsInv.added (hs.ok.resources r) hchild hadd hb)
    fun s j hs hj => hs.removed hj (hs.ok.schedForceRemoveTask hj)
  · rw [heq] at hclone
    exact ⟨hs.ok.of_eq rfl rfl, hclone⟩
  · rw [heq] at hclone
    exact hclone

omit hs hi

/-- No other task has the address space of the task in slot `i`. -/
def Unshared (s : TaskSys) (i : Nat) : Prop :=
  ∀ j < maxProcs, j ≠ i → (s.tasks j).state ≠ .unused → (s.tasks j).as ≠ (s.tasks i).as

instance (s : TaskSys) (i : Nat) : Decidable (Unshared s i) :=
  inferInstanceAs (Decidable (∀ j < maxProcs, _))

/-- The reference of such a task is the only one, whatever process `a'` is being set up. -/
theorem Unshared.last {h : AsHeap} {a a' : Nat} (hown : Unshared s i)
    (hptr : ptrs Task.as s.tasks i = some a)
    (hh : Held h.spaces slots (update (ptrs Task.as s.tasks) i none) (0 + tick a' + tick a))
    (hne : a ≠ a') : (h.spaces.dec a).refs a = 0 := by
  have hst : (s.tasks i).state ≠ .unused := by
    intro hu
    rw [ptrs_of_unused hu] at hptr
    cases hptr
  rw [ptrs_of_ne hst] at hptr
  have hnone : count slots (fun x => update (ptrs Task.as s.tasks) i none x == some a) = 0 := by
    rw [count_eq_zero]
    intro x hx
    rw [beq_eq_false_iff_ne]
    by_cases hxi : x = i
    · rw [hxi, update_self]
      simp
    · rw [update_of_ne hxi]
      by_cases hu : (s.tasks x).state = .unused
      · rw [ptrs_of_unused hu]
        simp
      · rw [ptrs_of_ne hu, ← hptr]
        exact hown x (Finset.mem_range.mp hx) hxi hu
  have hrefs := hh.refs a hh.live_of_extra
  rw [hnone, Pi.add_apply, Pi.add_apply, tick_self, tick_ne hne] at hrefs
  rw [RefHeap.dec_refs_self, hrefs]
  rfl

theorem execPut_val (h : AsHeap) (p : Task) (pd : Nat) :
    (processExecCleanup (procResourcePutExecNonfiles h p) pd).spaces.val = h.spaces.val := by
  have hput : (procResourcePutExecNonfiles h p).spaces.val = h.spaces.val := by
    unfold procResourcePutExecNonfiles
    split
    · rfl
    dsimp only
    split
    · rfl
    · rfl
  unfold processExecCleanup
  split
  · exact hput
  · exact hput

include hs hi

theorem AsInv.syscallExecve (hlive : (s.tasks i).state = .live)
    {m : Mem} (hm : m.Fresh s) (hown : Unshared s i) (args image : Bool) :
    AsInv (syscallExecve s i m args image).2 := by
  have hst : (s.tasks i).state ≠ .unused := by simp [hlive]
  have hiS : i ∈ slots := Finset.mem_range.mpr hi
  obtain ⟨a, ha, hptr, hmem, hpd⟩ := hs.space hi hst
  have hcreate : Leaves (ptrs Task.as s.tasks) (pdsOf s.tasks) (processCreateFile s.toResources m image
      (procFdEntries s.fd (s.tasks i))) := processCreateFile_as hs.as hm.1
  refine hs.ok.execve_rule hi hst hs (fun r _ heq => ?_) fun r new a' t heq hma ha' _ hok => ?_
  · rw [heq] at hcreate
    exact ⟨hs.ok.resources r, hcreate⟩
  rw [heq] at hcreate
  have hnew := AsBuild.state hcreate
  rw [ha', looseDir, if_neg (by simp [ha'])] at hnew
  have hne : a ≠ a' := fun he => hm.1 a' hma (he ▸ hmem)
  have htake := hnew.take hiS hptr new.pdPhys
  have hput := htake.execPut ha (hnew.agree i hiS a hptr) (hown.last hptr htake.held hne)
  refine ⟨hok, AsState.place new.pdPhys hput hi rfl ha' ?_⟩
  rw [execved, execPut_val]
  exact AsBuild.mine hcreate a' ha'

end

end Steps

/-! ## Runs -/

/-- `execve` by a task that has its address space alone, and a place for every new task. -/
def TaskOp.Apart (s : TaskSys) : TaskOp → Prop
  | .execve i _ _ _ => Unshared s i
  | op => op.Placed s

theorem AsInv.onFiles {s : TaskSys} (hs : AsInv s) (i : Nat) (call : FdHeap → Nat → Int × FdHeap) :
    AsInv (onFiles s i call) := by
  obtain ⟨has, htasks, hgroups⟩ := onFiles_frame s i call
  refine ⟨hs.ok.of_eq htasks hgroups, ?_⟩
  rw [has, htasks]
  exact hs.as

theorem AsInv.step {s : TaskSys} (hs : AsInv s) (op : TaskOp) (hop : op.Allowed s)
    (hapart : op.Apart s) : AsInv (taskStep s op) := by
  obtain ⟨hi, hlive, hm⟩ := hop
  cases op with
  | close | dup | dup2 | fcntl | pipe | pipe2 | «open» =>
    unfold taskStep
    exact hs.onFiles _ _
  | fork i m => exact hs.syscallFork hi hlive hm hapart
  | clone i flags m parentTid childTid => exact hs.syscallClone hi hlive hm hapart flags parentTid childTid
  | execve i m args image => exact hs.syscallExecve hi hlive hm hapart args image
  | exit i => exact hs.schedMarkExit hi hlive
  | waitpid i target => exact hs.schedWaitpid hm

/-- Before the first process there is no directory. -/
theorem AsState.empty : AsState { spaces := RefHeap.empty 0, nextPd := 1, destroyed := [] }
    (fun _ => none) (fun _ => 0) 0 0 := by
  refine ⟨Held.empty 0, ⟨Nat.one_pos, fun pd => ?_⟩, nofun⟩
  rw [made, if_neg (by dsimp only; omega)]
  rfl

theorem AsInv.start : AsInv taskStart := by
  refine ⟨TaskOk.start, ?_⟩
  rw [ptrs_taskStart, show pdsOf taskStart.tasks = update (fun _ => 0) 0 1 from pdsOf_update ..]
  have hfirst := AsState.empty.newPd.create (Finset.notMem_empty 1)
  exact hfirst.install (by decide) rfl rfl

/-- The task of slot `i` refers to directory `pd`. -/
def Refers (s : TaskSys) (i pd : Nat) : Prop :=
  (s.tasks i).state ≠ .unused ∧ ∃ a, (s.tasks i).as = some a ∧ s.as.spaces.val a = pd

/-- A directory is destroyed once, when no task refers to it, and no task that can run has one
that is. -/
def DestroyedOnce (s : TaskSys) : Prop :=
  (∀ pd, 0 < pd → pd < s.as.nextPd →
    ((∃ i < maxProcs, Refers s i pd) → s.as.destroyed.count pd = 0) ∧
    ((¬∃ i < maxProcs, Refers s i pd) → s.as.destroyed.count pd = 1)) ∧
  ∀ i < maxProcs, (s.tasks i).state = .live → (s.tasks i).pdPhys ∉ s.as.destroyed

/-- A directory has an address space if a task refers to it. -/
theorem AsInv.spacesOf_pos {s : TaskSys} (hs : AsInv s) {pd : Nat} :
    0 < spacesOf s.as.spaces pd ↔ ∃ i < maxProcs, Refers s i pd := by
  constructor
  · intro hpos
    obtain ⟨a, ha⟩ := Finset.card_pos.mp hpos
    obtain ⟨hmem, hval⟩ := Finset.mem_filter.mp ha
    have hrefs := hs.as.held.refs a hmem
    have hcount : 0 < count slots fun x => ptrs Task.as s.tasks x == some a := by
      have := hs.as.held.pos a hmem
      rw [hrefs] at this
      exact this
    obtain ⟨i, hi⟩ := Finset.card_pos.mp hcount
    obtain ⟨hiS, hptr⟩ := Finset.mem_filter.mp hi
    have hptr : ptrs Task.as s.tasks i = some a := by simpa using hptr
    have hst : (s.tasks i).state ≠ .unused := by
      intro hu
      rw [ptrs_of_unused hu] at hptr
      cases hptr
    exact ⟨i, Finset.mem_range.mp hiS, hst, a, (ptrs_of_ne hst).symm.trans hptr, by simpa using hval⟩
  · rintro ⟨i, hi, hst, a, ha, hval⟩
    have hmem := hs.as.held.mem i (Finset.mem_range.mpr hi) a ((ptrs_of_ne hst).trans ha)
    exact count_pos hmem (by simp [hval])

theorem AsInv.destroyedOnce {s : TaskSys} (hs : AsInv s) : DestroyedOnce s := by
  have hone : ∀ pd, s.as.destroyed.count pd + spacesOf s.as.spaces pd = made s.as.nextPd pd :=
    fun pd => hs.as.dirs.once pd
  have hle : ∀ pd, made s.as.nextPd pd ≤ 1 := by
    intro pd
    unfold made
    split
    · exact Nat.le_refl 1
    · exact Nat.zero_le 1
  constructor
  · intro pd hpos hlt
    have hmade : made s.as.nextPd pd = 1 := if_pos ⟨hpos, hlt⟩
    have := hone pd
    constructor
    · intro href
      have := hs.spacesOf_pos.mpr href
      omega
    · intro hno
      have : ¬0 < spacesOf s.as.spaces pd := fun h => hno (hs.spacesOf_pos.mp h)
      omega
  · intro i hi hlive hmem
    have hst : (s.tasks i).state ≠ .unused := by simp [hlive]
    obtain ⟨a, ha, -, -, hval⟩ := hs.space hi hst
    have hpos := hs.spacesOf_pos.mpr ⟨i, hi, hst, a, ha, hval⟩
    have hcount := List.count_pos_iff.mpr hmem
    have := hone (s.tasks i).pdPhys
    have := hle (s.tasks i).pdPhys
    omega

/-- In every run whose `execve` calls are made by tasks with an address space of their own, and
whose `fork` calls find a free slot, a directory is destroyed once and in time. -/
theorem directory_destroyed_once {s : TaskSys}
    (h : Reach taskStep (fun s op => op.Allowed s ∧ op.Apart s) taskStart s) : DestroyedOnce s :=
  (h.inv AsInv AsInv.start fun _ op hs hop => hs.step op hop.1 hop.2).destroyedOnce

/-- A child runs another program: the directory that `fork` made is destroyed, the others are
not. -/
theorem directory_destroyed_once_fork_execve :
    let s := taskStep (taskStep taskStart (.fork 0 (memAt 2 2))) (.execve 1 (memAt 3 3) true true)
    DestroyedOnce s ∧ s.as.destroyed = [2] :=
  ⟨directory_destroyed_once (Reach.step _ (Reach.step _ Reach.start
    ⟨⟨by decide, by decide, show Mem.Fresh _ (memAt 2 2) by decide⟩,
      show freeSlot taskStart ≠ none by decide⟩)
    ⟨⟨by decide, by decide, show Mem.Fresh _ (memAt 3 3) by decide⟩, show Unshared _ 1 by decide⟩),
    by decide⟩

/-- The first process makes another one in its address space, in a group of its own. -/
def sharedSpace : TaskSys :=
  taskStep taskStart (.clone 0 { vm := true } (memAt 2 2) true true)

/-- Then it runs another program, and the directory of the other task is destroyed. -/
def execOverShared : TaskSys := taskStep sharedSpace (.execve 0 (memAt 3 3) true true)

theorem execve_destroys_shared_directory :
    Reach taskStep (fun s op => op.Allowed s) taskStart execOverShared ∧
      (execOverShared.tasks 1).state = .live ∧
      (execOverShared.tasks 1).pdPhys ∈ execOverShared.as.destroyed ∧
      ¬ DestroyedOnce execOverShared := by
  have hlive : (execOverShared.tasks 1).state = .live := by decide
  have hgone : (execOverShared.tasks 1).pdPhys ∈ execOverShared.as.destroyed := by decide
  refine ⟨.step _ (.step _ .start ⟨by decide, by decide, show Mem.Fresh _ (memAt 2 2) by decide⟩)
    ⟨by decide, by decide, show Mem.Fresh _ (memAt 3 3) by decide⟩, hlive, hgone, fun h => ?_⟩
  exact h.2 1 (by decide) hlive hgone

end Drunix.Proc
