import Drunix.Proc.Task

/-!
# The counts of a task group

`proc/task_group.c`, over the calls of `Task`. A group counts its slots (`refs`) and
those of them that are not zombies (`live_tasks`); it is in use while it has a slot.

`groups_counted`: both counts are right in every state, every slot agrees with its group about
the group's id, the ids are distinct, and a `fork` or `clone` that fails leaves the groups as
they were, in every run in which the ids from `g_next_pid` are no negative `int`s. An id is the
thread id of the group's first task, and that comes from a 32-bit counter that is not checked
against the ids in use: after 2 ^ 32 tasks a second group gets the id of one that is still there
(`group_id_twice`). From 2 ^ 31 on the callers take the id for a failure, and the child stays.
-/

namespace Drunix.Proc

open Lib Function

/-- The task counts as live in group `g`. -/
def Task.liveIn (p : Task) (g : Nat) : Bool := p.state == .live && p.group == some g

/-- The live tasks of group `g`. -/
def liveTasksOf (tasks : Nat → Task) (g : Nat) : Nat := count slots fun i => (tasks i).liveIn g

/-- The groups, their counts and their ids. -/
structure GroupOk (s : TaskSys) : Prop where
  ok : TaskOk s
  live : ∀ g ∈ s.groups.live, (s.groups.val g).liveTasks = liveTasksOf s.tasks g
  tgid : ∀ i < maxProcs, (s.tasks i).state ≠ .unused → ∀ g, (s.tasks i).group = some g →
    (s.groups.val g).tgid = (s.tasks i).tgid
  distinct : ∀ g ∈ s.groups.live, ∀ g' ∈ s.groups.live,
    (s.groups.val g).tgid = (s.groups.val g').tgid → g = g'
  below : ∀ g ∈ s.groups.live, (s.groups.val g).tgid < s.nextPid

section Moves

variable {s s' : TaskSys} {p : Task} {i g : Nat}

theorem liveTasksOf_update (tasks : Nat → Task) (hi : i < maxProcs) (p : Task) (g : Nat) :
    liveTasksOf (update tasks i p) g + (if (tasks i).liveIn g then 1 else 0) =
      liveTasksOf tasks g + (if p.liveIn g then 1 else 0) := by
  have hcount := count_update (Finset.mem_range.mpr hi)
    (q := fun j => (update tasks i p j).liveIn g)
    fun j _ hj => by rw [update_of_ne hj]
  rwa [update_self] at hcount

theorem GroupOk.of_eq (hs : GroupOk s) (ht : s'.tasks = s.tasks) (hg : s'.groups = s.groups)
    (hn : s'.nextPid = s.nextPid) : GroupOk s' :=
  ⟨hs.ok.of_eq ht hg, by rw [hg, ht]; exact hs.live, by rw [hg, ht]; exact hs.tgid,
    by rw [hg]; exact hs.distinct, by rw [hg, hn]; exact hs.below⟩

/-- Slot `i` gets the task `p`, and no group is new. -/
theorem GroupOk.place (hs : GroupOk s) (hi : i < maxProcs) (hok : TaskOk s')
    (ht : s'.tasks = update s.tasks i p) (hsub : ∀ g ∈ s'.groups.live, g ∈ s.groups.live)
    (htgid : ∀ g, (s'.groups.val g).tgid = (s.groups.val g).tgid) (hlive : ∀ g ∈ s'.groups.live,
      (s'.groups.val g).liveTasks + (if (s.tasks i).liveIn g then 1 else 0) =
        (s.groups.val g).liveTasks + (if p.liveIn g then 1 else 0))
    (hp : p.state ≠ .unused → ∀ g, p.group = some g → (s.groups.val g).tgid = p.tgid)
    (hn : s.nextPid ≤ s'.nextPid) : GroupOk s' := by
  refine ⟨hok, fun g hg => ?_, fun j hj hst g hg => ?_, fun g hg g' hg' he => ?_, fun g hg => ?_⟩
  · have hcount := liveTasksOf_update s.tasks hi p g
    have hold := hs.live g (hsub g hg)
    have := hlive g hg
    rw [ht]
    omega
  · rw [htgid]
    rw [ht] at hst hg ⊢
    by_cases hji : j = i
    · subst hji
      rw [update_self] at hst hg ⊢
      exact hp hst g hg
    · rw [update_of_ne hji] at hst hg ⊢
      exact hs.tgid j hj hst g hg
  · rw [htgid, htgid] at he
    exact hs.distinct g (hsub g hg) g' (hsub g' hg') he
  · rw [htgid]
    exact lt_of_lt_of_le (hs.below g (hsub g hg)) hn

/-- No task is in a group that is not in use. -/
theorem TaskOk.liveTasksOf_eq_zero (hs : TaskOk s) (hg : g ∉ s.groups.live) :
    liveTasksOf s.tasks g = 0 := by
  unfold liveTasksOf
  rw [count_eq_zero]
  intro i hi
  by_contra hlive
  rw [Bool.not_eq_false, Task.liveIn, Bool.and_eq_true, beq_iff_eq, beq_iff_eq] at hlive
  exact hg (hs.group_live (Finset.mem_range.mp hi) (by simp [hlive.1]) hlive.2)

theorem Task.liveIn_unused (h : p.state = .unused) (g : Nat) : p.liveIn g = false := by
  simp [Task.liveIn, h]

/-- The state after `sched_add` has put `p` into slot `j` and the new group `g`. -/
def addedAlone (s : TaskSys) (p : Task) (j g : Nat) : TaskSys :=
  { s with
    nextPid := u32 (s.nextPid + 1)
    groups := s.groups.create g ⟨s.nextPid, 1⟩
    tasks := update s.tasks j
      { p with tid := s.nextPid, tgid := s.nextPid, group := some g, state := .live } }

theorem schedAdd_alone {j : Nat} (hslot : freeSlot s = some j) (hfree : freeGroup s = some g)
    (hp : p.group = none) (htgid : p.tgid = 0) :
    schedAdd s p = (some j, addedAlone s p j g) := by
  have hfree' : freeGroup { s with nextPid := u32 (s.nextPid + 1) } = some g := hfree
  simp only [schedAdd, addedAlone, hslot, hp, hfree', htgid, if_true]

/-- A task in a group of its own, while the counter of ids does not wrap around. -/
theorem GroupOk.addedAlone {j : Nat} (hs : GroupOk s) (hok : TaskOk (addedAlone s p j g))
    (hj : j < maxProcs) (hunused : (s.tasks j).state = .unused) (hno : g ∉ s.groups.live)
    (hwrap : s.nextPid + 1 < 4294967296) : GroupOk (addedAlone s p j g) := by
  have hnext : u32 (s.nextPid + 1) = s.nextPid + 1 := u32_of_lt hwrap
  have hval : ∀ g' ∈ s.groups.live, (s.groups.create g ⟨s.nextPid, 1⟩).val g' = s.groups.val g' :=
    fun g' hg' => s.groups.create_val_ne _ fun he => hno (he ▸ hg')
  refine ⟨hok, fun g' hg' => ?_, fun k hk hst g' hg' => ?_, fun a ha b hb he => ?_, fun g' hg' => ?_⟩
  · -- the new group has the new task only
    have hcount := liveTasksOf_update s.tasks hj
      { p with tid := s.nextPid, tgid := s.nextPid, group := some g, state := .live } g'
    rw [Task.liveIn_unused hunused] at hcount
    rcases Finset.mem_insert.mp hg' with rfl | hg'
    · rw [hs.ok.liveTasksOf_eq_zero hno] at hcount
      show ((s.groups.create g' ⟨s.nextPid, 1⟩).val g').liveTasks = _
      rw [s.groups.create_val_self]
      simp [Task.liveIn] at hcount
      exact hcount.symm
    · show ((s.groups.create g ⟨s.nextPid, 1⟩).val g').liveTasks = _
      rw [hval g' hg', hs.live g' hg']
      have hne : ¬ g = g' := fun he => hno (he ▸ hg')
      simp [Task.liveIn, hne] at hcount
      exact hcount.symm
  · show ((s.groups.create g ⟨s.nextPid, 1⟩).val g').tgid = (update s.tasks j _ k).tgid
    change (update s.tasks j _ k).state ≠ _ at hst
    change (update s.tasks j _ k).group = _ at hg'
    by_cases hkj : k = j
    · subst hkj
      rw [update_self] at hg' ⊢
      cases hg'
      rw [s.groups.create_val_self]
    · rw [update_of_ne hkj] at hst hg' ⊢
      rw [hval g' (hs.ok.group_live hk hst hg')]
      exact hs.tgid k hk hst g' hg'
  · -- an old id is below the counter
    change ((s.groups.create g ⟨s.nextPid, 1⟩).val a).tgid =
      ((s.groups.create g ⟨s.nextPid, 1⟩).val b).tgid at he
    rcases Finset.mem_insert.mp ha with ha' | ha' <;> rcases Finset.mem_insert.mp hb with hb' | hb'
    · rw [ha', hb']
    · rw [ha', s.groups.create_val_self, hval b hb'] at he
      exact absurd he (Nat.ne_of_gt (hs.below b hb'))
    · rw [hb', s.groups.create_val_self, hval a ha'] at he
      exact absurd he (Nat.ne_of_lt (hs.below a ha'))
    · rw [hval a ha', hval b hb'] at he
      exact hs.distinct a ha' b hb' he
  · show ((s.groups.create g ⟨s.nextPid, 1⟩).val g').tgid < u32 (s.nextPid + 1)
    rw [hnext]
    rcases Finset.mem_insert.mp hg' with rfl | hg'
    · rw [s.groups.create_val_self]
      exact Nat.lt_succ_self _
    · rw [hval g' hg']
      exact Nat.lt_succ_of_lt (hs.below g' hg')

/-- `sched_add`, while the counter of ids does not wrap around. -/
theorem GroupOk.schedAdd (hs : GroupOk s) (hp : Addable s.groups p)
    (htgid : p.group = none → p.tgid = 0) (hwrap : s.nextPid + 1 < 4294967296) :
    GroupOk (schedAdd s p).2 := by
  rcases hs.ok.schedAdd hp with ⟨-, hadd⟩ | ⟨j, s', p', hadd, hslot, hok, -⟩
  · rw [hadd]
    exact hs
  obtain ⟨hj, hunused⟩ := freeSlot_some hslot
  cases hg : p.group with
  | none =>
    obtain ⟨g, hfree, -, hno⟩ := hs.ok.freeGroup_some hslot
    have heq := schedAdd_alone hslot hfree hg (htgid hg)
    rw [hadd] at heq
    obtain ⟨-, rfl⟩ := Prod.mk.inj heq
    rw [hadd]
    exact hs.addedAlone hok hj hunused hno hwrap
  | some g =>
    rw [hadd]
    simp only [Proc.schedAdd, hslot, hg] at hadd
    obtain ⟨-, rfl⟩ := Prod.mk.inj hadd
    refine hs.place hj hok rfl (fun _ h => h) (fun g' => ?_) (fun g' _ => ?_) ?_ ?_
    · show (update s.groups.val g _ g').tgid = _
      by_cases he : g' = g
      · rw [he, update_self]
      · rw [update_of_ne he]
    · show (update s.groups.val g _ g').liveTasks + _ = _
      rw [Task.liveIn_unused hunused]
      by_cases he : g' = g
      · rw [he, update_self]
        simp [Task.liveIn]
      · rw [update_of_ne he]
        simp [Task.liveIn, Ne.symm he]
    · intro _ g' hg'
      cases hg'
      rfl
    · show s.nextPid ≤ u32 (s.nextPid + 1)
      rw [u32_of_lt hwrap]
      exact Nat.le_succ _

theorem taskGroupRemoveTask_tgid (groups : RefHeap TaskGroup) (g g' : Nat) :
    ((taskGroupRemoveTask groups g).val g').tgid = (groups.val g').tgid := by
  show (update groups.val g _ g').tgid = _
  by_cases he : g' = g
  · rw [he, update_self]
  · rw [update_of_ne he]

section

variable (hs : GroupOk s) (hi : i < maxProcs) (hlive : (s.tasks i).state = .live)

include hs hi hlive

/-- A task that was live in its group no longer is. -/
theorem GroupOk.removeTask
    (hg : (s.tasks i).group = some g) (hp : ∀ g, p.liveIn g = false) (g' : Nat)
    (hg' : g' ∈ s.groups.live) :
    ((taskGroupRemoveTask s.groups g).val g').liveTasks + (if (s.tasks i).liveIn g' then 1 else 0) =
      (s.groups.val g').liveTasks + (if p.liveIn g' then 1 else 0) := by
  rw [hp]
  show (update s.groups.val g _ g').liveTasks + _ = _
  by_cases he : g' = g
  · have hpos : 0 < liveTasksOf s.tasks g' :=
      count_pos (Finset.mem_range.mpr hi) (by simp [Task.liveIn, hlive, hg, he])
    rw [← hs.live g' hg'] at hpos
    rw [he] at hpos ⊢
    rw [update_self]
    simp [Task.liveIn, hlive, hg]
    omega
  · rw [update_of_ne he]
    simp [Task.liveIn, hg, Ne.symm he]

omit hs hi hlive

theorem taskGroupPut_val (groups : RefHeap TaskGroup) (g : Nat) :
    (taskGroupPut groups g).val = groups.val := by
  unfold taskGroupPut
  split
  · rfl
  split
  · rfl
  · rfl

include hs hi hlive

theorem GroupOk.schedMarkExit : GroupOk (schedMarkExit s i) := by
  have hst : (s.tasks i).state ≠ .unused := by simp [hlive]
  have hok := hs.ok.schedMarkExit hi hlive
  obtain ⟨g, hg⟩ := (hs.ok.staffed i hi).group hst
  simp only [Proc.schedMarkExit, hg] at hok ⊢
  exact hs.place hi hok rfl (fun _ h => h) (taskGroupRemoveTask_tgid _ g)
    (hs.removeTask hi hlive hg fun _ => by simp [Task.liveIn])
    (fun _ g' hg' => hs.tgid i hi hst g' (hg.trans hg')) le_rfl

omit hs hi hlive

theorem GroupOk.removed (hs : GroupOk s) (hi : i < maxProcs) (h : s' = s ∨ Removed s i s') :
    GroupOk s' := by
  rcases h with rfl | h
  · exact hs
  obtain ⟨p, hp, htasks⟩ := h.tasks
  obtain ⟨g, hg, hgroups⟩ := h.groups
  have hnone : ∀ g, p.liveIn g = false := Task.liveIn_unused hp
  have hsub : ∀ g' ∈ s'.groups.live, g' ∈ s.groups.live := by
    intro g' hg'
    rw [hgroups] at hg'
    have hlive := taskGroupPut_live hg'
    split at hlive <;> exact hlive
  refine hs.place hi h.ok htasks hsub (fun g' => ?_) (fun g' hg' => ?_) (fun hne => absurd hp hne)
    h.nextPid.ge
  · rw [hgroups, taskGroupPut_val]
    split
    · exact taskGroupRemoveTask_tgid _ g g'
    · rfl
  · rw [hgroups, taskGroupPut_val]
    split
    next hlive => exact hs.removeTask hi hlive hg hnone g' (hsub g' hg')
    next hlive => simp [Task.liveIn, hlive, hp]

include hs hi hlive

theorem GroupOk.syscallFork
    {m : Mem} (hwrap : s.nextPid + 1 < 4294967296) : GroupOk (syscallFork s i m).2 := by
  obtain ⟨a, ha⟩ := (hs.ok.staffed i hi).as (by simp [hlive])
  refine syscallFork_rule hs (fun r child _ => hs.of_eq rfl rfl rfl) fun r child heq => ?_
  obtain ⟨hchild, -, htgid⟩ := processFork_ok ha heq
  have hs' : GroupOk { s with toResources := r } := hs.of_eq rfl rfl rfl
  exact hs'.schedAdd (hchild _) (fun _ => htgid) hwrap

theorem GroupOk.syscallClone {m : Mem} (flags : CloneFlags) (parentTid childTid : Bool)
    (hwrap : s.nextPid + 1 < 4294967296) :
    GroupOk (syscallClone s i flags m parentTid childTid).2 := by
  have hst : (s.tasks i).state ≠ .unused := by simp [hlive]
  have hnew : ∀ r child, processClone s.toResources m flags (s.tasks i) = (true, r, child) →
      GroupOk { s with toResources := r } ∧ Addable s.groups child ∧
        GroupOk (Proc.schedAdd { s with toResources := r } child).2 := by
    intro r child heq
    obtain ⟨-, -, hgroup, htgid⟩ := processClone_ok heq
    have hs' : GroupOk { s with toResources := r } := hs.of_eq rfl rfl rfl
    have hchild := hs.ok.clone_addable hi hst heq
    refine ⟨hs', hchild, hs'.schedAdd hchild (fun hnone => ?_) hwrap⟩
    -- a thread has its caller's group
    rw [htgid]
    split
    next hthread =>
      rw [hgroup, if_pos hthread] at hnone
      obtain ⟨g, hg⟩ := (hs.ok.staffed i hi).group hst
      cases hnone.symm.trans hg
    · rfl
  refine syscallClone_rule hs (fun r child _ => hs.of_eq rfl rfl rfl)
    (fun r child _ => hs.of_eq rfl rfl rfl) (fun r child s' heq hadd => ?_)
    (fun r child j s' heq hadd _ => ?_) fun r child j s' heq hadd => ?_
  · obtain ⟨hs', hchild, -⟩ := hnew r child heq
    obtain ⟨-, rfl⟩ := hs'.ok.schedAdd_none hchild hadd
    exact hs.of_eq rfl rfl rfl
  · obtain ⟨-, -, hadded⟩ := hnew r child heq
    rw [hadd] at hadded
    exact hadded.of_eq rfl rfl rfl
  · obtain ⟨hs', hchild, hadded⟩ := hnew r child heq
    rw [hadd] at hadded
    have hj := (hs'.ok.schedAdd_some hchild hadd).1
    exact ⟨hadded, hadded.removed hj (hadded.ok.schedForceRemoveTask hj)⟩

theorem GroupOk.syscallExecve {m : Mem} (args image : Bool) :
    GroupOk (syscallExecve s i m args image).2 := by
  have hst : (s.tasks i).state ≠ .unused := by simp [hlive]
  refine hs.ok.execve_rule hi hst hs (fun r _ _ => hs.of_eq rfl rfl rfl)
    fun r new a t _ _ _ _ hok => ?_
  refine hs.place hi hok rfl (fun _ h => h) (fun _ => rfl) (fun g _ => ?_)
    (fun _ g hg => hs.tgid i hi hst g hg) le_rfl
  simp [execved, Task.liveIn, hlive]

end

end Moves

/-! ## Runs -/

/-- The id of a new task is no negative `int`. -/
def TaskOp.Fits (s : TaskSys) : TaskOp → Prop
  | .fork _ _ | .clone _ _ _ _ _ => s.IdPositive
  | _ => True

theorem TaskSys.IdPositive.wrap {s : TaskSys} (h : s.IdPositive) : s.nextPid + 1 < 4294967296 := by
  unfold TaskSys.IdPositive at h
  omega

theorem GroupOk.onFiles {s : TaskSys} (hs : GroupOk s) (i : Nat) (call : FdHeap → Nat → Int × FdHeap) :
    GroupOk (onFiles s i call) := by
  unfold Proc.onFiles
  split
  · exact hs.of_eq rfl rfl rfl
  · exact hs

theorem GroupOk.step {s : TaskSys} (hs : GroupOk s) (op : TaskOp) (hop : op.Allowed s)
    (hfits : op.Fits s) : GroupOk (taskStep s op) := by
  obtain ⟨hi, hlive, hm⟩ := hop
  cases op with
  | close | dup | dup2 | fcntl | pipe | pipe2 | «open» =>
    unfold taskStep
    exact hs.onFiles _ _
  | fork i m => exact hs.syscallFork hi hlive hfits.wrap
  | clone i flags m parentTid childTid =>
    exact hs.syscallClone hi hlive flags parentTid childTid hfits.wrap
  | execve i m args image => exact hs.syscallExecve hi hlive args image
  | exit i => exact hs.schedMarkExit hi hlive
  | waitpid i target =>
    exact schedWaitpid_rule (fun _ hs _ hi => hs.removed hi (hs.ok.schedReap hi)) hs hm

theorem GroupOk.start : GroupOk taskStart := by
  refine ⟨TaskOk.start, by decide, ?_, by decide, by decide⟩
  intro i hi hst g hg
  by_cases hi0 : i = 0
  · subst hi0
    cases hg
    rfl
  · exact absurd (show (update (fun _ => ({} : Task)) 0 _ i).state = .unused by
      rw [update_of_ne hi0]) hst

/-- The counts of every group are right, a group is in use while a slot points to it, a slot
agrees with its group about the id, and the ids are distinct. -/
structure GroupsCounted (s : TaskSys) : Prop where
  refs : ∀ g ∈ s.groups.live, s.groups.refs g =
    count slots fun i => (s.tasks i).state != .unused && (s.tasks i).group == some g
  live : ∀ g ∈ s.groups.live, (s.groups.val g).liveTasks =
    count slots fun i => (s.tasks i).state == .live && (s.tasks i).group == some g
  distinct : ∀ g ∈ s.groups.live, ∀ g' ∈ s.groups.live,
    (s.groups.val g).tgid = (s.groups.val g').tgid → g = g'
  slot : ∀ i < maxProcs, (s.tasks i).state ≠ .unused →
    ∃ g ∈ s.groups.live, (s.tasks i).group = some g ∧ (s.groups.val g).tgid = (s.tasks i).tgid
  inUse : ∀ g, g ∈ s.groups.live ↔
    ∃ i < maxProcs, (s.tasks i).state ≠ .unused ∧ (s.tasks i).group = some g

theorem GroupOk.counted {s : TaskSys} (hs : GroupOk s) : GroupsCounted s := by
  have hptr : ∀ g i, (ptrs Task.group s.tasks i == some g) =
      ((s.tasks i).state != .unused && (s.tasks i).group == some g) := by
    intro g i
    unfold ptrs
    split
    next h => simp [h]
    next h => simp [h]
  have hrefs : ∀ g ∈ s.groups.live, s.groups.refs g =
      count slots fun i => (s.tasks i).state != .unused && (s.tasks i).group == some g := by
    intro g hg
    rw [hs.ok.groups.refs g hg, Pi.zero_apply, Nat.add_zero]
    exact count_congr fun i _ => hptr g i
  refine ⟨hrefs, hs.live, hs.distinct, fun i hi hst => ?_, fun g => ⟨fun hg => ?_, ?_⟩⟩
  · obtain ⟨g, hg⟩ := (hs.ok.staffed i hi).group hst
    exact ⟨g, hs.ok.group_live hi hst hg, hg, hs.tgid i hi hst g hg⟩
  · -- a group in use has a reference, so there is a slot that holds it
    by_contra hno
    have hpos := hs.ok.groups.pos g hg
    rw [hrefs g hg, count_eq_zero.mpr] at hpos
    · exact absurd hpos (Nat.lt_irrefl 0)
    · intro i hi
      by_contra htrue
      rw [Bool.not_eq_false, Bool.and_eq_true, bne_iff_ne, beq_iff_eq] at htrue
      exact hno ⟨i, Finset.mem_range.mp hi, htrue⟩
  · rintro ⟨i, hi, hst, hg⟩
    exact hs.ok.group_live hi hst hg

/-! ## Calls that fail -/

/-- The slots that are not free are as they were. -/
def SameSlots (s s' : TaskSys) : Prop :=
  ∀ i, s'.tasks i = s.tasks i ∨ (s.tasks i).state = .unused ∧ (s'.tasks i).state = .unused

/-- The groups in use and their counts are as they were. -/
structure SameGroups (s s' : TaskSys) : Prop where
  live : s'.groups.live = s.groups.live
  refs : ∀ g ∈ s.groups.live, s'.groups.refs g = s.groups.refs g
  val : ∀ g ∈ s.groups.live, s'.groups.val g = s.groups.val g

section Failed

variable {s s' : TaskSys} {i : Nat} {m : Mem} {flags : CloneFlags} {parentTid childTid : Bool}

/-- The slots tell the groups. -/
theorem GroupsCounted.sameGroups (hs : GroupsCounted s) (hs' : GroupsCounted s')
    (h : SameSlots s s') : SameGroups s s' := by
  have hlive : s'.groups.live = s.groups.live := by
    ext g
    rw [hs.inUse, hs'.inUse]
    refine exists_congr fun i => and_congr_right fun _ => ?_
    rcases h i with he | ⟨hu, hu'⟩
    · rw [he]
    · simp [hu, hu']
  have hcount : ∀ st : TaskState → Bool, st .unused = false → ∀ g,
      (count slots fun i => st (s'.tasks i).state && (s'.tasks i).group == some g) =
        count slots fun i => st (s.tasks i).state && (s.tasks i).group == some g := by
    refine fun st hst g => count_congr fun i _ => ?_
    rcases h i with he | ⟨hu, hu'⟩
    · rw [he]
    · rw [hu, hu', hst, Bool.false_and, Bool.false_and]
  refine ⟨hlive, fun g hg => ?_, fun g hg => ?_⟩
  · rw [hs.refs g hg, hs'.refs g (hlive ▸ hg)]
    exact hcount (· != .unused) rfl g
  · have hcounts : (s'.groups.val g).liveTasks = (s.groups.val g).liveTasks := by
      rw [hs.live g hg, hs'.live g (hlive ▸ hg)]
      exact hcount (· == .live) rfl g
    have htgid : (s'.groups.val g).tgid = (s.groups.val g).tgid := by
      obtain ⟨i, hi, hst, hgroup⟩ := (hs.inUse g).mp hg
      have hi' : s'.tasks i = s.tasks i := (h i).resolve_right fun hu => hst hu.1
      obtain ⟨_, -, hg1, htg1⟩ := hs.slot i hi hst
      obtain ⟨_, -, hg2, htg2⟩ := hs'.slot i hi (hi' ▸ hst)
      rw [hi'] at hg2 htg2
      cases hgroup.symm.trans hg1
      cases hgroup.symm.trans hg2
      exact htg2.trans htg1.symm
    exact TaskGroup.ext htgid hcounts

theorem SameSlots.resources (s : TaskSys) (r : Resources) :
    SameSlots s { s with toResources := r } := fun _ => .inl rfl

variable (hs : TaskOk s) (hi : i < maxProcs) (hlive : (s.tasks i).state = .live)
  (hpid : s.IdPositive)

include hs hi hlive hpid

theorem syscallFork_failed (hfail : (syscallFork s i m).1 < 0) :
    SameSlots s (syscallFork s i m).2 := by
  obtain ⟨a, ha⟩ := (hs.staffed i hi).as (by simp [hlive])
  generalize hr : syscallFork s i m = r at hfail ⊢
  unfold syscallFork at hr
  split at hr
  · exact hr ▸ .resources s _
  split at hr
  next r' child heq => exact hr ▸ .resources s r'
  next r' child heq =>
  have hchild := (processFork_ok ha heq).1 s.groups
  split at hr
  next s' hadd =>
    obtain ⟨-, rfl⟩ := (hs.resources r').schedAdd_none hchild hadd
    exact hr ▸ .resources s r'
  next j s' hadd =>
    -- the new task has an id, which is the result
    rw [(hs.resources r').addNegative_eq_false hchild hpid hadd] at hr
    rw [← hr, if_neg (by simp)] at hfail
    exact absurd hfail (by simp)

/-- The task that `clone` takes away again leaves its slot free. -/
theorem syscallClone_failed (hfail : (syscallClone s i flags m parentTid childTid).1 < 0) :
    SameSlots s (syscallClone s i flags m parentTid childTid).2 := by
  have hst : (s.tasks i).state ≠ .unused := by simp [hlive]
  generalize hr : syscallClone s i flags m parentTid childTid = r at hfail ⊢
  unfold syscallClone at hr
  split at hr
  · exact hr ▸ .resources s _
  split at hr
  · exact hr ▸ .resources s _
  split at hr
  · exact hr ▸ .resources s _
  split at hr
  · exact hr ▸ .resources s _
  split at hr
  next r' child heq => exact hr ▸ .resources s r'
  next r' child heq =>
  have hchild := hs.clone_addable hi hst heq
  split at hr
  · exact hr ▸ .resources s _
  split at hr
  next s' hadd =>
    obtain ⟨-, rfl⟩ := (hs.resources r').schedAdd_none hchild hadd
    exact hr ▸ .resources s _
  next j s' hadd =>
  obtain ⟨-, hunused, -, -, -, p', htasks, hp', -⟩ := (hs.resources r').schedAdd_some hchild hadd
  rw [(hs.resources r').addNegative_eq_false hchild hpid hadd, if_neg (by simp)] at hr
  split at hr
  · have hremoved : (schedForceRemoveTask s' j).tasks = update s'.tasks j {} := by
      unfold schedForceRemoveTask
      rw [if_neg (by rw [htasks, update_self, hp']; simp)]
    subst hr
    intro k
    show (schedForceRemoveTask s' j).tasks k = _ ∨ _
    rw [hremoved, htasks, update_idem]
    by_cases hk : k = j
    · subst hk
      exact .inr ⟨hunused, by rw [update_self]⟩
    · exact .inl (update_of_ne hk _ _)
  · rw [← hr] at hfail
    exact absurd hfail (by simp)

end Failed

/-- The call is a `fork` or `clone` that returns an error. -/
def TaskOp.Fails (s : TaskSys) : TaskOp → Prop
  | .fork i m => (syscallFork s i m).1 < 0
  | .clone i flags m parentTid childTid => (syscallClone s i flags m parentTid childTid).1 < 0
  | _ => False

theorem TaskOk.failed {s : TaskSys} (hs : TaskOk s) {op : TaskOp} (hop : op.Allowed s)
    (hfits : op.Fits s) (hfail : op.Fails s) : SameSlots s (taskStep s op) := by
  obtain ⟨hi, hlive, -⟩ := hop
  cases op with
  | fork i m => exact syscallFork_failed hs hi hlive hfits hfail
  | clone i flags m parentTid childTid => exact syscallClone_failed hs hi hlive hfits hfail
  | _ => exact hfail.elim

/-- In every run in which the ids are no negative `int`s, the counts and the ids of the groups
are right in every state, and a `fork` or `clone` that fails neither leaks nor releases one. -/
theorem groups_counted {s : TaskSys}
    (h : Reach taskStep (fun s op => op.Allowed s ∧ op.Fits s) taskStart s) :
    GroupsCounted s ∧
      ∀ op : TaskOp, op.Allowed s → op.Fits s → op.Fails s → SameGroups s (taskStep s op) := by
  have hs := h.inv GroupOk GroupOk.start fun _ op hs hop => hs.step op hop.1 hop.2
  exact ⟨hs.counted, fun op hop hfits hfail =>
    hs.counted.sameGroups (hs.step op hop hfits).counted (hs.ok.failed hop hfits hfail)⟩

/-- A thread, a child process, and the end of the thread: the group of the first process counts
two slots and one live task, and the child has a group of its own. -/
theorem groups_counted_thread_fork :
    let thread : CloneFlags := { vm := true, files := true, sighand := true, thread := true }
    let s := taskStep (taskStep (taskStep taskStart (.clone 0 thread (memAt 2 2) false false))
      (.fork 0 (memAt 3 3))) (.exit 1)
    GroupsCounted s ∧ s.groups.refs 0 = 2 ∧ (s.groups.val 0).liveTasks = 1 ∧
      s.groups.refs 1 = 1 :=
  ⟨And.left (groups_counted (Reach.step (TaskOp.exit 1) (Reach.step (TaskOp.fork 0 (memAt 3 3))
    (Reach.step (TaskOp.clone 0 _ (memAt 2 2) false false) Reach.start
    ⟨⟨by decide, by decide, show Mem.Fresh _ (memAt 2 2) by decide⟩,
      show taskStart.nextPid < 2147483648 by decide⟩)
    ⟨⟨by decide, by decide, show Mem.Fresh _ (memAt 3 3) by decide⟩,
      show (taskStep taskStart _).nextPid < 2147483648 by decide⟩)
    ⟨⟨by decide, by decide, trivial⟩, trivial⟩)), by decide, by decide, by decide⟩

/-! ## The counter wraps around -/

section Wrap

variable {s s' : TaskSys} {st : TaskState} {p : Task} {g : Nat}

/-- The first process, and slot 1 in the state `st`; there are no other tasks. -/
structure Family (s : TaskSys) (st : TaskState) : Prop where
  ok : TaskOk s
  first : s.tasks 0 = taskStart.tasks 0
  tgid : (s.groups.val 0).tgid = 1
  child : (s.tasks 1).state = st
  rest : ∀ i < maxProcs, 2 ≤ i → (s.tasks i).state = .unused

theorem Family.start : Family taskStart .unused := by
  refine ⟨TaskOk.start, rfl, rfl, rfl, fun i _ hi => ?_⟩
  show (update (fun _ => ({} : Task)) 0 _ i).state = .unused
  rw [update_of_ne (by omega)]

theorem Family.place (hs : Family s st) (hok : TaskOk s') (ht : s'.tasks = update s.tasks 1 p)
    (hg : (s'.groups.val 0).tgid = (s.groups.val 0).tgid) : Family s' p.state := by
  refine ⟨hok, ?_, hg.trans hs.tgid, ?_, fun i hi h2 => ?_⟩
  · rw [ht]
    exact hs.first
  · rw [ht, update_self]
  · rw [ht, update_of_ne (by omega)]
    exact hs.rest i hi h2

theorem Family.live (hs : Family s st) : (s.tasks 0).state = .live := by
  rw [hs.first]
  rfl

/-- The group of the first process. -/
theorem Family.group_live (hs : Family s st) : 0 ∈ s.groups.live :=
  hs.ok.group_live (i := 0) (by decide) (by rw [hs.first]; decide) (by rw [hs.first]; rfl)

/-- `fork` by a process that is alone. -/
theorem Family.fork (hs : Family s .unused) : ∃ m r child g, TaskOp.Allowed s (.fork 0 m) ∧ g ≠ 0 ∧
    taskStep s (.fork 0 m) = addedAlone { s with toResources := r } child 1 g ∧
    Family (addedAlone { s with toResources := r } child 1 g) .live := by
  obtain ⟨a, ha⟩ := Infinite.exists_notMem_finset s.as.spaces.live
  obtain ⟨t, ht⟩ := Infinite.exists_notMem_finset s.fd.files.live
  have hslot : freeSlot s = some 1 := by
    have hrange : List.range maxProcs = 0 :: 1 :: List.range' 2 (maxProcs - 2) := rfl
    simp [freeSlot, hrange, hs.live, hs.child]
  obtain ⟨g, hgroup, -, hno⟩ := hs.ok.freeGroup_some hslot
  have hg0 : g ≠ 0 := fun he => hno (he ▸ hs.group_live)
  obtain ⟨r, child, hfork⟩ : ∃ r child,
      processFork s.toResources (memAt a t) (s.tasks 0) = (true, r, child) := by
    rw [hs.first]
    exact ⟨_, _, rfl⟩
  obtain ⟨hchild, hcgroup, hctgid⟩ := processFork_ok (by rw [hs.first]; rfl) hfork
  have hadd : schedAdd { s with toResources := r } child =
      (some 1, addedAlone { s with toResources := r } child 1 g) :=
    schedAdd_alone hslot hgroup hcgroup hctgid
  obtain ⟨-, -, hok, -⟩ := (hs.ok.resources r).schedAdd_some (hchild _) hadd
  refine ⟨memAt a t, r, child, g, ⟨(by decide : 0 < maxProcs), hs.live, ?_, ?_⟩, hg0, ?_,
    hs.place hok rfl ?_⟩
  · rintro _ ⟨⟩
    exact ha
  · rintro _ ⟨⟩
    exact ht
  · show (syscallFork s 0 (memAt a t)).2 = _
    simp only [syscallFork, hfork, hadd]
    rfl
  · exact congrArg TaskGroup.tgid (s.groups.create_val_ne _ (Ne.symm hg0))

theorem Family.exit (hs : Family s .live) (hg : (s.tasks 1).group = some g) :
    Family (taskStep s (.exit 1)) .zombie := by
  refine hs.place (hs.ok.schedMarkExit (by decide) hs.child) rfl ?_
  simp only [Proc.schedMarkExit, hg]
  exact taskGroupRemoveTask_tgid _ g 0

/-- `waitpid` reaps the child: its group has no other task. -/
theorem Family.waitpid (hs : Family s .zombie) (hg : (s.tasks 1).group = some g) (hg0 : g ≠ 0)
    (htid : (s.tasks 1).tgid = (s.tasks 1).tid) : Family (taskStep s (.waitpid 0 1)) .unused ∧
      (taskStep s (.waitpid 0 1)).nextPid = s.nextPid := by
  have hfirst : (s.tasks 0).group ≠ some g := by
    rw [hs.first]
    exact fun he => hg0 (Option.some.inj he).symm
  have hnoLive : schedGroupHasLiveSlots s g = false := by
    refine List.any_eq_false.mpr fun i hi => ?_
    rcases i with _ | _ | i
    · simp [hfirst]
    · simp [hs.child]
    · simp [hs.rest (i + 2) (List.mem_range.mp hi) (by omega)]
  have hreaped : Family (schedReap s 1) .unused := by
    have hok := (hs.ok.schedReap (i := 1) (by decide)).elim (fun he => he.symm ▸ hs.ok) Removed.ok
    simp only [Proc.schedReap, hs.child, hg, ne_eq, not_true_eq_false, if_false] at hok ⊢
    refine hs.place hok rfl ?_
    show ((taskGroupPut s.groups g).val 0).tgid = _
    rw [taskGroupPut_val]
  have hstep : taskStep s (.waitpid 0 1) = schedReapGroup s g := by
    simp [taskStep, schedWaitpid, htid, hs.child, hg, hnoLive]
  have hgroup : schedReapGroup s g = schedReap s 1 := by
    refine foldl_range_inv (n := maxProcs) (fun k s' => s' = if k ≤ 1 then s else schedReap s 1)
      rfl fun k hk s' hs' => ?_
    rcases k with _ | _ | k
    · rw [hs']
      exact if_neg hfirst
    · rw [hs']
      exact if_pos hg
    · rw [hs']
      have hunused := hreaped.rest (k + 2) hk (by omega)
      show (if _ then Proc.schedReap (Proc.schedReap s 1) (k + 2) else Proc.schedReap s 1) = _
      rw [show Proc.schedReap (Proc.schedReap s 1) (k + 2) = Proc.schedReap s 1 from
        if_pos (by rw [hunused]; decide), ite_self]
      rfl
  rw [hstep, hgroup]
  refine ⟨hreaped, ?_⟩
  unfold Proc.schedReap
  dsimp only
  split <;> rfl

/-- Child after child uses up the ids. -/
theorem alone_reach (n : Nat) : ∃ s, Reach taskStep (fun s op => op.Allowed s) taskStart s ∧
    Family s .unused ∧ s.nextPid = u32 (n + 2) := by
  induction n with
  | zero => exact ⟨taskStart, .start, Family.start, rfl⟩
  | succ n ih =>
    obtain ⟨s, hreach, hs, hn⟩ := ih
    obtain ⟨m, r, child, g, hfork, hg0, hstep, hforked⟩ := hs.fork
    rw [← hstep] at hforked
    have hgroup : ((taskStep s (.fork 0 m)).tasks 1).group = some g := by
      rw [hstep]
      rfl
    have hended := hforked.exit hgroup
    obtain ⟨halone, hkept⟩ := hended.waitpid hgroup hg0 (by
      show ((taskStep s (.fork 0 m)).tasks 1).tgid = ((taskStep s (.fork 0 m)).tasks 1).tid
      rw [hstep]
      rfl)
    have hexit : TaskOp.Allowed (taskStep s (.fork 0 m)) (.exit 1) :=
      ⟨(by decide : 1 < maxProcs), hforked.child, trivial⟩
    have hwait : TaskOp.Allowed (taskStep (taskStep s (.fork 0 m)) (.exit 1)) (.waitpid 0 1) :=
      ⟨(by decide : 0 < maxProcs), hended.live, (by decide : 1 < maxProcs)⟩
    refine ⟨_, .step _ (.step _ (.step _ hreach hfork) hexit) hwait, halone, ?_⟩
    rw [hkept]
    show (taskStep s (.fork 0 m)).nextPid = _
    rw [hstep]
    show u32 (s.nextPid + 1) = _
    rw [hn]
    simp only [u32]
    omega

/-- After 2 ^ 32 - 1 children the next one gets id 1, which is that of the first process. -/
theorem group_id_twice : ∃ s, Reach taskStep (fun s op => op.Allowed s) taskStart s ∧
    ∃ g g', g ≠ g' ∧ g ∈ s.groups.live ∧ g' ∈ s.groups.live ∧ (s.groups.val g).tgid = 1 ∧
      (s.groups.val g').tgid = 1 ∧ ¬ GroupsCounted s := by
  obtain ⟨s, hreach, hs, hn⟩ := alone_reach 4294967295
  obtain ⟨m, r, child, g, hfork, hg0, hstep, hforked⟩ := hs.fork
  have htgid : ((addedAlone { s with toResources := r } child 1 g).groups.val g).tgid = 1 := by
    show ((s.groups.create g ⟨s.nextPid, 1⟩).val g).tgid = 1
    rw [s.groups.create_val_self]
    exact hn
  have hmem : g ∈ (addedAlone { s with toResources := r } child 1 g).groups.live :=
    Finset.mem_insert_self ..
  refine ⟨_, hstep ▸ .step (.fork 0 m) hreach hfork, 0, g, Ne.symm hg0, hforked.group_live, hmem,
    hforked.tgid, htgid, fun hcounted => ?_⟩
  exact hg0 (hcounted.distinct g hmem 0 hforked.group_live (htgid.trans hforked.tgid.symm))

end Wrap

end Drunix.Proc
