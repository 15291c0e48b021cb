import Drunix.Proc.AddrLife

/-!
# Open ends are counted

Over the calls of `Proc.Task`: for every pipe the counts of its read and write ends are the
numbers of descriptors for them in the tables that exist, a pipe is in use as long as there
is one, and a window-manager connection has as many references as descriptors
(`open_ends_counted`).

This holds in every run in which `pipe` and `pipe2` are not called with exactly one
descriptor free, `fork` is not called with the process table full, and `clone` is not called
when the next id is a negative `int`. `pipe_leaks_write_end`
is a run with such a call of `pipe`: it has no room for the second descriptor, closes the
first one, and leaves the write end counted with no descriptor for it.

The invariant `FdInv` is about the counts of the tables (`Lib.Held`) and about those of the
ends (`Counted`). A reference that a call has made and not yet given to a task, or taken from
one and not yet dropped, is the `extra` of `FdState`.
-/

namespace Drunix.Proc

open Lib Function

/-- The counts of the tables are right for the pointers `ptr` of the tasks and the `extra`
references besides, and those of the ends for the tables. -/
structure FdState (h : FdHeap) (ptr : Nat → Option Nat) (extra : Nat → Nat) : Prop where
  held : Held h.files slots ptr extra
  counted : Counted h.files h.ends 0

/-- The invariant. -/
structure FdInv (s : TaskSys) : Prop where
  ok : TaskOk s
  fd : FdState s.fd (ptrs Task.files s.tasks) 0

variable {a : Nat} {parent : Task}

section State

variable {h h' : FdHeap} {ptr : Nat → Option Nat} {extra : Nat → Nat} {t src x : Nat}
  {r : Resources} {p : Task} {m : Mem}

theorem FdState.good (hf : FdState h ptr 0) (ht : t ∈ h.files.live) : h.Good t := by
  refine ⟨ht, ?_, hf.counted⟩
  calc h.files.live.card ≤ (slots.filter fun x => (ptr x).isSome).card := hf.held.card_live_le
    _ ≤ slots.card := Finset.card_filter_le _ _
    _ = maxProcs := Finset.card_range maxProcs

/-- A call that changes entries only. -/
theorem FdState.entries (hf : FdState h ptr 0) (hfiles : h.SameTables h')
    (hc : Counted h'.files h'.ends 0) : FdState h' ptr 0 := by
  obtain ⟨v, hv⟩ := hfiles
  refine ⟨?_, hc⟩
  rw [hv]
  exact ⟨hf.held.mem, hf.held.absent, hf.held.refs, hf.held.pos⟩

theorem FdState.put (hf : FdState h ptr (extra + tick t)) : FdState (fdTablePut h t) ptr extra := by
  refine ⟨?_, hf.counted.fdTablePut hf.held.live_of_extra⟩
  unfold fdTablePut
  dsimp only
  split
  next hr => exact hf.held.dec_free hr
  next hr => exact hf.held.dec hr

theorem FdState.putFiles {q : Option Nat} (hf : FdState h ptr (extra + ptrTick q)) :
    FdState (procResourcePutFiles h q) ptr extra := by
  cases q with
  | none => exact hf
  | some t => exact hf.put

theorem FdState.dup (hf : FdState h ptr 0) (hsrc : src ∈ h.files.live) (ht : t ∉ h.files.live) :
    FdState (fdTableDup h t src) ptr (0 + tick t) :=
  ⟨hf.held.create ht _, (hf.good hsrc).fdTableDup ht⟩

theorem FdState.get (hf : FdState h ptr 0) (ht : t ∈ h.files.live) :
    FdState { h with files := h.files.get t } ptr (0 + tick t) :=
  ⟨hf.held.get ht, ⟨hf.counted.ok, hf.counted.opens⟩⟩

theorem FdState.fdCloseOne {fd : Nat} (hf : FdState h ptr extra) (ht : t ∈ h.files.live)
    (hfd : fd < maxFds) : FdState (fdCloseOne h t fd) ptr extra :=
  ⟨hf.held.set t _, hf.counted.fdCloseOne ht hfd⟩

/-- The task of slot `x` gives up its table. -/
theorem FdState.release (hf : FdState h ptr extra) (hx : x ∈ slots) :
    FdState (procResourcePutFiles h (ptr x)) (update ptr x none) extra := by
  cases hp : ptr x with
  | none =>
    rw [← hp, update_eq_self, hp]
    exact hf
  | some t => exact FdState.put ⟨hf.held.take hx hp, hf.counted⟩

/-! ## fork and clone -/

theorem processReleaseUserSpace_files (h : AsHeap) (p : Task) :
    (processReleaseUserSpace h p).2.files = p.files := by
  unfold processReleaseUserSpace
  split
  · rfl
  dsimp only
  split
  · split
    · rfl
    · rfl
  · rfl

theorem putAs_files (h : AsHeap) (p : Task) : (putAs h p).2.files = p.files := by
  unfold putAs
  split
  · rfl
  dsimp only
  split
  · split
    · exact processReleaseUserSpace_files _ p
    · rfl
  · rfl

theorem procResourcePutAll_fd (r : Resources) (p : Task) :
    (procResourcePutAll r p).1.fd = procResourcePutFiles r.fd p.files := by
  show procResourcePutFiles r.fd (putAs r.as p).2.files = _
  rw [putAs_files]

theorem FdState.putAll (hf : FdState r.fd ptr (0 + ptrTick p.files)) :
    FdState (procResourcePutAll r p).1.fd ptr 0 := by
  rw [procResourcePutAll_fd]
  exact hf.putFiles

/-- The last reference to the table is gone, and with it the pointer. -/
theorem procResourcePutAll_files (hlast : ∀ t, p.files = some t → r.fd.files.refs t = 1) :
    (procResourcePutAll r p).2.files = none := by
  show (putFilesOf r.fd (putAs r.as p).2).2.files = none
  unfold putFilesOf
  split
  next t ht =>
    rw [putAs_files] at ht
    rw [RefHeap.dec_refs_self, hlast t ht, if_pos rfl]
  next hnone => exact hnone

theorem fdTableDup_refs (h : FdHeap) (t src : Nat) : (fdTableDup h t src).files.refs t = 1 :=
  update_self ..

theorem procResourceCloneForFork_fd (child : Task)
    (hf : FdState r.fd ptr 0) (has : parent.as = some a) (hfiles : parent.files = some src)
    (hsrc : src ∈ r.fd.files.live) (hfresh : ∀ t, m.files = some t → t ∉ r.fd.files.live) :
    let out := procResourceCloneForFork r m child parent
    FdState out.2.1.fd ptr (0 + ptrTick out.2.2.files) := by
  unfold procResourceCloneForFork
  simp only [has, hfiles]
  split
  · exact hf
  split
  · exact hf
  split
  · rw [procResourcePutAll_files (by simp), procResourcePutAll_fd]
    exact hf
  next t ht =>
    have hdup := hf.dup hsrc (hfresh t ht)
    split
    · exact hdup
    rw [procResourcePutAll_files (fun t' ht' => by
      obtain rfl : t = t' := by simpa using ht'
      exact fdTableDup_refs r.fd t src)]
    exact hdup.putAll

theorem processForkRollbackChild_fd (hf : FdState r.fd ptr (0 + ptrTick p.files)) :
    FdState (processForkRollbackChild r p).fd ptr 0 := hf.putAll

/-- `process_fork` gives the child a table of its own, or leaves nothing behind. -/
theorem processFork_fd (hf : FdState r.fd ptr 0)
    (has : parent.as = some a) (hfiles : parent.files = some src) (hsrc : src ∈ r.fd.files.live)
    (hfresh : ∀ t, m.files = some t → t ∉ r.fd.files.live) :
    let out := processFork r m parent
    FdState out.2.1.fd ptr (if out.1 then 0 + ptrTick out.2.2.files else 0) := by
  unfold processFork
  split
  · exact hf
  dsimp only
  rw [if_pos (by simp [has])]
  have hclone := procResourceCloneForFork_fd (r := { r with as := r.as.newPd.2 })
    { parent with
      pdPhys := r.as.newPd.1, state := .unused, tid := 0, tgid := 0, group := none }
    hf has hfiles hsrc hfresh
  split
  next heq =>
    rw [heq] at hclone
    exact processForkRollbackChild_fd hclone
  next heq =>
    rw [heq] at hclone
    split
    · exact processForkRollbackChild_fd hclone
    · exact hclone

theorem cloneAs_fd (r : Resources) (m : Mem) (flags : CloneFlags) (child : Task) (a pd : Nat) :
    (cloneAs r m flags child a pd).2.1.fd = r.fd ∧
      (cloneAs r m flags child a pd).2.2.files = child.files := by
  unfold cloneAs
  split
  · exact ⟨rfl, rfl⟩
  unfold processCloneDuplicateAs
  split
  · exact ⟨rfl, rfl⟩
  dsimp only
  split
  · exact ⟨rfl, processReleaseUserSpace_files _ _⟩
  split
  · exact ⟨rfl, processReleaseUserSpace_files _ _⟩
  · exact ⟨rfl, rfl⟩

theorem cloneFiles_fd (flags : CloneFlags) {child : Task} (hf : FdState r.fd ptr 0)
    (hnone : child.files = none) (hsrc : src ∈ r.fd.files.live)
    (hfresh : ∀ t, m.files = some t → t ∉ r.fd.files.live) :
    let out := cloneFiles r m flags child src
    FdState out.2.1.fd ptr (0 + ptrTick out.2.2.files) := by
  unfold cloneFiles
  split
  · exact hf.get hsrc
  split
  · dsimp only
    rw [hnone]
    exact hf
  next t ht => exact hf.dup hsrc (hfresh t ht)

/-- `process_clone` gives the child a table, its own or the parent's, or leaves nothing
behind. -/
theorem processClone_fd (flags : CloneFlags) (hf : FdState r.fd ptr 0)
    (has : parent.as = some a) (hfiles : parent.files = some src) (hsrc : src ∈ r.fd.files.live)
    (hfresh : ∀ t, m.files = some t → t ∉ r.fd.files.live) :
    let out := processClone r m flags parent
    FdState out.2.1.fd ptr (if out.1 then 0 + ptrTick out.2.2.files else 0) := by
  have hres : ∀ child : Task, let out := processCloneResources r m flags child parent
      FdState out.2.1.fd ptr (if out.1 then 0 + ptrTick out.2.2.files else 0) := by
    intro child
    unfold processCloneResources
    simp only [has, hfiles]
    obtain ⟨hfd, hnone⟩ := cloneAs_fd r m flags { child with as := none, files := none } a
      parent.pdPhys
    split
    next heq =>
      rw [heq] at hfd
      rw [hfd]
      exact hf
    next r' child' heq =>
    rw [heq] at hfd hnone
    have hboth := cloneFiles_fd flags (hfd ▸ hf) hnone (hfd ▸ hsrc)
      (hfd ▸ hfresh)
    split
    next heq' =>
      rw [heq'] at hboth
      exact hboth.putAll
    next heq' =>
      rw [heq'] at hboth
      split
      · exact hboth
      · exact hboth.putAll
  unfold processClone
  dsimp only
  specialize hres { parent with
    tid := 0
    tgid := if flags.thread then parent.tgid else 0
    group := if flags.thread then parent.group else none
    state := .unused }
  split
  next heq =>
    rw [heq] at hres
    exact hres
  next heq =>
    rw [heq] at hres
    split
    · exact hres.putAll
    · exact hres

/-! ## execve -/

theorem closeOnExec_fd (hf : FdState h ptr extra) (ht : t ∈ h.files.live) :
    FdState (closeOnExec h t) ptr extra := by
  refine (foldl_range_inv (fun _ h => FdState h ptr extra ∧ t ∈ h.files.live) ⟨hf, ht⟩ ?_).1
  rintro fd hfd h ⟨hf, ht⟩
  split
  · exact ⟨hf.fdCloseOne ht hfd, ht⟩
  · exact ⟨hf, ht⟩

/-- `process_create_file` gives the new process a copy of the table, or leaves nothing
behind. -/
theorem processCreateFile_fd (image : Bool) (hf : FdState r.fd ptr 0) (hsrc : src ∈ r.fd.files.live)
    (hfresh : ∀ t, m.files = some t → t ∉ r.fd.files.live) :
    let out := processCreateFile r m image (r.fd.files.val src)
    FdState out.2.1.fd ptr (if out.1 then 0 + ptrTick out.2.2.files else 0) := by
  have hgood := hf.good hsrc
  have hbump := hgood.counted.bumpAll (fun _ hfd hk => hgood.counted.opens_pos hsrc hfd hk)
    (hgood.counted.room hgood.few)
  have hfail : ∀ (as : AsHeap) (p : Task), FdState (createFail
      { as := as, fd := { r.fd with
        ends := fdTableBumpOpenRefs r.fd.ends (r.fd.files.val src) } } p (r.fd.files.val src)).fd
      ptr 0 := fun _ _ => ⟨hf.held, hbump.closeAll⟩
  unfold processCreateFile
  split
  · exact hf
  dsimp only
  split
  · exact hf
  split
  next a t _ ht =>
    split
    · exact ⟨hf.held.create (hfresh t ht) _, hbump.create (hfresh t ht)⟩
    · exact hfail _ _
  · exact hfail _ _

end State

/-! ## Steps -/

section Steps

variable {s : TaskSys} {i : Nat}

section

variable (hs : FdInv s) (hi : i < maxProcs) (hlive : (s.tasks i).state = .live)

include hs hi hlive

/-- The table of a task that can run. -/
theorem FdInv.files : ∃ t, (s.tasks i).files = some t ∧ t ∈ s.fd.files.live := by
  obtain ⟨t, ht⟩ := (hs.ok.staffed i hi).files hlive
  exact ⟨t, ht, hs.fd.held.mem i (Finset.mem_range.mpr hi) t
    ((ptrs_of_ne (by simp [hlive])).trans ht)⟩

/-- A call on the descriptors of a task. -/
theorem FdInv.onFiles
    (call : FdHeap → Nat → Int × FdHeap) (hcall : ∀ t, (s.tasks i).files = some t → s.fd.Good t →
      s.fd.SameTables (call s.fd t).2 ∧ Counted (call s.fd t).2.files (call s.fd t).2.ends 0) :
    FdInv (onFiles s i call) := by
  obtain ⟨t, ht, hmem⟩ := hs.files hi hlive
  obtain ⟨hfiles, hc⟩ := hcall t ht (hs.fd.good hmem)
  unfold Proc.onFiles
  simp only [ht]
  exact ⟨hs.ok.of_eq rfl rfl, hs.fd.entries hfiles hc⟩

omit hs hi hlive

/-- A task with a table comes into a slot. -/
theorem FdState.install {h : FdHeap} {tasks : Nat → Task} {p : Task} {extra : Nat → Nat} {t : Nat}
    (hf : FdState h (update (ptrs Task.files tasks) i none) (extra + tick t)) (hi : i < maxProcs)
    (hlive : p.state = .live) (hp : p.files = some t) :
    FdState h (ptrs Task.files (update tasks i p)) extra := by
  refine ⟨?_, hf.counted⟩
  rw [ptrs_update, if_neg (by simp [hlive]), hp, ← update_idem]
  exact hf.held.install (Finset.mem_range.mpr hi) (update_self ..)

/-- The new task takes the reference to its table. -/
theorem FdInv.added (hok : TaskOk s) {child : Task} (hchild : Addable s.groups child) {j : Nat}
    {s' : TaskSys} (hadd : schedAdd s child = (some j, s'))
    (hfd : FdState s.fd (ptrs Task.files s.tasks) (0 + ptrTick child.files)) : FdInv s' := by
  obtain ⟨hj, hunused, hok', -, hfd', p', htasks, hstate, -, -, hp', -⟩ :=
    hok.schedAdd_some hchild hadd
  obtain ⟨t, ht⟩ := hchild.files
  refine ⟨hok', ?_⟩
  rw [hfd', htasks]
  refine FdState.install ?_ hj hstate (hp'.trans ht)
  rw [update_ptrs_unused hunused]
  simp only [ht] at hfd
  exact hfd

include hs hi hlive

theorem FdInv.syscallFork
    {m : Mem} (hm : m.Fresh s) (hslot : freeSlot s ≠ none) : FdInv (syscallFork s i m).2 := by
  obtain ⟨src, hsrc, hmem⟩ := hs.files hi hlive
  obtain ⟨a, ha⟩ := (hs.ok.staffed i hi).as (by simp [hlive])
  have hfork := processFork_fd hs.fd ha hsrc hmem hm.2
  refine hs.ok.fork_rule hi hlive hslot hs (fun r child heq => ?_)
    fun r child j s' heq hchild hadd => ?_
  · rw [heq] at hfork
    exact ⟨hs.ok.of_eq rfl rfl, hfork⟩
  · rw [heq] at hfork
    exact FdInv.added (hs.ok.resources r) hchild hadd hfork

omit hs hi hlive

/-- The task of slot `i` ends or goes. -/
theorem FdInv.leave (hs : FdInv s) (hi : i < maxProcs) (hst : (s.tasks i).state ≠ .unused)
    {s' : TaskSys} {p : Task} (hok : TaskOk s') (htasks : s'.tasks = update s.tasks i p)
    (hfd : s'.fd = procResourcePutFiles s.fd (s.tasks i).files)
    (hp : p.state = .unused ∨ p.files = none) : FdInv s' := by
  refine ⟨hok, ?_⟩
  have hrelease := hs.fd.release (Finset.mem_range.mpr hi)
  rw [ptrs_of_ne hst] at hrelease
  rw [hfd, htasks, ptrs_update]
  rcases hp with hp | hp
  · rw [if_pos hp]
    exact hrelease
  · rw [hp, ite_self]
    exact hrelease

include hs hi hlive

theorem FdInv.schedMarkExit : FdInv (schedMarkExit s i) :=
  hs.leave hi (by simp [hlive]) (hs.ok.schedMarkExit hi hlive) rfl rfl (.inr rfl)

omit hs hi hlive

theorem FdInv.removed (hs : FdInv s) (hi : i < maxProcs) {s' : TaskSys} (h : s' = s ∨ Removed s i s') :
    FdInv s' := by
  rcases h with rfl | h
  · exact hs
  · obtain ⟨p, hp, htasks⟩ := h.tasks
    refine hs.leave hi h.used h.ok htasks ?_ (.inl hp)
    rw [h.resources, procResourcePutAll_fd]

theorem FdInv.schedWaitpid (hs : FdInv s) (hi : i < maxProcs) : FdInv (schedWaitpid s i) :=
  schedWaitpid_rule (fun _ hs _ hi => hs.removed hi (hs.ok.schedReap hi)) hs hi

include hs hi hlive

theorem FdInv.syscallClone
    {m : Mem} (hm : m.Fresh s) (hpid : s.nextPid < 2147483648) (flags : CloneFlags)
    (parentTid childTid : Bool) : FdInv (syscallClone s i flags m parentTid childTid).2 := by
  obtain ⟨src, hsrc, hmem⟩ := hs.files hi hlive
  obtain ⟨a, ha⟩ := (hs.ok.staffed i hi).as (by simp [hlive])
  have hclone := processClone_fd flags hs.fd ha hsrc hmem hm.2
  refine hs.ok.clone_rule hi hlive hpid hs (fun r child heq => ?_)
    (fun r child heq => ?_) (fun r child _ hfd => ⟨hs.ok.of_eq rfl rfl, FdState.putAll hfd⟩)
    (fun r child j s' hchild hfd hadd => FdInv.added (hs.ok.resources r) hchild hadd hfd)
    fun s j hs hj => hs.removed hj (hs.ok.schedForceRemoveTask hj)
  · rw [heq] at hclone
    exact ⟨hs.ok.of_eq rfl rfl, hclone⟩
  · rw [heq] at hclone
    exact hclone

theorem FdInv.syscallExecve {m : Mem} (hm : m.Fresh s) (args image : Bool) :
    FdInv (syscallExecve s i m args image).2 := by
  obtain ⟨src, hsrc, hmem⟩ := hs.files hi hlive
  have hst : (s.tasks i).state ≠ .unused := by simp [hlive]
  have hcreate := processCreateFile_fd image hs.fd hmem hm.2
  rw [show s.fd.files.val src = procFdEntries s.fd (s.tasks i) by
    simp only [procFdEntries, hsrc]] at hcreate
  refine hs.ok.execve_rule hi hst hs (fun r _ heq => ?_) fun r new a t heq _ _ ht hok => ?_
  · rw [heq] at hcreate
    exact ⟨hs.ok.resources r, hcreate⟩
  · simp only [heq, ht] at hcreate
    have hclosed := closeOnExec_fd hcreate hcreate.held.live_of_extra
    have hrelease := hclosed.release (Finset.mem_range.mpr hi)
    rw [ptrs_of_ne hst] at hrelease
    exact ⟨hok, FdState.install hrelease hi rfl ht⟩

end

end Steps

/-! ## Runs -/

/-- The calls that have room: `pipe` and `pipe2` without exactly one free descriptor, and a
place for every new task. -/
def TaskOp.HasRoom (s : TaskSys) : TaskOp → Prop
  | .pipe i _ _ | .pipe2 i _ _ _ _ => entriesOf (procFdEntries s.fd (s.tasks i)) .none ≠ 1
  | op => op.Placed s

instance (s : TaskSys) : (op : TaskOp) → Decidable (op.HasRoom s)
  | .pipe _ _ _ | .pipe2 _ _ _ _ _ => inferInstanceAs (Decidable (_ ≠ _))
  | .fork _ _ => inferInstanceAs (Decidable (_ ≠ _))
  | .clone _ _ _ _ _ => inferInstanceAs (Decidable (_ < _))
  | .close _ _ | .dup _ _ | .dup2 _ _ _ | .fcntl _ _ _ | .open _ _ _ _
  | .execve _ _ _ _ | .exit _ | .waitpid _ _ => inferInstanceAs (Decidable True)

theorem FdInv.step {s : TaskSys} (hs : FdInv s) (op : TaskOp) (hop : op.Allowed s)
    (hroom : op.HasRoom s) : FdInv (taskStep s op) := by
  obtain ⟨hi, hlive, hm⟩ := hop
  cases op with
  | close i fd =>
    exact hs.onFiles hi hlive (fun h t => syscallClose h t fd) fun t _ hg =>
      ⟨syscallClose_sameTables .., hg.syscallClose fd⟩
  | dup i oldfd =>
    exact hs.onFiles hi hlive (fun h t => syscallDup h t oldfd) fun t _ hg =>
      ⟨syscallDup_sameTables .., hg.syscallDup oldfd⟩
  | dup2 i oldfd newfd =>
    exact hs.onFiles hi hlive (fun h t => syscallDup2 h t oldfd newfd) fun t _ hg =>
      ⟨syscallDup2_sameTables .., hg.syscallDup2 oldfd newfd⟩
  | fcntl i fd cmd =>
    exact hs.onFiles hi hlive (fun h t => syscallFcntl h t fd cmd) fun t _ hg =>
      ⟨syscallFcntl_sameTables .., hg.syscallFcntl fd cmd⟩
  | pipe i ebx copyOut =>
    refine hs.onFiles hi hlive (fun h t => syscallPipe h t ebx copyOut) fun t ht hg =>
      ⟨syscallPipe_sameTables .., hg.syscallPipe ?_ ..⟩
    simpa only [TaskOp.HasRoom, procFdEntries, show (s.tasks i).files = some t from ht] using hroom
  | pipe2 i ebx flags copyOut back =>
    refine hs.onFiles hi hlive (fun h t => syscallPipe2 h t ebx flags copyOut back) fun t ht hg =>
      ⟨syscallPipe2_sameTables .., hg.syscallPipe2 ?_ ..⟩
    simpa only [TaskOp.HasRoom, procFdEntries, show (s.tasks i).files = some t from ht] using hroom
  | «open» i wm cloexec nonblock =>
    exact hs.onFiles hi hlive (fun h t => fdInstallVfsNode h t wm cloexec nonblock) fun t _ hg =>
      ⟨fdInstallVfsNode_sameTables .., hg.fdInstallVfsNode wm cloexec nonblock⟩
  | fork i m => exact hs.syscallFork hi hlive hm hroom
  | clone i flags m parentTid childTid => exact hs.syscallClone hi hlive hm hroom flags parentTid childTid
  | execve i m args image => exact hs.syscallExecve hi hlive hm args image
  | exit i => exact hs.schedMarkExit hi hlive
  | waitpid i target => exact hs.schedWaitpid hm

theorem FdInv.start : FdInv taskStart := by
  refine ⟨TaskOk.start, ⟨?_, ?_⟩⟩
  · rw [ptrs_taskStart]
    exact ((Held.empty _).create (Finset.notMem_empty _) _).install (by decide) rfl
  · refine Counted.create ⟨⟨fun _ h => absurd h Bool.false_ne_true, fun _ h => absurd h Bool.false_ne_true,
      fun _ _ => rfl⟩, fun k hk => ?_⟩ (Finset.notMem_empty _)
    -- Nothing is open, and no descriptor of the first process is counted.
    have hentries : entriesOf startFiles k = 0 := by
      unfold entriesOf
      rw [count_eq_zero]
      intro fd _
      rw [beq_eq_false_iff_ne]
      rintro rfl
      unfold startFiles at hk
      split at hk
      · cases hk
      · cases hk
    rw [Pi.add_apply, hentries]
    cases k with
    | pipeRead i | pipeWrite i | wm i | none | other => rfl

/-- The counts and the descriptors of a state. -/
def OpenEndsCounted (s : TaskSys) : Prop :=
  (∀ i < maxPipes,
    ((s.fd.ends.pipes i).inUse = true →
      (s.fd.ends.pipes i).readOpen = descriptors s.fd.files (.pipeRead i) ∧
        (s.fd.ends.pipes i).writeOpen = descriptors s.fd.files (.pipeWrite i)) ∧
    ((s.fd.ends.pipes i).inUse = true ↔
      descriptors s.fd.files (.pipeRead i) + descriptors s.fd.files (.pipeWrite i) ≠ 0)) ∧
  ∀ c < wmdevMaxConnections, (s.fd.ends.conns c).refs = descriptors s.fd.files (.wm c)

theorem FdInv.openEndsCounted {s : TaskSys} (hs : FdInv s) : OpenEndsCounted s := by
  have hopens := hs.fd.counted.opens
  constructor
  · intro i _
    have hread := hopens (.pipeRead i) rfl
    have hwrite := hopens (.pipeWrite i) rfl
    simp only [FdEnds.opens, Pi.zero_apply, Nat.add_zero] at hread hwrite
    cases huse : (s.fd.ends.pipes i).inUse with
    | true =>
      simp only [huse, if_true] at hread hwrite
      have := (hs.fd.counted.ok.pipe i huse).2
      exact ⟨fun _ => ⟨hread, hwrite⟩, fun _ => by omega, fun _ => rfl⟩
    | false =>
      simp only [huse, Bool.false_eq_true, if_false] at hread hwrite
      exact ⟨(fun hc => by cases hc), (fun hc => by cases hc), fun h => absurd h (by omega)⟩
  · intro c _
    have hwm := hopens (.wm c) rfl
    simp only [FdEnds.opens, Pi.zero_apply, Nat.add_zero] at hwm
    cases huse : (s.fd.ends.conns c).inUse with
    | true => simpa only [huse, if_true] using hwm
    | false =>
      rw [hs.fd.counted.ok.zero c huse]
      simpa only [huse, Bool.false_eq_true, if_false] using hwm

/-- In every run whose calls have room, the counts are the numbers of descriptors in the tables
that exist, which are those that tasks have. -/
theorem open_ends_counted {s : TaskSys}
    (h : Reach taskStep (fun s op => op.Allowed s ∧ op.HasRoom s) taskStart s) :
    OpenEndsCounted s ∧
      ∀ t, t ∈ s.fd.files.live ↔ ∃ i ∈ slots, ptrs Task.files s.tasks i = some t := by
  have hfd := h.inv FdInv FdInv.start fun _ op hs hop => hs.step op hop.1 hop.2
  exact ⟨hfd.openEndsCounted, fun _ => hfd.fd.held.live_iff⟩

/-- A pipe that a process makes and then shares with a child has two descriptors per end. -/
theorem open_ends_counted_pipe_fork :
    let s := taskStep (taskStep taskStart (.pipe 0 0x1000 true)) (.fork 0 (memAt 2 2))
    OpenEndsCounted s ∧ (s.fd.ends.pipes 0).readOpen = 2 ∧ (s.fd.ends.pipes 0).writeOpen = 2 :=
  ⟨(open_ends_counted (Reach.step _ (Reach.step _ Reach.start
    ⟨⟨by decide, by decide, trivial⟩, by decide⟩)
    ⟨⟨by decide, by decide, show Mem.Fresh _ (memAt 2 2) by decide⟩, by decide⟩)).1, by decide,
    by decide⟩

/-- The first process opens its terminal `n` times more. -/
def openedAgain : Nat → TaskSys
  | 0 => taskStart
  | n + 1 => taskStep (openedAgain n) (.open 0 false false false)

theorem openedAgain_tasks (n : Nat) : (openedAgain n).tasks = taskStart.tasks := by
  induction n with
  | zero => rfl
  | succ n ih => exact (onFiles_frame ..).2.1.trans ih

theorem openedAgain_reach (n : Nat) :
    Reach taskStep (fun s op => op.Allowed s) taskStart (openedAgain n) := by
  induction n with
  | zero => exact .start
  | succ n ih =>
    refine .step _ ih ⟨by decide, ?_, trivial⟩
    rw [openedAgain_tasks]
    rfl

/-- With one descriptor left `pipe` fails, and its pipe stays in use with a write end for which
there is no descriptor. -/
theorem pipe_leaks_write_end :
    ∃ s, Reach taskStep (fun s op => op.Allowed s) taskStart s ∧
      (s.fd.ends.pipes 0).inUse = true ∧ (s.fd.ends.pipes 0).writeOpen = 1 ∧
      descriptors s.fd.files (.pipeRead 0) = 0 ∧ descriptors s.fd.files (.pipeWrite 0) = 0 ∧
      ¬ OpenEndsCounted s := by
  refine ⟨taskStep (openedAgain 12) (.pipe 0 0x1000 true),
    .step _ (openedAgain_reach 12) ⟨by decide, ?_, trivial⟩, ?_⟩
  · rw [openedAgain_tasks]
    rfl
  · have huse : ((taskStep (openedAgain 12) (.pipe 0 0x1000 true)).fd.ends.pipes 0).inUse = true := by
      decide +kernel
    have hread : descriptors (taskStep (openedAgain 12) (.pipe 0 0x1000 true)).fd.files
        (.pipeRead 0) = 0 := by decide +kernel
    have hwrite : descriptors (taskStep (openedAgain 12) (.pipe 0 0x1000 true)).fd.files
        (.pipeWrite 0) = 0 := by decide +kernel
    refine ⟨huse, by decide +kernel, hread, hwrite, fun hcounted => ?_⟩
    have := ((hcounted.1 0 (by decide)).2).mp huse
    omega

/-- No descriptor table or address space outlives its last task or goes before it. -/
theorem shared_objects_held {s : TaskSys}
    (h : Reach taskStep (fun s op => op.Allowed s ∧ op.HasRoom s ∧ op.Apart s) taskStart s) :
    (∀ t, t ∈ s.fd.files.live ↔ ∃ i ∈ slots, ptrs Task.files s.tasks i = some t) ∧
      ∀ a, a ∈ s.as.spaces.live ↔ ∃ i ∈ slots, ptrs Task.as s.tasks i = some a := by
  have hfd := h.inv FdInv FdInv.start fun _ op hs hop => hs.step op hop.1 hop.2.1
  have has := h.inv AsInv AsInv.start fun _ op hs hop => hs.step op hop.1 hop.2.2
  exact ⟨fun _ => hfd.fd.held.live_iff, fun _ => has.as.held.live_iff⟩

theorem shared_objects_forked :
    ∃ i ∈ slots, ptrs Task.files (taskStep taskStart (.fork 0 (memAt 2 2))).tasks i = some 2 := by
  have hroom : freeSlot taskStart ≠ none := by decide
  refine ((shared_objects_held (Reach.step (.fork 0 (memAt 2 2)) .start ?_)).1 2).mp (by decide)
  exact ⟨⟨by decide, by decide, show Mem.Fresh _ (memAt 2 2) by decide⟩, hroom, hroom⟩

end Drunix.Proc
