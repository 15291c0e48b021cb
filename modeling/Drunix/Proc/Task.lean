import Drunix.Proc.Fd

/-!
# Tasks and what they share

`fork`, `clone`, `execve`, exit and `waitpid` (`syscall/task.c`, `process.c`, `resources.c`,
`sched.c` and `task_group.c` of `proc`), as far as they make, share and drop the address
space, the descriptor table and the group of a task.

`taskStep` is one call of one task. `TaskOk` is what the other developments over these calls
rest on: a task that runs has all it needs, the counts of the groups are right, and
therefore a free slot of the process table is all that `sched_add` needs
(`TaskOk.schedAdd`).

Mirroring notes:
- The places of `kmalloc` and what else may fail are arguments (`Mem`); an address that
  `kmalloc` gives is not in use.
- A page directory is named by a number that is not used again, so that `destroyed` can say
  which directories `arch_aspace_destroy` was called on, and how often.
- `exit` is also the caller's part of `exit_group`: `sched_mark_group_exit` makes the other
  tasks of the group runnable, and they end by themselves.
- `TaskState.live` stands for ready, running, blocked and stopped.
- `fs_state` and `sig_actions` are left out, but for whether their copies can be allocated.
- `process_exec_cleanup` runs on the new kernel stack before anything else does, and is part
  of the step.
- What `proc_resource_init_fresh` has allocated when it fails is zeroed memory: `put_all`
  frees it and finds no directory and no open entry in it.
-/

namespace Drunix.Proc

open Lib Mm Function

/-! ## State -/

/-- `proc_state_t`. -/
inductive TaskState where
  | unused
  | live
  | zombie
deriving DecidableEq

/-- `task_group_t`. -/
@[ext] structure TaskGroup where
  tgid : Nat
  liveTasks : Nat

/-- `process_t`. -/
structure Task where
  state : TaskState := .unused
  tid : Nat := 0
  tgid : Nat := 0
  group : Option Nat := none
  as : Option Nat := none
  pdPhys : Nat := 0
  files : Option Nat := none
deriving DecidableEq

/-- The address spaces, with their `pd_phys`, and the page directories. -/
structure AsHeap where
  spaces : RefHeap Nat
  nextPd : Nat
  destroyed : List Nat

/-- What tasks refer to. -/
structure Resources where
  as : AsHeap
  fd : FdHeap

/-- The kernel's state. -/
structure TaskSys extends Resources where
  tasks : Nat → Task
  groups : RefHeap TaskGroup
  nextPid : Nat

/-- What the allocations of a call give: the descriptor of the new process, the page
directory, the address space and its area table, the descriptor table, the copies of
`fs_state` and `sig_actions`, and the kernel stack. -/
structure Mem where
  desc : Bool
  pd : Bool
  as : Option Nat
  vmas : Bool
  files : Option Nat
  fs : Bool
  sig : Bool
  kstack : Bool

/-- Enough memory, with the address space and the descriptor table at these places. -/
def memAt (as files : Nat) : Mem :=
  { desc := true, pd := true, as := some as, vmas := true, files := some files, fs := true,
    sig := true, kstack := true }

/-! ## resources.c -/

/-- `arch_aspace_create` and `arch_aspace_clone`. -/
def AsHeap.newPd (h : AsHeap) : Nat × AsHeap := (h.nextPd, { h with nextPd := h.nextPd + 1 })

/-- `arch_aspace_destroy`. -/
def AsHeap.destroy (h : AsHeap) (pd : Nat) : AsHeap :=
  { h with destroyed := pd :: h.destroyed }

/-- `process_release_user_space`. -/
def processReleaseUserSpace (h : AsHeap) (p : Task) : AsHeap × Task :=
  if p.pdPhys = 0 then (h, p)
  else
    let h := h.destroy p.pdPhys
    match p.as with
    | some a =>
      if h.spaces.val a = p.pdPhys then
        ({ h with spaces := h.spaces.set a 0 }, { p with pdPhys := 0 })
      else (h, { p with pdPhys := 0 })
    | none => (h, { p with pdPhys := 0 })

/-- `proc_resource_put_all`, the address space. -/
def putAs (h : AsHeap) (p : Task) : AsHeap × Task :=
  match p.as with
  | none => (h, p)
  | some a =>
    let h := { h with spaces := h.spaces.dec a }
    if h.spaces.refs a = 0 then
      let (h, p) := if p.pdPhys = h.spaces.val a then processReleaseUserSpace h p else (h, p)
      ({ h with spaces := h.spaces.free a }, { p with as := none })
    else (h, p)

/-- `proc_resource_put_files`. -/
def procResourcePutFiles (h : FdHeap) : Option Nat → FdHeap
  | some t => fdTablePut h t
  | none => h

/-- `proc_resource_put_all`, the descriptor table: the pointer stays where others have it. -/
def putFilesOf (h : FdHeap) (p : Task) : FdHeap × Task :=
  (procResourcePutFiles h p.files,
    match p.files with
    | some t => if (h.files.dec t).refs t = 0 then { p with files := none } else p
    | none => p)

/-- `proc_resource_put_all`. -/
def procResourcePutAll (r : Resources) (p : Task) : Resources × Task :=
  let (as, p) := putAs r.as p
  let (fd, p) := putFilesOf r.fd p
  ({ r with as := as, fd := fd }, p)

/-- `proc_resource_clone_for_fork`. -/
def procResourceCloneForFork (r : Resources) (m : Mem) (child parent : Task) :
    Bool × Resources × Task :=
  match parent.as, parent.files with
  | some _, some src =>
    let child := { child with as := none, files := none }
    match m.as with
    | none => (false, r, child)
    | some a =>
      if !m.vmas then (false, r, child)
      else
        let r := { r with as := { r.as with spaces := r.as.spaces.create a child.pdPhys } }
        let child := { child with as := some a }
        match m.files with
        | none => (false, procResourcePutAll r child)
        | some t =>
          let r := { r with fd := fdTableDup r.fd t src }
          let child := { child with files := some t }
          if m.fs && m.sig then (true, r, child) else (false, procResourcePutAll r child)
  | _, _ => (false, r, child)

/-! ## process.c -/

/-- `process_fork_rollback_child`. -/
def processForkRollbackChild (r : Resources) (child : Task) : Resources :=
  let (r, child) := procResourcePutAll r child
  { r with as := (processReleaseUserSpace r.as child).1 }

/-- `process_fork`. -/
def processFork (r : Resources) (m : Mem) (parent : Task) : Bool × Resources × Task :=
  if !m.pd then (false, r, parent)
  else
    let (pd, as) := r.as.newPd
    let r := { r with as := as }
    let child := { parent with pdPhys := pd, state := .unused, tid := 0, tgid := 0, group := none }
    if parent.as.isSome ∨ parent.files.isSome then
      match procResourceCloneForFork r m child parent with
      | (false, r, child) => (false, processForkRollbackChild r child, child)
      | (true, r, child) =>
        if !m.kstack then (false, processForkRollbackChild r child, child) else (true, r, child)
    else
      let child := { child with as := none, files := none }
      if !m.kstack then (false, processForkRollbackChild r child, child) else (true, r, child)

/-- `process_clone_rollback`. -/
def processCloneRollback (r : Resources) (child : Task) : Resources := (procResourcePutAll r child).1

/-- The flags of `clone`; `parentSettid` and `childSettid` are those with a pointer. -/
structure CloneFlags where
  vm : Bool := false
  fs : Bool := false
  files : Bool := false
  sighand : Bool := false
  thread : Bool := false
  parentSettid : Bool := false
  childSettid : Bool := false
  unsupported : Bool := false

/-- `process_clone_duplicate_as`. -/
def processCloneDuplicateAs (r : Resources) (m : Mem) (child : Task) : Bool × Resources × Task :=
  if !m.pd then (false, r, child)
  else
    let (pd, as) := r.as.newPd
    let child := { child with pdPhys := pd }
    match m.as with
    | none =>
      let (as, child) := processReleaseUserSpace as child
      (false, { r with as := as }, child)
    | some a =>
      if !m.vmas then
        let (as, child) := processReleaseUserSpace as child
        (false, { r with as := as }, child)
      else
        (true, { r with as := { as with spaces := as.spaces.create a pd } },
          { child with as := some a })

/-- `process_clone_resources`, the address space. -/
def cloneAs (r : Resources) (m : Mem) (flags : CloneFlags) (child : Task) (a pd : Nat) :
    Bool × Resources × Task :=
  if flags.vm then
    (true, { r with as := { r.as with spaces := r.as.spaces.get a } },
      { child with as := some a, pdPhys := pd })
  else processCloneDuplicateAs r m child

/-- `process_clone_resources`, the descriptor table. -/
def cloneFiles (r : Resources) (m : Mem) (flags : CloneFlags) (child : Task) (src : Nat) :
    Bool × Resources × Task :=
  if flags.files then
    (true, { r with fd := { r.fd with files := r.fd.files.get src } },
      { child with files := some src })
  else
    match m.files with
    | none => (false, r, child)
    | some t => (true, { r with fd := fdTableDup r.fd t src }, { child with files := some t })

/-- `process_clone_resources`. -/
def processCloneResources (r : Resources) (m : Mem) (flags : CloneFlags) (child parent : Task) :
    Bool × Resources × Task :=
  match parent.as, parent.files with
  | some a, some src =>
    match cloneAs r m flags { child with as := none, files := none } a parent.pdPhys with
    | (false, r, child) => (false, r, child)
    | (true, r, child) =>
      match cloneFiles r m flags child src with
      | (false, r, child) => (false, processCloneRollback r child, child)
      | (true, r, child) =>
        if (flags.fs || m.fs) && (flags.sighand || m.sig) then (true, r, child)
        else (false, processCloneRollback r child, child)
  | _, _ => (false, r, child)

/-- `process_clone`. -/
def processClone (r : Resources) (m : Mem) (flags : CloneFlags) (parent : Task) :
    Bool × Resources × Task :=
  let child :=
    { parent with
      tid := 0
      tgid := if flags.thread then parent.tgid else 0
      group := if flags.thread then parent.group else none
      state := .unused }
  match processCloneResources r m flags child parent with
  | (false, r, child) => (false, r, child)
  | (true, r, child) =>
    if !m.kstack then (false, processCloneRollback r child, child) else (true, r, child)

/-- The end of `process_create_file` when something is missing after the descriptors were
copied. -/
def createFail (r : Resources) (p : Task) (inherit : OpenFiles) : Resources :=
  { r with
    as := (processReleaseUserSpace r.as p).1
    fd := { r.fd with ends := fdTableCloseAll r.fd.ends inherit } }

/-- `process_create_file`, as `execve` calls it. `image` says whether the image, the stacks
and the areas could be set up. -/
def processCreateFile (r : Resources) (m : Mem) (image : Bool) (inherit : OpenFiles) :
    Bool × Resources × Task :=
  if !m.pd then (false, r, {})
  else
    let (pd, as) := r.as.newPd
    let p : Task := { pdPhys := pd }
    if !image then (false, { r with as := (processReleaseUserSpace as p).1 }, p)
    else
      let r :=
        { r with
          as := as
          fd := { r.fd with ends := fdTableBumpOpenRefs r.fd.ends inherit } }
      match m.as, m.files with
      | some a, some t =>
        if m.fs && m.sig && m.vmas then
          (true,
            { r with
              as := { r.as with spaces := r.as.spaces.create a pd }
              fd := { r.fd with files := r.fd.files.create t inherit } },
            { p with as := some a, files := some t })
        else (false, createFail r p inherit, p)
      | _, _ => (false, createFail r p inherit, p)

/-! ## sched.c and task_group.c -/

/-- The slot that `sched_add` takes. -/
def freeSlot (s : TaskSys) : Option Nat :=
  (List.range maxProcs).find? fun i => (s.tasks i).state = .unused

/-- The group that `task_group_create` takes. -/
def freeGroup (s : TaskSys) : Option Nat :=
  (List.range maxProcs).find? fun g => g ∉ s.groups.live

/-- `sched_add`. -/
def schedAdd (s : TaskSys) (proc : Task) : Option Nat × TaskSys :=
  match freeSlot s with
  | none => (none, s)
  | some i =>
    let tid := s.nextPid
    let s := { s with nextPid := u32 (s.nextPid + 1) }
    match proc.group with
    | none =>
      match freeGroup s with
      | none => (none, s)
      | some g =>
        let tgid := if proc.tgid = 0 then tid else proc.tgid
        let proc := { proc with tid := tid, tgid := tgid, group := some g, state := .live }
        (some i,
          { s with
            groups := s.groups.create g { tgid := tgid, liveTasks := 1 }
            tasks := update s.tasks i proc })
    | some g =>
      let group := s.groups.val g
      let proc := { proc with tid := tid, tgid := group.tgid, state := .live }
      (some i,
        { s with
          groups := (s.groups.get g).set g { group with liveTasks := group.liveTasks + 1 }
          tasks := update s.tasks i proc })

/-- `task_group_put`. -/
def taskGroupPut (groups : RefHeap TaskGroup) (g : Nat) : RefHeap TaskGroup :=
  if groups.refs g = 0 then groups
  else if (groups.dec g).refs g = 0 then (groups.dec g).free g
  else groups.dec g

/-- `task_group_remove_task`. -/
def taskGroupRemoveTask (groups : RefHeap TaskGroup) (g : Nat) : RefHeap TaskGroup :=
  groups.set g { groups.val g with liveTasks := (groups.val g).liveTasks - 1 }

/-- `task_group_live_count`. -/
def taskGroupLiveCount (s : TaskSys) (p : Task) : Nat :=
  match p.group with
  | some g => (s.groups.val g).liveTasks
  | none => 0

/-- `sched_force_remove_task`, at the slot it finds. -/
def schedForceRemoveTask (s : TaskSys) (i : Nat) : TaskSys :=
  let p := s.tasks i
  if p.state ≠ .live then s
  else
    { s with
      toResources := (procResourcePutAll s.toResources p).1
      groups :=
        match p.group with
        | some g => taskGroupPut (taskGroupRemoveTask s.groups g) g
        | none => s.groups
      tasks := update s.tasks i {} }

/-- `sched_mark_exit`, for the task in slot `i`. -/
def schedMarkExit (s : TaskSys) (i : Nat) : TaskSys :=
  let p := s.tasks i
  { s with
    fd := procResourcePutFiles s.fd p.files
    groups :=
      match p.group with
      | some g => taskGroupRemoveTask s.groups g
      | none => s.groups
    tasks := update s.tasks i { p with files := none, state := .zombie } }

/-- `sched_reap`. -/
def schedReap (s : TaskSys) (i : Nat) : TaskSys :=
  let zombie := s.tasks i
  if zombie.state ≠ .zombie then s
  else
    let (r, p) := procResourcePutAll s.toResources zombie
    let (as, p) :=
      if zombie.as.isSome ∨ zombie.files.isSome then (r.as, p)
      else processReleaseUserSpace r.as p
    { s with
      toResources := { r with as := as }
      groups :=
        match zombie.group with
        | some g => taskGroupPut s.groups g
        | none => s.groups
      tasks := update s.tasks i { p with group := none, state := .unused, tid := 0, tgid := 0 } }

/-- `sched_reap_group`. -/
def schedReapGroup (s : TaskSys) (g : Nat) : TaskSys :=
  (List.range maxProcs).foldl (fun s i => if (s.tasks i).group = some g then schedReap s i else s) s

/-- `sched_group_has_live_slots`. -/
def schedGroupHasLiveSlots (s : TaskSys) (g : Nat) : Bool :=
  (List.range maxProcs).any fun i => (s.tasks i).group = some g ∧ (s.tasks i).state = .live

/-- `sched_waitpid`, for the task that it finds in slot `i`: one look at it. -/
def schedWaitpid (s : TaskSys) (i : Nat) : TaskSys :=
  let target := s.tasks i
  if target.tgid ≠ target.tid then s
  else if target.state = .zombie then
    match target.group with
    | some g => if schedGroupHasLiveSlots s g then s else schedReapGroup s g
    | none => schedReap s i
  else s

/-! ## Calls -/

/-- `sched_add` returns the id of the new task as an `int`, and its callers take a negative one
for a failure. -/
def addNegative (s : TaskSys) (j : Nat) : Bool := 2147483648 ≤ (s.tasks j).tid

/-- `syscall_case_fork_vfork`. -/
def syscallFork (s : TaskSys) (i : Nat) (m : Mem) : Int × TaskSys :=
  if !m.desc then (-1, s)
  else
    match processFork s.toResources m (s.tasks i) with
    | (false, r, _) => (-1, { s with toResources := r })
    | (true, r, child) =>
      match schedAdd { s with toResources := r } child with
      -- The child is forgotten with all that it holds.
      | (none, s) => (-1, s)
      | (some j, s) => (if addNegative s j then -1 else (s.tasks j).tid, s)

/-- `syscall_case_clone`; `parentTid` and `childTid` say whether the thread id can be written
to the parent's and to the child's memory. -/
def syscallClone (s : TaskSys) (i : Nat) (flags : CloneFlags) (m : Mem)
    (parentTid childTid : Bool) : Int × TaskSys :=
  if flags.unsupported then (-1, s)
  else if flags.sighand && !flags.vm then (einval, s)
  else if flags.thread && !flags.sighand then (einval, s)
  else if !m.desc then (-1, s)
  else
    match processClone s.toResources m flags (s.tasks i) with
    | (false, r, _) => (-1, { s with toResources := r })
    | (true, r, child) =>
      if flags.parentSettid && !parentTid then
        (-1, { s with toResources := processCloneRollback r child })
      else
        match schedAdd { s with toResources := r } child with
        | (none, s) => (-1, { s with toResources := processCloneRollback s.toResources child })
        | (some j, s) =>
          -- What the child holds is given up, and the child stays in its slot.
          if addNegative s j then
            (-1, { s with toResources := processCloneRollback s.toResources child })
          else if flags.childSettid && !childTid then (-1, schedForceRemoveTask s j)
          else ((s.tasks j).tid, s)

/-- The loop of `syscall_execve` over the descriptors of the new process. -/
def closeOnExec (h : FdHeap) (t : Nat) : FdHeap :=
  (List.range maxFds).foldl
    (fun h fd =>
      if (h.files.val t fd).type ≠ .none ∧ (h.files.val t fd).cloexec = true then fdCloseOne h t fd
      else h) h

/-- `proc_resource_put_exec_nonfiles`, the address space. -/
def procResourcePutExecNonfiles (h : AsHeap) (p : Task) : AsHeap :=
  match p.as with
  | none => h
  | some a =>
    let spaces := h.spaces.dec a
    { h with spaces := if spaces.refs a = 0 then spaces.free a else spaces }

/-- `process_exec_cleanup`. -/
def processExecCleanup (h : AsHeap) (oldPd : Nat) : AsHeap :=
  if oldPd ≠ 0 then h.destroy oldPd else h

/-- `proc_fd_entries`. -/
def procFdEntries (h : FdHeap) (p : Task) : OpenFiles :=
  match p.files with
  | some t => h.files.val t
  | none => fun _ => { type := .none }

/-- `syscall_case_execve`. `args` says whether the scratch memory, the arguments, the path and
the file were all right. -/
def syscallExecve (s : TaskSys) (i : Nat) (m : Mem) (args image : Bool) : Int × TaskSys :=
  let cur := s.tasks i
  if 1 < taskGroupLiveCount s cur then (-1, s)
  else if !args || !m.desc then (-1, s)
  else
    match processCreateFile s.toResources m image (procFdEntries s.fd cur) with
    | (false, r, _) => (-1, { s with toResources := r })
    | (true, r, new) =>
      let fd :=
        match new.files with
        | some t => closeOnExec r.fd t
        | none => r.fd
      let as := procResourcePutExecNonfiles r.as cur
      let fd := procResourcePutFiles fd cur.files
      let new := { new with tid := cur.tid, tgid := cur.tgid, group := cur.group, state := .live }
      (0,
        { s with
          as := processExecCleanup as cur.pdPhys
          fd := fd
          tasks := update s.tasks i new })

/-- One call of the task in slot `i`, or its end. -/
inductive TaskOp where
  | close (i fd : Nat)
  | dup (i oldfd : Nat)
  | dup2 (i oldfd newfd : Nat)
  | fcntl (i fd : Nat) (cmd : FcntlCmd)
  | pipe (i ebx : Nat) (copyOut : Bool)
  | pipe2 (i ebx : Nat) (flags : Pipe2Flags) (copyOut : Bool) (back : Option (List Int))
  | open (i : Nat) (wm cloexec nonblock : Bool)
  | fork (i : Nat) (m : Mem)
  | clone (i : Nat) (flags : CloneFlags) (m : Mem) (parentTid childTid : Bool)
  | execve (i : Nat) (m : Mem) (args image : Bool)
  | exit (i : Nat)
  | waitpid (i target : Nat)

/-- A call on the descriptor table of the task in slot `i`. -/
def onFiles (s : TaskSys) (i : Nat) (call : FdHeap → Nat → Int × FdHeap) : TaskSys :=
  match (s.tasks i).files with
  | some t => { s with fd := (call s.fd t).2 }
  | none => s

theorem onFiles_frame (s : TaskSys) (i : Nat) (call : FdHeap → Nat → Int × FdHeap) :
    (onFiles s i call).as = s.as ∧ (onFiles s i call).tasks = s.tasks ∧
      (onFiles s i call).groups = s.groups := by
  unfold onFiles
  split
  · exact ⟨rfl, rfl, rfl⟩
  · exact ⟨rfl, rfl, rfl⟩

/-- A step of the system. -/
def taskStep (s : TaskSys) : TaskOp → TaskSys
  | .close i fd => onFiles s i fun h t => syscallClose h t fd
  | .dup i oldfd => onFiles s i fun h t => syscallDup h t oldfd
  | .dup2 i oldfd newfd => onFiles s i fun h t => syscallDup2 h t oldfd newfd
  | .fcntl i fd cmd => onFiles s i fun h t => syscallFcntl h t fd cmd
  | .pipe i ebx copyOut => onFiles s i fun h t => syscallPipe h t ebx copyOut
  | .pipe2 i ebx flags copyOut back =>
    onFiles s i fun h t => syscallPipe2 h t ebx flags copyOut back
  | .open i wm cloexec nonblock => onFiles s i fun h t => fdInstallVfsNode h t wm cloexec nonblock
  | .fork i m => (syscallFork s i m).2
  | .clone i flags m parentTid childTid => (syscallClone s i flags m parentTid childTid).2
  | .execve i m args image => (syscallExecve s i m args image).2
  | .exit i => schedMarkExit s i
  | .waitpid _ target => schedWaitpid s target

/-- The task that makes the call. -/
def TaskOp.caller : TaskOp → Nat
  | .close i _ | .dup i _ | .dup2 i _ _ | .fcntl i _ _ | .pipe i _ _ | .pipe2 i _ _ _ _
  | .open i _ _ _ | .fork i _ | .clone i _ _ _ _ | .execve i _ _ _ | .exit i | .waitpid i _ => i

/-- The next id is no negative `int`. -/
def TaskSys.IdPositive (s : TaskSys) : Prop := s.nextPid < 2147483648

/-- There is a place for a new task: `fork` finds a free slot in the process table, `clone` an
id that is no negative `int`. -/
def TaskOp.Placed (s : TaskSys) : TaskOp → Prop
  | .fork _ _ => freeSlot s ≠ none
  | .clone _ _ _ _ _ => s.IdPositive
  | _ => True

/-- The memory of a call is not in use. -/
def Mem.Fresh (s : TaskSys) (m : Mem) : Prop :=
  (∀ a, m.as = some a → a ∉ s.as.spaces.live) ∧ ∀ t, m.files = some t → t ∉ s.fd.files.live

instance (s : TaskSys) (m : Mem) : Decidable (m.Fresh s) :=
  match m with
  | ⟨_, _, as, _, files, _, _, _⟩ =>
    match as, files with
    | none, none => .isTrue ⟨by simp, by simp⟩
    | some a, none => decidable_of_iff (a ∉ s.as.spaces.live) (by simp [Mem.Fresh])
    | none, some t => decidable_of_iff (t ∉ s.fd.files.live) (by simp [Mem.Fresh])
    | some a, some t =>
      decidable_of_iff (a ∉ s.as.spaces.live ∧ t ∉ s.fd.files.live) (by simp [Mem.Fresh])

/-- What a step needs: a task that can run makes the call, and `kmalloc` gives what is free. -/
def TaskOp.Allowed (s : TaskSys) (op : TaskOp) : Prop :=
  op.caller < maxProcs ∧ (s.tasks op.caller).state = .live ∧
    match op with
    | .fork _ m | .clone _ _ m _ _ | .execve _ m _ _ => m.Fresh s
    | .waitpid _ target => target < maxProcs
    | _ => True

/-- The descriptors of the first process: its terminal, three times. -/
def startFiles : OpenFiles := fun fd => { type := if fd < 3 then .other else .none }

/-- The system with its first process. -/
def taskStart : TaskSys where
  tasks := update (fun _ => {}) 0
    { state := .live, tid := 1, tgid := 1, group := some 0, as := some 1, pdPhys := 1, files := some 1 }
  groups := (RefHeap.empty { tgid := 0, liveTasks := 0 }).create 0 { tgid := 1, liveTasks := 1 }
  nextPid := 2
  as := { spaces := (RefHeap.empty 0).create 1 1, nextPd := 2, destroyed := [] }
  fd :=
    { files := (RefHeap.empty fun _ => { type := .none }).create 1 startFiles
      ends :=
        { pipes := fun _ =>
            { buf := fun _ => 0, readIdx := 0, writeIdx := 0, count := 0, readOpen := 0,
              writeOpen := 0, inUse := false }
          conns := fun _ => {} } }

/-! ## What holds after a call -/

section CallRules

variable {P : TaskSys → Prop} {s : TaskSys} {i : Nat} {m : Mem} {flags : CloneFlags}

/-- What `waitpid` leaves is what reaping leaves. -/
theorem schedWaitpid_rule (hreap : ∀ s, P s → ∀ i < maxProcs, P (schedReap s i)) (hs : P s)
    (hi : i < maxProcs) : P (schedWaitpid s i) := by
  unfold schedWaitpid
  dsimp only
  split
  · exact hs
  split
  · split
    · split
      · exact hs
      refine foldl_range_inv (fun _ s => P s) hs fun j hj s hs => ?_
      split
      · exact hreap s hs j hj
      · exact hs
    · exact hreap s hs i hi
  · exact hs

/-- `fork` fails and gives up what it had, or hands the child to `sched_add`. -/
theorem syscallFork_rule (hs : P s)
    (hfail : ∀ r child, processFork s.toResources m (s.tasks i) = (false, r, child) →
      P { s with toResources := r })
    (hmake : ∀ r child, processFork s.toResources m (s.tasks i) = (true, r, child) →
      P (schedAdd { s with toResources := r } child).2) : P (syscallFork s i m).2 := by
  unfold syscallFork
  split
  · exact hs
  split
  next r child heq => exact hfail r child heq
  next r child heq =>
  have hadd := hmake r child heq
  split
  next s' heq' =>
    rw [heq'] at hadd
    exact hadd
  next j s' heq' =>
    rw [heq'] at hadd
    exact hadd

/-- `clone` fails, undoes what it has done, or leaves a new task; and it may take the task away
again. -/
theorem syscallClone_rule {parentTid childTid : Bool} (hs : P s)
    (hfail : ∀ r child, processClone s.toResources m flags (s.tasks i) = (false, r, child) →
      P { s with toResources := r })
    (hundo : ∀ r child, processClone s.toResources m flags (s.tasks i) = (true, r, child) →
      P { s with toResources := processCloneRollback r child })
    (hfull : ∀ r child s', processClone s.toResources m flags (s.tasks i) = (true, r, child) →
      schedAdd { s with toResources := r } child = (none, s') →
      P { s' with toResources := processCloneRollback s'.toResources child })
    (hnegative : ∀ r child j s', processClone s.toResources m flags (s.tasks i) = (true, r, child) →
      schedAdd { s with toResources := r } child = (some j, s') → addNegative s' j = true →
      P { s' with toResources := processCloneRollback s'.toResources child })
    (hmake : ∀ r child j s', processClone s.toResources m flags (s.tasks i) = (true, r, child) →
      schedAdd { s with toResources := r } child = (some j, s') →
      P s' ∧ P (schedForceRemoveTask s' j)) :
    P (syscallClone s i flags m parentTid childTid).2 := by
  unfold syscallClone
  split
  · exact hs
  split
  · exact hs
  split
  · exact hs
  split
  · exact hs
  split
  next r child heq => exact hfail r child heq
  next r child heq =>
  split
  · exact hundo r child heq
  split
  next s' heq' => exact hfull r child s' heq heq'
  next j s' heq' =>
    obtain ⟨hadded, hremoved⟩ := hmake r child j s' heq heq'
    split
    next hneg => exact hnegative r child j s' heq heq' hneg
    split
    · exact hremoved
    · exact hadded

end CallRules

/-! ## New tasks -/

section NewTask

variable {r r' : Resources} {m : Mem} {flags : CloneFlags} {parent child : Task} {a src : Nat}

theorem procResourceCloneForFork_ok {p : Task}
    (h : procResourceCloneForFork r m p parent = (true, r', child)) :
    (∃ a, child.as = some a) ∧ (∃ t, child.files = some t) ∧ child.group = p.group ∧ child.tgid = p.tgid := by
  unfold procResourceCloneForFork at h
  split at h
  · split at h
    · cases h
    split at h
    · cases h
    split at h
    · cases h
    split at h
    · obtain rfl := congrArg (fun out => out.2.2) h
      exact ⟨⟨_, rfl⟩, ⟨_, rfl⟩, rfl, rfl⟩
    · cases h
  · cases h

/-- What `sched_add` needs of a new task. -/
structure Addable (groups : RefHeap TaskGroup) (p : Task) : Prop where
  as : ∃ a, p.as = some a
  files : ∃ t, p.files = some t
  group : ∀ g, p.group = some g → g ∈ groups.live

/-- A child of `fork` has an address space and a table, and no group yet. -/
theorem processFork_ok (has : parent.as = some a) (h : processFork r m parent = (true, r', child)) :
    (∀ groups, Addable groups child) ∧ child.group = none ∧ child.tgid = 0 := by
  unfold processFork at h
  split at h
  · cases h
  dsimp only at h
  rw [if_pos (by simp [has])] at h
  split at h
  · cases h
  next heq =>
    split at h
    · cases h
    obtain rfl := congrArg (fun out => out.2.2) h
    obtain ⟨has', hfiles, hgroup, htgid⟩ := procResourceCloneForFork_ok heq
    exact ⟨fun _ => ⟨has', hfiles, by simp [hgroup]⟩, hgroup, htgid⟩

theorem cloneAs_ok {p : Task} {pd : Nat} (h : cloneAs r m flags p a pd = (true, r', child)) :
    (∃ a, child.as = some a) ∧ child.group = p.group ∧ child.tgid = p.tgid := by
  unfold cloneAs at h
  split at h
  · obtain rfl := congrArg (fun out => out.2.2) h
    exact ⟨⟨_, rfl⟩, rfl, rfl⟩
  unfold processCloneDuplicateAs at h
  split at h
  · cases h
  dsimp only at h
  split at h
  · cases h
  split at h
  · cases h
  obtain rfl := congrArg (fun out => out.2.2) h
  exact ⟨⟨_, rfl⟩, rfl, rfl⟩

theorem cloneFiles_ok {p : Task} (h : cloneFiles r m flags p src = (true, r', child)) :
    (∃ t, child.files = some t) ∧ child.as = p.as ∧ child.group = p.group ∧ child.tgid = p.tgid := by
  unfold cloneFiles at h
  split at h
  · obtain rfl := congrArg (fun out => out.2.2) h
    exact ⟨⟨_, rfl⟩, rfl, rfl, rfl⟩
  split at h
  · cases h
  obtain rfl := congrArg (fun out => out.2.2) h
  exact ⟨⟨_, rfl⟩, rfl, rfl, rfl⟩

theorem processCloneResources_ok {p : Task}
    (h : processCloneResources r m flags p parent = (true, r', child)) :
    (∃ a, child.as = some a) ∧ (∃ t, child.files = some t) ∧ child.group = p.group ∧ child.tgid = p.tgid := by
  unfold processCloneResources at h
  split at h
  · split at h
    · cases h
    next has =>
    obtain ⟨hsome, hgroup, htgid⟩ := cloneAs_ok has
    split at h
    · cases h
    next hfiles =>
      obtain ⟨hfsome, has', hgroup', htgid'⟩ := cloneFiles_ok hfiles
      split at h
      · obtain rfl := congrArg (fun out => out.2.2) h
        exact ⟨by rwa [has'], hfsome, hgroup'.trans hgroup, htgid'.trans htgid⟩
      · cases h
  · cases h

/-- A child of `clone` has an address space, a table, and the group that a thread shares. -/
theorem processClone_ok (h : processClone r m flags parent = (true, r', child)) :
    (∃ a, child.as = some a) ∧ (∃ t, child.files = some t) ∧
      (child.group = if flags.thread then parent.group else none) ∧
      child.tgid = if flags.thread then parent.tgid else 0 := by
  unfold processClone at h
  dsimp only at h
  split at h
  · cases h
  next heq =>
    split at h
    · cases h
    obtain rfl := congrArg (fun out => out.2.2) h
    exact processCloneResources_ok heq

/-- A process that `execve` has set up has an address space and a table. -/
theorem processCreateFile_ok {image : Bool} {inherit : OpenFiles} {p : Task}
    (h : processCreateFile r m image inherit = (true, r', p)) :
    ∃ a t, m.as = some a ∧ p.as = some a ∧ p.files = some t := by
  unfold processCreateFile at h
  split at h
  · cases h
  dsimp only at h
  split at h
  · cases h
  split at h
  next a t ha _ =>
    split at h
    · obtain rfl := congrArg (fun out => out.2.2) h
      exact ⟨a, t, ha, rfl, rfl⟩
    · cases h
  · cases h

end NewTask

/-! ## The process table -/

/-- The slots of `proc_table`. -/
def slots : Finset Nat := Finset.range maxProcs

/-- The pointers of the tasks that exist. -/
def ptrs (f : Task → Option Nat) (tasks : Nat → Task) (i : Nat) : Option Nat :=
  if (tasks i).state = .unused then none else f (tasks i)

theorem ptrs_update (f : Task → Option Nat) (tasks : Nat → Task) (i : Nat) (p : Task) :
    ptrs f (update tasks i p) =
      update (ptrs f tasks) i (if p.state = .unused then none else f p) := by
  funext j
  unfold ptrs
  by_cases hj : j = i
  · subst hj
    rw [update_self, update_self]
  · rw [update_of_ne hj, update_of_ne hj]

variable {tasks : Nat → Task} {f : Task → Option Nat}

theorem ptrs_of_ne {i : Nat}
    (h : (tasks i).state ≠ .unused) : ptrs f tasks i = f (tasks i) := if_neg h

theorem ptrs_of_unused {i : Nat} (h : (tasks i).state = .unused) : ptrs f tasks i = none := if_pos h

/-- A free slot has no pointer. -/
theorem update_ptrs_unused {i : Nat}
    (hunused : (tasks i).state = .unused) : update (ptrs f tasks) i none = ptrs f tasks := by
  rw [← ptrs_of_unused hunused, update_eq_self]

/-- What a task has: all if it can run, and its descriptors may be gone if it is a zombie. -/
structure Task.Staffed (p : Task) : Prop where
  as : p.state ≠ .unused → ∃ a, p.as = some a
  group : p.state ≠ .unused → ∃ g, p.group = some g
  files : p.state = .live → ∃ t, p.files = some t

/-- The process table and the groups fit. -/
structure TaskOk (s : TaskSys) : Prop where
  staffed : ∀ i < maxProcs, (s.tasks i).Staffed
  groups : Held s.groups slots (ptrs Task.group s.tasks) 0
  range : ∀ g ∈ s.groups.live, g < maxProcs

section TaskOk

variable {s s' : TaskSys} {p : Task} {i g : Nat}

theorem Task.Staffed.empty : Task.Staffed {} :=
  ⟨fun h => absurd rfl h, fun h => absurd rfl h, nofun⟩

theorem TaskOk.of_eq (hs : TaskOk s) (ht : s'.tasks = s.tasks) (hg : s'.groups = s.groups) :
    TaskOk s' :=
  ⟨by rw [ht]; exact hs.staffed, by rw [ht, hg]; exact hs.groups, by rw [hg]; exact hs.range⟩

/-- Slot `i` gets the task `p`, and the groups change. -/
theorem TaskOk.place (hs : TaskOk s) (ht : s'.tasks = update s.tasks i p) (hp : p.Staffed)
    (hg : Held s'.groups slots (update (ptrs Task.group s.tasks) i
      (if p.state = .unused then none else p.group)) 0)
    (hr : ∀ g ∈ s'.groups.live, g < maxProcs) : TaskOk s' := by
  refine ⟨fun j hj => ?_, ?_, hr⟩
  · rw [ht]
    by_cases he : j = i
    · subst he
      rw [update_self]
      exact hp
    · rw [update_of_ne he]
      exact hs.staffed j hj
  · rw [ht, ptrs_update]
    exact hg

theorem TaskOk.resources (hs : TaskOk s) (r : Resources) : TaskOk { s with toResources := r } :=
  hs.of_eq rfl rfl

section

variable (hs : TaskOk s) (hi : i < maxProcs)

include hs hi

/-- A task's group exists. -/
theorem TaskOk.group_live (hst : (s.tasks i).state ≠ .unused)
    (hg : (s.tasks i).group = some g) : g ∈ s.groups.live :=
  hs.groups.mem i (Finset.mem_range.mpr hi) g ((ptrs_of_ne hst).trans hg)

/-- The group of a thread that `clone` makes is the caller's. -/
theorem TaskOk.clone_addable
    (hst : (s.tasks i).state ≠ .unused) {r r' : Resources} {m : Mem} {flags : CloneFlags}
    (h : processClone r m flags (s.tasks i) = (true, r', p)) : Addable s.groups p := by
  obtain ⟨has, hfiles, hgroup, -⟩ := processClone_ok h
  refine ⟨has, hfiles, fun g hg => ?_⟩
  rw [hgroup] at hg
  split at hg
  · exact hs.group_live hi hst hg
  · cases hg

omit hs hi

theorem freeSlot_some (h : freeSlot s = some i) : i < maxProcs ∧ (s.tasks i).state = .unused :=
  ⟨List.mem_range.mp (List.mem_of_find?_eq_some h), by simpa using List.find?_some h⟩

/-- With a free slot there is a free group: every group has a task. -/
theorem TaskOk.freeGroup_some (hs : TaskOk s) (hslot : freeSlot s = some i) :
    ∃ g, freeGroup s = some g ∧ g < maxProcs ∧ g ∉ s.groups.live := by
  obtain ⟨hi, hunused⟩ := freeSlot_some hslot
  have hcard : s.groups.live.card < maxProcs := by
    have hsub : (slots.filter fun x => (ptrs Task.group s.tasks x).isSome) ⊆ slots.erase i := by
      intro x hx
      obtain ⟨hxS, hsome⟩ := Finset.mem_filter.mp hx
      refine Finset.mem_erase.mpr ⟨?_, hxS⟩
      rintro rfl
      rw [ptrs_of_unused hunused] at hsome
      cases hsome
    have herase := Finset.card_erase_of_mem (show i ∈ slots from Finset.mem_range.mpr hi)
    have hslots : slots.card = maxProcs := Finset.card_range maxProcs
    have := hs.groups.card_live_le.trans (Finset.card_le_card hsub)
    omega
  obtain ⟨g, hg, hno⟩ : ∃ g ∈ slots, g ∉ s.groups.live :=
    Finset.exists_mem_notMem_of_card_lt_card
      (lt_of_lt_of_eq hcard (Finset.card_range maxProcs).symm)
  cases hfind : freeGroup s with
  | none =>
    have := List.find?_eq_none.mp hfind g (by simpa [slots] using hg)
    simp [hno] at this
  | some g' =>
    exact ⟨g', rfl, List.mem_range.mp (List.mem_of_find?_eq_some hfind),
      by simpa using List.find?_some hfind⟩

/-- What `sched_add` does: nothing if the process table is full, and otherwise the new task is
in a slot that was free. -/
theorem TaskOk.schedAdd (hs : TaskOk s) (hp : Addable s.groups p) :
    (freeSlot s = none ∧ schedAdd s p = (none, s)) ∨
      ∃ j s' p', schedAdd s p = (some j, s') ∧ freeSlot s = some j ∧ TaskOk s' ∧
        s'.tasks = update s.tasks j p' ∧ s'.as = s.as ∧ s'.fd = s.fd ∧ p'.state = .live ∧
        p'.as = p.as ∧ p'.pdPhys = p.pdPhys ∧ p'.files = p.files ∧ p'.tid = s.nextPid := by
  cases hslot : freeSlot s with
  | none =>
    left
    refine ⟨rfl, ?_⟩
    unfold Proc.schedAdd
    rw [hslot]
  | some j =>
    right
    obtain ⟨hj, hunused⟩ := freeSlot_some hslot
    have hjS : j ∈ slots := Finset.mem_range.mpr hj
    have hnone : ptrs Task.group s.tasks j = none := ptrs_of_unused hunused
    cases hg : p.group with
    | none =>
      obtain ⟨g, hfind, hlt, hno⟩ := hs.freeGroup_some hslot
      have hfind' : freeGroup { s with nextPid := u32 (s.nextPid + 1) } = some g := hfind
      simp only [Proc.schedAdd, hslot, hg, hfind']
      refine ⟨j, _, _, rfl, rfl, ?_, rfl, rfl, rfl, rfl, rfl, rfl, rfl, rfl⟩
      refine hs.place rfl ⟨fun _ => hp.as, fun _ => ⟨_, rfl⟩, fun _ => hp.files⟩ ?_ ?_
      · exact (hs.groups.create hno _).install hjS hnone
      · intro g' hg'
        rcases Finset.mem_insert.mp hg' with rfl | hg'
        · exact hlt
        · exact hs.range g' hg'
    | some g =>
      simp only [Proc.schedAdd, hslot, hg]
      refine ⟨j, _, _, rfl, rfl, ?_, rfl, rfl, rfl, rfl, rfl, rfl, rfl, rfl⟩
      refine hs.place rfl ⟨fun _ => hp.as, fun _ => ⟨_, rfl⟩, fun _ => hp.files⟩ ?_ hs.range
      exact ((hs.groups.get (hp.group g hg)).install hjS hnone).set g _

theorem TaskOk.schedAdd_none (hs : TaskOk s) (hp : Addable s.groups p)
    (h : Proc.schedAdd s p = (none, s')) : freeSlot s = none ∧ s' = s := by
  rcases hs.schedAdd hp with ⟨hfull, hadd⟩ | ⟨j, s'', p', hadd, -⟩
  · exact ⟨hfull, (Prod.mk.inj (h.symm.trans hadd)).2⟩
  · exact absurd (Prod.mk.inj (h.symm.trans hadd)).1 (by simp)

/-- The new task is in a slot that was free. -/
theorem TaskOk.schedAdd_some (hs : TaskOk s) (hp : Addable s.groups p) {j : Nat}
    (h : Proc.schedAdd s p = (some j, s')) :
    j < maxProcs ∧ (s.tasks j).state = .unused ∧ TaskOk s' ∧ s'.as = s.as ∧ s'.fd = s.fd ∧
      ∃ p', s'.tasks = update s.tasks j p' ∧ p'.state = .live ∧ p'.as = p.as ∧
        p'.pdPhys = p.pdPhys ∧ p'.files = p.files ∧ p'.tid = s.nextPid := by
  rcases hs.schedAdd hp with ⟨-, hadd⟩ |
    ⟨j', s'', p', hadd, hj, hok', htasks, has', hfd', hp'⟩
  · exact absurd (Prod.mk.inj (h.symm.trans hadd)).1 (by simp)
  · obtain ⟨hjj, rfl⟩ := Prod.mk.inj (h.symm.trans hadd)
    cases hjj
    obtain ⟨hjlt, hunused⟩ := freeSlot_some hj
    exact ⟨hjlt, hunused, hok', has', hfd', p', htasks, hp'⟩

/-- `sched_add` returns the id of the new task. -/
theorem TaskOk.addNegative_eq_false (hs : TaskOk s) (hp : Addable s.groups p) {j : Nat}
    (hpid : s.IdPositive) (h : Proc.schedAdd s p = (some j, s')) : addNegative s' j = false := by
  obtain ⟨-, -, -, -, -, p', htasks, -, -, -, -, htid⟩ := hs.schedAdd_some hp h
  rw [addNegative, htasks, update_self, htid, decide_eq_false_iff_not]
  exact Nat.not_le.mpr hpid

include hs hi

/-- `fork` with room for a task. -/
theorem TaskOk.fork_rule (hlive : (s.tasks i).state = .live)
    {m : Mem} (hslot : freeSlot s ≠ none) {P : TaskSys → Prop} (hP : P s)
    (hfail : ∀ r child, processFork s.toResources m (s.tasks i) = (false, r, child) →
      P { s with toResources := r })
    (hadd : ∀ r child j s', processFork s.toResources m (s.tasks i) = (true, r, child) →
      Addable s.groups child → Proc.schedAdd { s with toResources := r } child = (some j, s') →
      P s') : P (syscallFork s i m).2 := by
  obtain ⟨a, ha⟩ := (hs.staffed i hi).as (by simp [hlive])
  refine syscallFork_rule hP hfail fun r child heq => ?_
  have hchild := (processFork_ok ha heq).1 s.groups
  rcases hres : Proc.schedAdd { s with toResources := r } child with ⟨_ | j, s'⟩
  · exact absurd ((hs.resources r).schedAdd_none hchild hres).1 hslot
  · exact hadd r child j s' heq hchild hres

/-- `clone` while ids are positive: `B` is what holds of the child that `process_clone` makes. -/
theorem TaskOk.clone_rule (hlive : (s.tasks i).state = .live)
    {m : Mem} {flags : CloneFlags} {parentTid childTid : Bool} (hpid : s.IdPositive)
    {P : TaskSys → Prop} {B : Resources → Task → Prop} (hP : P s)
    (hfail : ∀ r child, processClone s.toResources m flags (s.tasks i) = (false, r, child) →
      P { s with toResources := r })
    (hmake : ∀ r child, processClone s.toResources m flags (s.tasks i) = (true, r, child) →
      B r child)
    (hundo : ∀ r child, Addable s.groups child → B r child →
      P { s with toResources := processCloneRollback r child })
    (hadd : ∀ r child j s', Addable s.groups child → B r child →
      Proc.schedAdd { s with toResources := r } child = (some j, s') → P s')
    (hremove : ∀ s j, P s → j < maxProcs → P (schedForceRemoveTask s j)) :
    P (syscallClone s i flags m parentTid childTid).2 := by
  have hst : (s.tasks i).state ≠ .unused := by simp [hlive]
  refine syscallClone_rule hP hfail
    (fun r child heq => hundo r child (hs.clone_addable hi hst heq) (hmake r child heq))
    (fun r child s' heq hres => ?_) (fun r child j s' heq hres hneg => ?_)
    fun r child j s' heq hres => ?_
  · have hchild := hs.clone_addable hi hst heq
    obtain ⟨-, rfl⟩ := (hs.resources r).schedAdd_none hchild hres
    exact hundo r child hchild (hmake r child heq)
  · rw [(hs.resources r).addNegative_eq_false (hs.clone_addable hi hst heq) hpid hres] at hneg
    cases hneg
  · have hchild := hs.clone_addable hi hst heq
    have hs' := hadd r child j s' hchild (hmake r child heq) hres
    exact ⟨hs', hremove s' j hs' ((hs.resources r).schedAdd_some hchild hres).1⟩

omit hs hi

/-- `task_group_put`, of a reference that no task has. -/
theorem Held.taskGroupPut {groups : RefHeap TaskGroup} {ptr : Nat → Option Nat}
    (hg : Held groups slots ptr (0 + tick g)) : Held (taskGroupPut groups g) slots ptr 0 := by
  have hpos := hg.pos g hg.live_of_extra
  unfold Proc.taskGroupPut
  rw [if_neg (by omega)]
  split
  next hr => exact hg.dec_free hr
  next hr => exact hg.dec hr

theorem taskGroupPut_live {groups : RefHeap TaskGroup} {x : Nat}
    (hx : x ∈ (taskGroupPut groups g).live) : x ∈ groups.live := by
  unfold taskGroupPut at hx
  split at hx
  · exact hx
  split at hx
  · exact Finset.mem_of_mem_erase hx
  · exact hx

include hs hi

/-- The task of slot `i` gives up its group. -/
theorem TaskOk.leave (hst : (s.tasks i).state ≠ .unused)
    (hg : (s.tasks i).group = some g) (ht : s'.tasks = update s.tasks i p) (hp : p.Staffed)
    (hunused : p.state = .unused) {groups : RefHeap TaskGroup}
    (hheld : Held groups slots (ptrs Task.group s.tasks) 0) (hlive : groups.live = s.groups.live)
    (hgroups : s'.groups = taskGroupPut groups g) : TaskOk s' := by
  have hiS : i ∈ slots := Finset.mem_range.mpr hi
  have htake := hheld.take hiS ((ptrs_of_ne hst).trans hg)
  refine hs.place ht hp ?_ ?_
  · rw [hgroups, if_pos hunused]
    exact Held.taskGroupPut htake
  · intro x hx
    rw [hgroups] at hx
    exact hs.range x (hlive ▸ taskGroupPut_live hx)

omit hs hi

/-- The task of slot `i` is replaced and stays in its group. -/
theorem TaskOk.replace (hs : TaskOk s) (hst : (s.tasks i).state ≠ .unused)
    (ht : s'.tasks = update s.tasks i p) (hp : p.Staffed) (hstate : p.state ≠ .unused)
    (hgroup : p.group = (s.tasks i).group) (hlive : s'.groups.live = s.groups.live)
    (hrefs : s'.groups.refs = s.groups.refs) : TaskOk s' := by
  refine hs.place ht hp ?_ (by rw [hlive]; exact hs.range)
  rw [if_neg hstate, hgroup, ← ptrs_of_ne (f := Task.group) hst, update_eq_self]
  exact ⟨by rw [hlive]; exact hs.groups.mem, by rw [hlive]; exact hs.groups.absent,
    by rw [hlive, hrefs]; exact hs.groups.refs, by rw [hlive, hrefs]; exact hs.groups.pos⟩

/-- The task of slot `i` after `execve`, which has made `new` with the table `t`. -/
def execved (s : TaskSys) (i : Nat) (r : Resources) (new : Task) (t : Nat) : TaskSys :=
  let cur := s.tasks i
  { s with
    as := processExecCleanup (procResourcePutExecNonfiles r.as cur) cur.pdPhys
    fd := procResourcePutFiles (closeOnExec r.fd t) cur.files
    tasks := update s.tasks i
      { new with tid := cur.tid, tgid := cur.tgid, group := cur.group, state := .live } }

include hs hi

/-- `execve` leaves what `process_create_file` leaves, or the task with what that has made. -/
theorem TaskOk.execve_rule (hst : (s.tasks i).state ≠ .unused) {m : Mem} {args image : Bool}
    {P : TaskSys → Prop} (hP : P s)
    (hfail : ∀ r new, processCreateFile s.toResources m image (procFdEntries s.fd (s.tasks i)) =
      (false, r, new) → P { s with toResources := r })
    (hmake : ∀ r new a t, processCreateFile s.toResources m image (procFdEntries s.fd (s.tasks i)) =
      (true, r, new) → m.as = some a → new.as = some a → new.files = some t →
      TaskOk (execved s i r new t) → P (execved s i r new t)) :
    P (syscallExecve s i m args image).2 := by
  unfold syscallExecve
  dsimp only
  split
  · exact hP
  split
  · exact hP
  split
  next r new heq => exact hfail r new heq
  next r new heq =>
  obtain ⟨a, t, hm, ha, ht⟩ := processCreateFile_ok heq
  have hfd : (match new.files with | some t => closeOnExec r.fd t | none => r.fd) =
      closeOnExec r.fd t := by rw [ht]
  rw [hfd]
  exact hmake r new a t heq hm ha ht (hs.replace hst rfl ⟨fun _ => ⟨a, ha⟩,
    fun _ => (hs.staffed i hi).group hst, fun _ => ⟨t, ht⟩⟩ nofun rfl rfl rfl)

omit hs hi

/-- The task of slot `i` has gone and given up what it held. -/
structure Removed (s : TaskSys) (i : Nat) (s' : TaskSys) : Prop where
  ok : TaskOk s'
  used : (s.tasks i).state ≠ .unused
  tasks : ∃ p, p.state = .unused ∧ s'.tasks = update s.tasks i p
  resources : s'.toResources = (procResourcePutAll s.toResources (s.tasks i)).1
  groups : ∃ g, (s.tasks i).group = some g ∧ s'.groups = taskGroupPut
    (if (s.tasks i).state = .live then taskGroupRemoveTask s.groups g else s.groups) g
  nextPid : s'.nextPid = s.nextPid

include hs hi

theorem TaskOk.schedMarkExit (hlive : (s.tasks i).state = .live) : TaskOk (schedMarkExit s i) := by
  have hst : (s.tasks i).state ≠ .unused := by simp [hlive]
  obtain ⟨g, hg⟩ := (hs.staffed i hi).group hst
  have hstaffed : Task.Staffed { s.tasks i with files := none, state := .zombie } :=
    ⟨fun _ => (hs.staffed i hi).as hst, fun _ => (hs.staffed i hi).group hst, nofun⟩
  refine hs.replace hst rfl hstaffed (by simp) rfl ?_ ?_
  · simp only [Proc.schedMarkExit, hg]
    rfl
  · simp only [Proc.schedMarkExit, hg]
    rfl

theorem TaskOk.schedForceRemoveTask :
    schedForceRemoveTask s i = s ∨ Removed s i (schedForceRemoveTask s i) := by
  unfold Proc.schedForceRemoveTask
  dsimp only
  split
  · exact .inl rfl
  next h =>
    have hlive : (s.tasks i).state = .live := by simpa using h
    have hst : (s.tasks i).state ≠ .unused := by simp [hlive]
    obtain ⟨g, hg⟩ := (hs.staffed i hi).group hst
    simp only [hg]
    exact .inr ⟨hs.leave hi hst hg rfl Task.Staffed.empty rfl (hs.groups.set g _) rfl rfl, hst,
      ⟨_, rfl, rfl⟩, rfl, ⟨g, hg, by rw [if_pos hlive]⟩, rfl⟩

theorem TaskOk.schedReap : schedReap s i = s ∨ Removed s i (schedReap s i) := by
  unfold Proc.schedReap
  dsimp only
  split
  · exact .inl rfl
  next h =>
    have hzombie : (s.tasks i).state = .zombie := by simpa using h
    have hst : (s.tasks i).state ≠ .unused := by simp [hzombie]
    obtain ⟨g, hg⟩ := (hs.staffed i hi).group hst
    simp only [hg, Option.isSome_iff_exists.mpr ((hs.staffed i hi).as hst), true_or, if_true]
    exact .inr ⟨hs.leave hi hst hg rfl ⟨fun h => absurd rfl h, fun h => absurd rfl h, nofun⟩
      rfl hs.groups rfl rfl, hst, ⟨_, rfl, rfl⟩, rfl, ⟨g, hg, by rw [if_neg (by simp [hzombie])]⟩,
      rfl⟩

end

/-- The pointers at the start: those of the first process. -/
theorem ptrs_taskStart (f : Task → Option Nat) :
    ptrs f taskStart.tasks = update (fun _ => none) 0 (f (taskStart.tasks 0)) := by
  show ptrs f (update (fun _ => {}) 0 _) = _
  rw [ptrs_update]
  rfl

theorem TaskOk.start : TaskOk taskStart where
  staffed i _ := by
    show (update (fun _ => ({} : Task)) 0 _ i).Staffed
    by_cases hi : i = 0
    · subst hi
      exact ⟨fun _ => ⟨1, rfl⟩, fun _ => ⟨0, rfl⟩, fun _ => ⟨1, rfl⟩⟩
    · rw [update_of_ne hi]
      exact Task.Staffed.empty
  groups := by
    rw [ptrs_taskStart]
    exact ((Held.empty _).create (Finset.notMem_empty _) _).install (by decide) rfl
  range := by decide

end TaskOk

end Drunix.Proc
