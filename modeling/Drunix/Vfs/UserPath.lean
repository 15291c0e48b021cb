import Drunix.Proc.Fd
import Drunix.Vfs.Cwd

/-!
# Paths of the user

`resolve_user_path` and `resolve_user_path_at` of `proc/syscall/vfs/path.c`, and the
directory path that `syscall_open_resolved_path` of `open.c` leaves in a descriptor.
`user_paths_whole`: a path that is resolved leads where the strings say, exactly if
what the buffers cut off does not matter (`Uncut`, `UncutAt`), and so does every path that fits.

The buffer of a descriptor has 128 bytes, that of a path 4096, and neither function fails where a
text is longer: the descriptor of a directory with a long path is one for another directory
(`descriptor_cut`).

Mirroring notes:
- A handle has its type, and the path of a directory; what else a descriptor holds decides
  nothing here.
- What the file systems and the descriptor table answer is in `OpenEnv`: the type at a path or the
  error, before and after a file is created, and whether the file can be created, truncated and
  installed.
-/

namespace Drunix.Vfs

/-! ## open.c -/

/-- `vfs_node_type_t`. -/
inductive NodeType where
  | none
  | file
  | dir
  | chardev
  | tty
  | procfile
  | symlink
  | blockdev
  | sysfile
  | ptymaster
  | ptyslave
deriving DecidableEq

/-- The flags of open that decide something here. -/
structure OpenFlags where
  accmode : Nat := 0
  creat : Bool := false
  excl : Bool := false
  trunc : Bool := false
  directory : Bool := false

/-- What open finds. -/
structure OpenEnv where
  resolve : Str → Except Int NodeType
  create : Bool
  resolveCreated : Str → Except Int NodeType
  openFile : Bool
  truncate : Bool
  install : Bool

/-- `file_handle_t`: the type, and the path of a directory. -/
structure Handle where
  type : NodeType
  path : Str := []

/-- `sizeof(u.dir.path)`. -/
def dirPathSize : Nat := 128

/-- The node that is opened, after O_CREAT, O_EXCL and O_TRUNC. -/
def openNode (env : OpenEnv) (rpath : Str) (flags : OpenFlags) : Except Int NodeType :=
  match env.resolve rpath with
  | .error rc =>
    if rc < -1 then .error rc
    else if !flags.creat then .error (-2)
    else if flags.directory then .error (-2)
    else if !env.create then .error (-1)
    else match env.resolveCreated rpath with
      | .error _ => .error (-1)
      | .ok type => .ok type
  | .ok type =>
    if flags.creat && flags.excl then .error (-17)
    else if flags.trunc then
      if type ≠ .file then .error (if type = .dir then -21 else -1)
      else if !env.openFile then .error (-1)
      else if !env.truncate then .error (-1)
      else .ok type
    else .ok type

/-- `syscall_open_resolved_path`: the error, or what is installed. -/
def syscallOpenResolvedPath (env : OpenEnv) (rpath : Str) (flags : OpenFlags) :
    Except Int Handle :=
  if flags.accmode = 3 then .error (-1)
  else
    let writable := flags.accmode ≠ 0
    if flags.trunc && !writable then .error (-22)
    else match openNode env rpath flags with
      | .error rc => .error rc
      | .ok type =>
        if type = .none ∨ type = .symlink then .error (-1)
        else if flags.directory && type ≠ .dir then .error (-20)
        else if writable && type = .dir then .error (-21)
        else if !env.install then .error (-1)
        else .ok { type := type, path := if type = .dir then cut dirPathSize rpath else [] }

/-! ## path.c -/

/-- `LINUX_AT_FDCWD`. -/
def atFdcwd : Nat := 0xFFFFFF9C

/-- `resolve_user_path`. -/
def resolveUserPath (env : Env) (p : Proc) (ptr resolvedSz : Nat) : Option Str :=
  if ptr = 0 ∨ resolvedSz = 0 then none
  else match copyUserStringAlloc env ptr resolvedSz with
    | none => none
    | some raw => some (kcwdResolve p.processCwd raw resolvedSz)

/-- `resolve_user_path_at`, with the descriptors of the process. -/
def resolveUserPathAt (env : Env) (p : Proc) (fds : Nat → Option Handle) (dirfd ptr resolvedSz : Nat) :
    Except Int Str :=
  if ptr = 0 ∨ resolvedSz = 0 then .error (-1)
  else match copyUserStringAlloc env ptr resolvedSz with
    | none => .error (-1)
    | some raw =>
      if raw = [] then .error (-1)
      else if raw.head? = some '/' ∨ dirfd = atFdcwd then
        .ok (kcwdResolve p.processCwd raw resolvedSz)
      else if dirfd ≥ Drunix.Proc.maxFds then .error (-9)
      else match fds dirfd with
        | none => .error (-9)
        | some fh =>
          if fh.type ≠ .dir then .error (-9) else .ok (kcwdResolve fh.path raw resolvedSz)

/-! ## What is cut off -/

/-- What the buffer cuts off a path from the working directory does not matter. -/
def Uncut (cwd path : Str) : Prop :=
  cwd = [] ∨ path = ['.'] ∨ path.head? = some '/' ∨
    denotes (cut pathMax (cwd ++ '/' :: dropDotSlash path)) =
      denotes (cwd ++ '/' :: dropDotSlash path)

/-- A name in a directory, the root being the empty text. -/
def joined (dir name : Str) : Str := if dir = [] then name else dir ++ '/' :: name

/-- What the two buffers cut off the path of a directory and a path from there does not matter. -/
def UncutAt (dir path : Str) : Prop :=
  path.head? = some '/' ∨
    denotes (if path = ['.'] then cut dirPathSize dir
      else cut pathMax (joined (cut dirPathSize dir) (dropDotSlash path))) =
    denotes (dir ++ '/' :: path)

variable {env : Env} {ptr : Nat} {r path dir : Str}

theorem copyUserStringAlloc_some {maxLen : Nat} {raw : Str}
    (hr : env.user ptr = some r) (h : copyUserStringAlloc env ptr maxLen = some raw) :
    raw = r ∧ r.length < maxLen := by
  unfold copyUserStringAlloc at h
  rw [hr] at h
  split at h
  · cases h
  dsimp only at h
  split at h
  next hlt => exact ⟨(Option.some.inj h).symm, hlt⟩
  · cases h

theorem resolveUserPath_some {p : Proc} {out : Str}
    (hr : env.user ptr = some r) (h : resolveUserPath env p ptr pathMax = some out) :
    r.length < pathMax ∧ out = kcwdResolve p.processCwd r pathMax := by
  unfold resolveUserPath at h
  split at h
  · cases h
  split at h
  · cases h
  next raw hcopy =>
    obtain ⟨rfl, hlt⟩ := copyUserStringAlloc_some hr hcopy
    exact ⟨hlt, (Option.some.inj h).symm⟩

/-- The ways of a path that is resolved from a descriptor. -/
theorem resolveUserPathAt_ok {p : Proc} {fds : Nat → Option Handle} {dirfd : Nat}
    {out : Str} (hr : env.user ptr = some r)
    (h : resolveUserPathAt env p fds dirfd ptr pathMax = .ok out) :
    r.length < pathMax ∧
      ((r.head? = some '/' ∨ dirfd = atFdcwd) ∧ out = kcwdResolve p.processCwd r pathMax ∨
        r.head? ≠ some '/' ∧ dirfd ≠ atFdcwd ∧
          ∃ fh, fds dirfd = some fh ∧ out = kcwdResolve fh.path r pathMax) := by
  unfold resolveUserPathAt at h
  split at h
  · cases h
  split at h
  · cases h
  next raw hcopy =>
  obtain ⟨rfl, hlt⟩ := copyUserStringAlloc_some hr hcopy
  refine ⟨hlt, ?_⟩
  split at h
  · cases h
  split at h
  next habs => exact .inl ⟨habs, (Except.ok.inj h).symm⟩
  next hrel =>
  rw [not_or] at hrel
  split at h
  · cases h
  split at h
  · cases h
  next fh hfd =>
    split at h
    · cases h
    · exact .inr ⟨hrel.1, hrel.2, fh, hfd, (Except.ok.inj h).symm⟩

/-- The path of a directory is left in the descriptor as far as it goes. -/
theorem syscallOpenResolvedPath_dir {env : OpenEnv} {rpath : Str} {flags : OpenFlags} {fh : Handle}
    (h : syscallOpenResolvedPath env rpath flags = .ok fh) (hdir : fh.type = .dir) :
    fh.path = cut dirPathSize rpath := by
  unfold syscallOpenResolvedPath at h
  dsimp only at h
  split at h
  · cases h
  split at h
  · cases h
  split at h
  · cases h
  next type _ =>
  split at h
  · cases h
  split at h
  · cases h
  split at h
  · cases h
  split at h
  · cases h
  obtain rfl := Except.ok.inj h
  exact if_pos hdir

/-- A path that is not absolute is put behind the directory. -/
theorem kcwdResolve_eq (habs : path.head? ≠ some '/') (hdir : dir.length < pathMax) :
    kcwdResolve dir path pathMax = if path = ['.'] then dir
      else cut pathMax (joined dir (dropDotSlash path)) := by
  have hhead : path.take 1 ≠ ['/'] := fun h => habs (by
    cases path with
    | nil => cases h
    | cons c path => simpa using h)
  unfold kcwdResolve joined dropDotSlash
  by_cases hdot : path = ['.']
  · rw [if_pos hdot, if_pos hdot, cut_eq hdir]
  · rw [if_neg hdot, if_neg hdot]
    by_cases hdd : path.take 2 = ['.', '/']
    · rw [if_pos hdd, if_pos hdd]
      exact (apply_ite (cut pathMax) (dir = []) _ _).symm
    · rw [if_neg hdd, if_neg hdd, if_neg hhead]
      exact (apply_ite (cut pathMax) (dir = []) _ _).symm

theorem cut_dirPathSize_length (s : Str) : (cut dirPathSize s).length < pathMax := by
  unfold cut dirPathSize pathMax
  rw [List.length_take]
  omega

/-- The path through a descriptor leads where the strings say, exactly if nothing that matters is
cut off. -/
theorem denotes_kcwdResolve_at (habs : path.head? ≠ some '/') :
    denotes (kcwdResolve (cut dirPathSize dir) path pathMax) = denotes (target dir path) ↔
      UncutAt dir path := by
  rw [kcwdResolve_eq habs (cut_dirPathSize_length dir), target, if_neg habs]
  exact ⟨.inr, fun h => h.resolve_left habs⟩

theorem dropDotSlash_length (path : Str) : (dropDotSlash path).length ≤ path.length := by
  unfold dropDotSlash
  split
  · rw [List.length_drop]
    omega
  · exact le_rfl

theorem uncut_of_length {cwd : Str} (h : cwd.length + 1 + path.length < pathMax) :
    Uncut cwd path := by
  refine .inr (.inr (.inr ?_))
  have hlen := dropDotSlash_length path
  rw [cut_eq]
  rw [List.length_append, List.length_cons]
  omega

theorem uncutAt_of_length (hdir : dir.length < dirPathSize)
    (h : dir.length + 1 + path.length < pathMax) : UncutAt dir path := by
  by_cases habs : path.head? = some '/'
  · exact .inl habs
  · have hcut : cut dirPathSize dir = dir := List.take_of_length_le (by omega)
    have hwhole : denotes (kcwdResolve dir path pathMax) = denotes (target dir path) :=
      (denotes_kcwdResolve (by omega) (by omega)).mpr (uncut_of_length h)
    rw [← hcut] at hwhole
    refine (denotes_kcwdResolve_at habs).mp (hwhole.trans ?_)
    rw [hcut]

/-- A path of the user that is resolved leads where the working directory and the string say, and
a path through the descriptor of a directory where its path and the string say, exactly if nothing
that matters is cut off; nothing is cut off short paths. -/
theorem user_paths_whole {env : Env} {p : Proc} (hcwd : p.processCwd.length < pathMax) {ptr : Nat}
    {r : Str} (hr : env.user ptr = some r) :
    (∀ out, resolveUserPath env p ptr pathMax = some out →
      (vfsNormalizeAlloc out = vfsNormalizeAlloc (target p.processCwd r) ↔
        Uncut p.processCwd r)) ∧
    (∀ fds out, resolveUserPathAt env p fds atFdcwd ptr pathMax = .ok out →
      (vfsNormalizeAlloc out = vfsNormalizeAlloc (target p.processCwd r) ↔
        Uncut p.processCwd r)) ∧
    (∀ (oenv : OpenEnv) (dir : Str) (flags : OpenFlags) (fh : Handle) (fds : Nat → Option Handle)
        (dirfd : Nat) (out : Str),
      syscallOpenResolvedPath oenv dir flags = .ok fh → fh.type = .dir → dirfd ≠ atFdcwd →
      fds dirfd = some fh → resolveUserPathAt env p fds dirfd ptr pathMax = .ok out →
      (vfsNormalizeAlloc out = vfsNormalizeAlloc (target dir r) ↔ UncutAt dir r)) ∧
    (p.processCwd.length + 1 + r.length < pathMax → Uncut p.processCwd r) ∧
    ∀ dir : Str, dir.length < dirPathSize → dir.length + 1 + r.length < pathMax →
      UncutAt dir r := by
  refine ⟨fun out h => ?_, fun fds out h => ?_, fun oenv dir flags fh fds dirfd out hopen hdir hfd
    hfh h => ?_, uncut_of_length, fun dir => uncutAt_of_length⟩
  · obtain ⟨hlt, rfl⟩ := resolveUserPath_some hr h
    rw [normalize_eq_iff]
    exact denotes_kcwdResolve hcwd hlt
  · obtain ⟨hlt, ⟨-, rfl⟩ | ⟨-, hne, -⟩⟩ := resolveUserPathAt_ok hr h
    · rw [normalize_eq_iff]
      exact denotes_kcwdResolve hcwd hlt
    · exact absurd rfl hne
  · obtain ⟨hlt, hways⟩ := resolveUserPathAt_ok hr h
    rw [normalize_eq_iff]
    rcases hways with ⟨habs | hcwd', rfl⟩ | ⟨habs, -, fh', hfh', rfl⟩
    · have hwhole : Uncut p.processCwd r := .inr (.inr (.inl habs))
      have htarget : target p.processCwd r = target dir r := by
        unfold target
        rw [if_pos habs, if_pos habs]
      refine iff_of_true ?_ (.inl habs)
      rw [← htarget]
      exact (denotes_kcwdResolve hcwd hlt).mpr hwhole
    · exact absurd hcwd' hfd
    · obtain rfl := Option.some.inj (hfh.symm.trans hfh')
      rw [syscallOpenResolvedPath_dir hopen hdir]
      exact denotes_kcwdResolve_at habs

/-- Directories wherever one looks. -/
def dirsOnly : OpenEnv where
  resolve := fun _ => .ok .dir
  create := false
  resolveCreated := fun _ => .error (-1)
  openFile := false
  truncate := false
  install := true

/-- The descriptor of a directory, opened at its path. -/
def opened (dir : Str) : Handle := { type := .dir, path := cut dirPathSize dir }

/-- The file `x` through a descriptor for the directory `d`. -/
theorem user_paths_whole_name :
    resolveUserPathAt (userPath ['x']) atRoot (fun _ => some (opened ['d'])) 3 1 pathMax =
        .ok ['d', '/', 'x'] ∧
      vfsNormalizeAlloc ['d', '/', 'x'] = vfsNormalizeAlloc (target ['d'] ['x']) := by
  have huser : (userPath ['x']).user 1 = some ['x'] := rfl
  have h := user_paths_whole (p := atRoot) (by decide) huser
  have hcall : resolveUserPathAt (userPath ['x']) atRoot (fun _ => some (opened ['d'])) 3 1 pathMax =
      .ok ['d', '/', 'x'] := rfl
  refine ⟨hcall, (h.2.2.1 dirsOnly ['d'] {} (opened ['d']) _ 3 _ rfl rfl (by decide) rfl hcall).mpr ?_⟩
  exact h.2.2.2.2 ['d'] (by decide) (by decide)

/-- The directory `a…ab`, of 128 characters, is opened: its descriptor is one for `a…a`, and the
file `x` through it another file. -/
theorem descriptor_cut :
    let dir : Str := List.replicate 127 'a' ++ ['b']
    syscallOpenResolvedPath dirsOnly dir {} = .ok (opened dir) ∧
      ∃ out, resolveUserPathAt (userPath ['x']) atRoot (fun _ => some (opened dir)) 3 1 pathMax =
          .ok out ∧
        vfsNormalizeAlloc out = vfsNormalizeAlloc (target (List.replicate 127 'a') ['x']) ∧
        vfsNormalizeAlloc out ≠ vfsNormalizeAlloc (target dir ['x']) := by
  intro dir
  refine ⟨rfl, List.replicate 127 'a' ++ ['/', 'x'], rfl, ?_, ?_⟩
  · decide +kernel
  · decide +kernel

end Drunix.Vfs
