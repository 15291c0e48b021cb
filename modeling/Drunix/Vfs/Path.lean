import Mathlib

/-!
# Paths and the working directory

`vfs_normalize_path` of `fs/vfs/core.c`, and `kcwd_resolve` and the chdir call of
`proc/syscall/vfs/path.c`.

Mirroring notes:
- A C string is the list of its characters before the NUL.
- `k_snprintf` with a size, and `k_strncpy` with the NUL set behind it, keep the first
  `size - 1` characters of the text.
- A process has its working directory in the shared `fs_state`, with a mirror in `cwd`, or
  in `cwd` alone where there is no such state.
- What `vfs_stat` finds at a normalised path depends on the mounts and the file systems
  behind them: it is the parameter `lookup`, which gives the type of the file there.
- `kmalloc` fails when `heap` says so at its turn, and `user` says which string a user
  address holds, if it can be read. `sched_current()` is never NULL.
-/

namespace Drunix.Vfs

abbrev Str := List Char

/-! ## core.c -/

/-- The loops that go back over the last component of a path and its slash. -/
def stripLast (s : Str) : Str := ((s.reverse.dropWhile (· ≠ '/')).drop 1).reverse

/-- The loop of `vfs_normalize_path` over the components, `out` being what is written so far, and
the NUL behind it; every round takes a character of the path at least. `stores` has every store:
where, and how many characters. -/
def normalizeLoop (outsz : Nat) :
    Nat → Str → Str → List (Nat × Nat) → Option Str × List (Nat × Nat)
  | 0, _, out, stores => (some out, stores ++ [(out.length, 1)])
  | rounds + 1, path, out, stores =>
    let path := path.dropWhile (· = '/')
    if path = [] then (some out, stores ++ [(out.length, 1)])
    else
      let name := path.takeWhile (· ≠ '/')
      let rest := path.dropWhile (· ≠ '/')
      if name = ['.'] then normalizeLoop outsz rounds rest out stores
      else if name = ['.', '.'] then normalizeLoop outsz rounds rest (stripLast out) stores
      else if out ≠ [] ∧ out.length + 1 ≥ outsz then (none, stores)
      else
        let stores := if out ≠ [] then stores ++ [(out.length, 1)] else stores
        let out := if out ≠ [] then out ++ ['/'] else out
        if out.length + name.length ≥ outsz then (none, stores)
        else normalizeLoop outsz rounds rest (out ++ name) (stores ++ [(out.length, name.length)])

/-- `vfs_normalize_path`, with its stores. -/
def vfsNormalizeStores (path : Str) (outsz : Nat) : Option Str × List (Nat × Nat) :=
  if outsz = 0 then (none, []) else normalizeLoop outsz path.length path [] []

/-- `vfs_normalize_path`. -/
def vfsNormalizePath (path : Str) (outsz : Nat) : Option Str := (vfsNormalizeStores path outsz).1

/-- `vfs_normalize_alloc`, when the allocation succeeds. -/
def vfsNormalizeAlloc (path : Str) : Option Str := vfsNormalizePath path (path.length + 1)

/-! ## path.c -/

/-- What a call finds outside: allocations that fail, strings of the user, files. -/
structure Env where
  heap : Nat → Bool
  user : Nat → Option Str
  lookup : Str → Option Nat

structure Proc where
  fsState : Option Str
  cwd : Str

/-- `SYSCALL_PATH_MAX`, and the size of the `cwd` buffers. -/
def pathMax : Nat := 4096

/-- A text in a buffer of `size` bytes. -/
def cut (size : Nat) (s : Str) : Str := s.take (size - 1)

/-- `kcwd_resolve`. -/
def kcwdResolve (cwd name : Str) (outsz : Nat) : Str :=
  if name = ['.'] then cut outsz cwd
  else if name.take 2 = ['.', '/'] then
    if cwd = [] then cut outsz (name.drop 2) else cut outsz (cwd ++ '/' :: name.drop 2)
  else if name.take 1 = ['/'] then cut outsz (name.drop 1)
  else if cwd = [] then cut outsz name
  else cut outsz (cwd ++ '/' :: name)

/-- `syscall_process_cwd`. -/
def Proc.processCwd (p : Proc) : Str := p.fsState.getD p.cwd

/-- `syscall_set_process_cwd`, with `syscall_mirror_legacy_cwd`. -/
def Proc.setProcessCwd (p : Proc) (cwd : Str) : Proc :=
  match p.fsState with
  | some _ => ⟨some (cut pathMax cwd), cut pathMax (cut pathMax cwd)⟩
  | none => { p with cwd := cut pathMax cwd }

/-- The working directory cut off in place, and mirrored. -/
def Proc.stripCwd (p : Proc) : Proc :=
  match p.fsState with
  | some cwd => ⟨some (stripLast cwd), cut pathMax (stripLast cwd)⟩
  | none => { p with cwd := stripLast p.cwd }

/-- `copy_user_string_alloc`. -/
def copyUserStringAlloc (env : Env) (ptr maxLen : Nat) : Option Str :=
  if env.heap 0 then none
  else match env.user ptr with
    | none => none
    | some s => if s.length < maxLen then some s else none

/-- `vfs_stat`: the type of the file. -/
def vfsStat (env : Env) (path : Str) : Option Nat :=
  if env.heap 2 then none else (vfsNormalizeAlloc path).bind env.lookup

/-- `if (rlen > 0 && resolved[rlen - 1] == '/') resolved[--rlen] = '\0'`. -/
def trimSlash (s : Str) : Str := if s.getLast? = some '/' then s.dropLast else s

/-- `syscall_case_chdir`: the error number, or the process with its new directory. -/
def syscallCaseChdir (env : Env) (p : Proc) (ebx : Nat) : Except Nat Proc :=
  if ebx = 0 then .error 14
  else match copyUserStringAlloc env ebx pathMax with
    | none => .error 1
    | some path =>
      if path = [] ∨ path = ['/'] then .ok (p.setProcessCwd [])
      else if path = ['.', '.'] then
        if p.processCwd = [] then .ok p else .ok p.stripCwd
      else if env.heap 1 then .error 1
      else
        let resolved := trimSlash (kcwdResolve p.processCwd path pathMax)
        if resolved = [] then .ok (p.setProcessCwd [])
        else match vfsStat env resolved with
          | none => .error 2
          | some type => if type ≠ 2 then .error 1 else .ok (p.setProcessCwd resolved)

end Drunix.Vfs
