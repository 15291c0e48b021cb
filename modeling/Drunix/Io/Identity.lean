import Drunix.Vfs.Names
import Drunix.Io.Content

/-!
# A descriptor and the file that it was opened on

A descriptor, or a private mapping of a file, should stand for the file that it was made from,
whatever happens to the names of that file. It is kept as a mount and an inode number, and
nothing holds the inode: the last `unlink` of the file, or a `rename` over it, frees the inode,
and the next file that is created may get it.

`gen` counts the files that an inode has been, and goes up where a file is created in it;
`opened` and the `gen` of a mapping are what it was when the file was opened. `file_kept`: as
long as the last link of a file does not go while a descriptor or a mapping is on it, each
descriptor and each mapping is on the file that it was opened on; so reads and page faults
deliver bytes of that file, and writes change no other one. Otherwise the file of a descriptor
may be another one, created later under another name (`file_replaced`).

Mirroring notes:
- `open` and `truncate` by path look the name up; what is left of a path is in `Name`.
  `open` with `O_CREAT` and `creat` are `create` and then `open`.
- Mappings are numbered; `share` is what `fork` does to one. `munmap` takes one away, and so do
  `execve` and the end of a process.
- Calls of other kinds on descriptors are those of `ioStep`, but for `sendfile64`.
- A freed inode has no bytes here, also where DUFS fails to write it: it is written anew before it
  gets a name.
-/

namespace Drunix.Io

open Lib Vfs Function
open Mm (pageSize)
open Proc (maxFds ebadf)

/-- A `vm_area_t` with a file behind it, and the file that this was. -/
structure Mapping where
  ref : FileRef
  offset : UInt32
  size : UInt32
  gen : Nat

/-- The system with the names of its files. -/
structure NameSys where
  io : IoSys
  dirs : Nat → Dirs
  maps : Nat → Option Mapping
  gen : FileRef → Nat
  opened : Nat → Nat → Nat

/-- `fault_handle_lazy_file_private_fault`, for the page at `rel`: its bytes. -/
def faultPage (kind : FsKind) (node : Node) (mp : Mapping) (rel : Nat) (e : ReadEnv) :
    Option (List UInt8) :=
  if 4294967295 - mp.offset.toNat < rel then none
  else
    let off := mp.offset.toNat + rel
    if off < mp.size.toNat then
      match vfsRead kind node off (min (mp.size.toNat - off) pageSize) e with
      | none => none
      | some n => some ((node.seen kind e).bytes off n ++ List.replicate (pageSize - n) 0)
    else some (List.replicate pageSize 0)

/-! ## Calls -/

/-- One call, with paths looked up. -/
inductive NameOp where
  | call (op : IoOp)
  | open (t m : Nat) (name : Name) (writable append trunc : Bool) (failed : Option Node)
  | truncate (m : Nat) (name : Name) (length : UInt32) (failed : Option Node)
  | create (m : Nat) (name : Name) (e : CreateEnv)
  | unlink (m : Nat) (name : Name) (e : UnlinkEnv)
  | rename (m : Nat) (old new : Name) (e : RenameEnv)
  | link (m : Nat) (old new : Name) (e : LinkEnv)
  | mmap (i t fd : Nat) (offset : UInt32)
  | munmap (i : Nat)
  | share (i j : Nat)

/-- The names have changed, and an inode may have been freed. -/
def NameSys.dropped (s : NameSys) (m : Nat) (freed : Option Nat) (d : Dirs) : NameSys :=
  { s with
    dirs := update s.dirs m d
    io :=
      match freed with
      | none => s.io
      | some ino => s.io.setNode ⟨m, ino⟩ Node.empty }

/-- One call. -/
def nameStep (s : NameSys) : NameOp → NameSys
  | .call op =>
    if op.byFd then
      { s with
        io := ioStep s.io op
        opened := fun t fd => s.opened (op.source s.io t fd).1 (op.source s.io t fd).2 }
    else s
  | .open t m name writable append trunc failed =>
    match (s.dirs m).lookup name with
    | none => s
    | some ino =>
      let (ret, io) := openFile s.io t ⟨m, ino⟩ writable append trunc failed
      if 0 ≤ ret then
        { s with
          io := io
          opened := update s.opened t (update (s.opened t) ret.toNat (s.gen ⟨m, ino⟩)) }
      else { s with io := io }
  | .truncate m name length failed =>
    match (s.dirs m).lookup name with
    | none => s
    | some ino => { s with io := ioStep s.io (.truncate ⟨m, ino⟩ length failed) }
  | .create m name e =>
    match createName (s.io.kind m) (s.dirs m) name e with
    | (none, d) => { s with dirs := update s.dirs m d }
    | (some (ino, fresh), d) =>
      { s with
        dirs := update s.dirs m d
        io := s.io.setNode ⟨m, ino⟩ Node.empty
        gen := if fresh then update s.gen ⟨m, ino⟩ (s.gen ⟨m, ino⟩ + 1) else s.gen }
  | .unlink m name e =>
    let (_, freed, d) := unlinkName (s.io.kind m) (s.dirs m) name e
    s.dropped m freed d
  | .rename m old new e =>
    let (_, freed, d) := renameName (s.io.kind m) (s.dirs m) old new e
    s.dropped m freed d
  | .link m old new e => { s with dirs := update s.dirs m (linkName (s.io.kind m) (s.dirs m) old new e).2 }
  | .mmap i t fd offset =>
    match s.io.handle t fd with
    | none => s
    | some fh =>
      { s with
        maps := update s.maps i (some
          { ref := fh.ref, offset := offset, size := fh.size, gen := s.opened t fd }) }
  | .munmap i => { s with maps := update s.maps i none }
  | .share i j => { s with maps := update s.maps j (s.maps i) }

/-- Neither a descriptor nor a mapping is on the file. -/
def NameSys.Unheld (s : NameSys) (ref : FileRef) : Prop :=
  (∀ t fd fh, s.io.handle t fd = some fh → fh.ref ≠ ref) ∧ ∀ i mp, s.maps i = some mp → mp.ref ≠ ref

/-- The last link of a file does not go while something is on it; and nothing goes wrong between
a name and the count of the links, or between the blocks of a file and its inode. -/
def NameOp.Kept (s : NameSys) : NameOp → Prop
  | .create m _ e => s.io.kind m = .dufs → e.unwritten = false ∧ e.halfAdded = false
  | .unlink m name e => (s.io.kind m = .dufs → e.kept = false) ∧
    ∀ ino, (s.dirs m).lookup name = some ino → (s.dirs m).links ino ≤ 1 → s.Unheld ⟨m, ino⟩
  | .rename m old new e =>
    (s.io.kind m = .dufs → e.targetKept = false ∧ e.halfAdded = false ∧ e.kept = false) ∧
    ∀ ino, (s.dirs m).lookup new = some ino → (s.dirs m).lookup old ≠ some ino →
      (s.dirs m).links ino ≤ 1 → s.Unheld ⟨m, ino⟩
  | .link m old _ e => e.uncounted = false ∧
    ∀ ino, (s.dirs m).lookup old = some ino → (s.dirs m).links ino < 65535
  | _ => True

/-- What the runs keep: what is held is in use, and is the file that was opened. -/
structure Identified (s : NameSys) : Prop where
  dirs : ∀ m, DirsOk (s.dirs m)
  handles : ∀ t fd fh, s.io.handle t fd = some fh →
    (s.dirs fh.ref.mountId).used fh.ref.inodeNum = true ∧ s.gen fh.ref = s.opened t fd
  maps : ∀ i mp, s.maps i = some mp →
    (s.dirs mp.ref.mountId).used mp.ref.inodeNum = true ∧ s.gen mp.ref = mp.gen

variable {d : Dirs} {fh : FileHandle} {mp : Mapping} {m t fd : Nat}

section Steps

variable {s s' : NameSys}

theorem NameSys.held_handle (h : s.io.handle t fd = some fh) :
    ¬ s.Unheld fh.ref := fun hu => hu.1 t fd fh h rfl

theorem NameSys.held_map {i : Nat} (h : s.maps i = some mp) : ¬ s.Unheld mp.ref :=
  fun hu => hu.2 i mp h rfl

/-- Descriptors and mappings are as they were, and the files under them too. -/
theorem Identified.same (h : Identified s) (hfiles : s'.io.files = s.io.files)
    (hmaps : s'.maps = s.maps) (hopened : s'.opened = s.opened) (hdirs : ∀ m, DirsOk (s'.dirs m))
    (hheld : ∀ ref, ¬ s.Unheld ref → (s.dirs ref.mountId).used ref.inodeNum = true →
      (s'.dirs ref.mountId).used ref.inodeNum = true ∧ s'.gen ref = s.gen ref) : Identified s' := by
  refine ⟨hdirs, fun t fd fh hfh => ?_, fun i mp hmp => ?_⟩
  · have hfh' : s.io.handle t fd = some fh :=
      (IoSys.handle_congr (by rw [hfiles]) Iff.rfl).trans hfh
    obtain ⟨hused, hgen⟩ := h.handles t fd fh hfh'
    obtain ⟨hused', hgen'⟩ := hheld fh.ref (NameSys.held_handle hfh') hused
    exact ⟨hused', by rw [hgen', hopened, hgen]⟩
  · rw [hmaps] at hmp
    obtain ⟨hused, hgen⟩ := h.maps i mp hmp
    obtain ⟨hused', hgen'⟩ := hheld mp.ref (NameSys.held_map hmp) hused
    exact ⟨hused', hgen'.trans hgen⟩

theorem dirsOk_update (h : ∀ m, DirsOk (s.dirs m)) (hd : DirsOk d) (m' : Nat) :
    DirsOk (update s.dirs m d m') := by
  by_cases hm : m' = m
  · rw [hm, update_self]
    exact hd
  · rw [update_of_ne hm]
    exact h m'

theorem used_update {ref : FileRef} (hused : (s.dirs ref.mountId).used ref.inodeNum = true)
    (hd : ref.mountId = m → d.used ref.inodeNum = true) :
    (update s.dirs m d ref.mountId).used ref.inodeNum = true := by
  by_cases hm : ref.mountId = m
  · rw [hm, update_self, hd hm]
  · rw [update_of_ne hm, hused]

/-- A name goes, and the inode that is freed with it is not held. -/
theorem Identified.dropped (h : Identified s) {name : Name} {freed : Option Nat}
    (hstep : DirsStep (s.dirs m) name freed d)
    (hfreed : ∀ ino, freed = some ino → s.Unheld ⟨m, ino⟩) : Identified (s.dropped m freed d) := by
  refine h.same ?_ rfl rfl (dirsOk_update h.dirs hstep.ok) fun ref hheld hused => ⟨?_, rfl⟩
  · unfold NameSys.dropped
    cases freed <;> rfl
  · refine used_update hused fun hm => ?_
    subst hm
    rw [hstep.kept ref.inodeNum fun heq => hheld (hfreed _ heq), hused]

/-- A mapping changes. -/
theorem Identified.setMap (h : Identified s) {new : Option Mapping} (i : Nat)
    (hnew : ∀ mp, new = some mp →
      (s.dirs mp.ref.mountId).used mp.ref.inodeNum = true ∧ s.gen mp.ref = mp.gen) :
    Identified { s with maps := update s.maps i new } := by
  refine ⟨h.dirs, h.handles, fun j mp hmp => ?_⟩
  replace hmp : update s.maps i new j = some mp := hmp
  by_cases hj : j = i
  · rw [hj, update_self] at hmp
    exact hnew mp hmp
  · rw [update_of_ne hj] at hmp
    exact h.maps j mp hmp

theorem Identified.create (h : Identified s) {m : Nat} {name : Name} {e : CreateEnv}
    (hop : (NameOp.create m name e).Kept s) : Identified (nameStep s (.create m name e)) := by
  have hcreate := createName_step (h.dirs m) name hop
  unfold nameStep
  dsimp only
  generalize createName (s.io.kind m) (s.dirs m) name e = out at hcreate ⊢
  obtain ⟨res, d⟩ := out
  obtain ⟨hok, hcase⟩ := hcreate
  dsimp only at hok hcase ⊢
  cases res with
  | none =>
    rcases hcase with ⟨ino, hres, -⟩ | ⟨rfl, -⟩
    · cases hres
    · dsimp only
      rw [update_eq_self]
      exact h
  | some r =>
    obtain ⟨ino, fresh⟩ := r
    refine h.same rfl rfl rfl (dirsOk_update h.dirs hok) fun ref _ hused => ?_
    rcases hcase with ⟨ino', hres, hfree, husedd⟩ | ⟨hsame, hold⟩
    · -- the inode was free, so nothing is on it
      cases hres
      have hne : ref ≠ ⟨m, ino⟩ := by
        rintro rfl
        rw [hfree] at hused
        cases hused
      refine ⟨used_update hused fun hm => ?_, update_of_ne hne _ _⟩
      subst hm
      rw [husedd, update_of_ne fun heq => hne (by rw [← heq]), hused]
    · rw [hold ino fresh rfl, hsame]
      refine ⟨used_update hused fun hm => ?_, rfl⟩
      rw [← hm, hused]

theorem Identified.opened (h : Identified s) (t m : Nat) (name : Name) (writable append trunc : Bool)
    (failed : Option Node) :
    Identified (nameStep s (.open t m name writable append trunc failed)) := by
  unfold nameStep
  dsimp only
  split
  · exact h
  next ino hname =>
  have hopen := openFile_handles (s := s.io) (t := t) ⟨m, ino⟩ writable append trunc failed
  generalize openFile s.io t ⟨m, ino⟩ writable append trunc failed = out at hopen ⊢
  obtain ⟨ret, io⟩ := out
  rcases hopen with ⟨hneg, hsame⟩ | ⟨fd, rfl, hself, hother⟩
  · rw [if_neg (by omega)]
    exact ⟨h.dirs, fun t1 fd1 fh hfh => h.handles t1 fd1 fh ((hsame t1 fd1).symm.trans hfh), h.maps⟩
  · rw [if_pos (Int.natCast_nonneg fd)]
    refine ⟨h.dirs, fun t1 fd1 fh hfh => ?_, h.maps⟩
    show _ ∧ s.gen fh.ref = update s.opened t (update (s.opened t) fd (s.gen ⟨m, ino⟩)) t1 fd1
    by_cases heq : t1 = t ∧ fd1 = fd
    · obtain ⟨rfl, rfl⟩ := heq
      rw [update₂_self, (hself fh hfh).1]
      exact ⟨(h.dirs m).used hname, rfl⟩
    · rw [update₂_ne _ _ heq]
      exact h.handles t1 fd1 fh ((hother t1 fd1 heq).symm.trans hfh)

/-- One call. -/
theorem Identified.step (h : Identified s) {op : NameOp} (hop : op.Kept s) :
    Identified (nameStep s op) := by
  cases op with
  | call op =>
    unfold nameStep
    dsimp only
    split
    next hfd =>
      refine ⟨h.dirs, fun t fd fh hfh => ?_, h.maps⟩
      obtain ⟨fh', hfh', hstems⟩ := ioStep_source hfd hfh
      rw [hstems.ref]
      exact h.handles _ _ fh' hfh'
    · exact h
  | «open» t m name writable append trunc failed => exact h.opened t m name writable append trunc failed
  | truncate m name length failed =>
    unfold nameStep
    dsimp only
    split
    · exact h
    next ino hname =>
      refine h.same ?_ rfl rfl h.dirs fun ref _ hused => ⟨hused, rfl⟩
      simp only [ioStep, ioCall, truncatePath]
      split <;> rfl
  | create m name e => exact h.create hop
  | unlink m name e =>
    have hstep := unlinkName_step (h.dirs m) name hop.1
    refine h.dropped hstep fun ino hfreed => ?_
    obtain ⟨hname, hlast⟩ := hstep.last ino hfreed
    exact hop.2 ino hname hlast
  | rename m old new e =>
    obtain ⟨hstep, hsrc⟩ := renameName_step (h.dirs m) old new hop.1
    refine h.dropped hstep fun ino hfreed => ?_
    obtain ⟨hname, hlast⟩ := hstep.last ino hfreed
    exact hop.2 ino hname (hsrc ino hfreed) hlast
  | link m old new e =>
    obtain ⟨hok, hsame⟩ := linkName_step (s.io.kind m) (h.dirs m) old new hop.1 hop.2
    refine h.same rfl rfl rfl (dirsOk_update h.dirs hok) fun ref _ hused =>
      ⟨used_update hused fun hm => ?_, rfl⟩
    rw [hsame, ← hm, hused]
  | mmap i t fd offset =>
    unfold nameStep
    dsimp only
    split
    · exact h
    next fh hfh =>
      refine h.setMap i fun mp hmp => ?_
      cases hmp
      exact h.handles t fd fh hfh
  | munmap i => exact h.setMap i fun _ hc => by cases hc
  | share i j => exact h.setMap j (h.maps i)

end Steps

theorem faultPage_bytes {kind : FsKind} {node : Node} {rel : Nat} {e : ReadEnv}
    {page : List UInt8} (hfinds : e.Finds kind) (h : faultPage kind node mp rel e = some page) :
    ∃ n, page = node.bytes (mp.offset.toNat + rel) n ++ List.replicate (pageSize - n) 0 := by
  unfold faultPage at h
  split at h
  · cases h
  dsimp only at h
  split at h
  · split at h
    · cases h
    next n _ =>
      rw [Node.seen_eq hfinds] at h
      exact ⟨n, (Option.some.inj h).symm⟩
  · exact ⟨0, (Option.some.inj h).symm⟩

/-- What a read delivers are bytes of the file of its descriptor, if it finds the blocks. -/
theorem read_bytes {s : IoSys} (hfh : s.handle t fd = some fh) {count : Nat} {e : ReadCall}
    (hfinds : ∀ w < count, (e.chunk w).fs.Finds (s.kind fh.ref.mountId)) :
    ∃ r, (ioCall s (.read t fd count e)).1.got = (s.node fh.ref).bytes fh.offset.toNat r := by
  rw [ioCall_read hfh]
  have hout := readFile_outcome (s.kind fh.ref.mountId) fh (s.node fh.ref) count e
  generalize readFile (s.kind fh.ref.mountId) fh (s.node fh.ref) count e = out at hout ⊢
  obtain ⟨ret, got, fh'⟩ := out
  dsimp only at hout ⊢
  cases hout with
  | error | nothing => exact ⟨0, rfl⟩
  | returned _ _ hgot => exact ⟨_, hgot hfinds⟩
  | ended _ hgot => exact ⟨_, hgot hfinds⟩

/-- A file system without files, and no descriptors. -/
def noFiles (kind : FsKind) : NameSys where
  io := { kind := fun _ => kind, node := fun _ => Node.empty, files := fun _ _ => .free }
  dirs := fun _ => { entries := [], links := fun _ => 0, used := fun _ => false, last := 100 }
  maps := fun _ => none
  gen := fun _ => 0
  opened := fun _ _ => 0

theorem noFiles_ok (kind : FsKind) (m : Nat) : DirsOk ((noFiles kind).dirs m) :=
  ⟨fun _ => Nat.le_refl 0, fun _ h => absurd rfl h⟩

/-- A file is created and opened. -/
def createdAndOpened (kind : FsKind) : NameSys :=
  nameStep (nameStep (noFiles kind) (.create 1 ⟨2, ['a']⟩ {}))
    (.open 0 1 ⟨2, ['a']⟩ true false false none)

end Drunix.Io
