import Drunix.Vfs.Node
import Drunix.Vfs.Path

/-!
# Names, links and inodes

The calls that give names to regular files and take them away: `fs_create`, `fs_unlink`,
`fs_rename` and `fs_link` of DUFS (`fs/fs.c`), `ext3_create`, `ext3_unlink`,
`ext3_rename` and `ext3_link` (`fs/ext3/mutation.c`). An inode is freed when its link
count gets to 0, at once, and the next file that is created may get it.

`DirsOk` is what they keep: an inode has at least as many links as names, and one with a name
is in use. Each call then frees at most the inode of the one name that it takes away, and only
with its last link (`DirsStep`).

Mirroring notes:
- A name is the inode of a directory and the last component, as `path_resolve` and
  `ext3_split_parent` give them. Only names of regular files are here, and their order in the
  directory does not matter.
- What may go wrong is an argument. A call of ext3 is one transaction, and leaves nothing if it
  fails. DUFS goes on after some errors. `fs_create` frees the blocks of a file that is there
  before it writes the inode, so that an inode which cannot be written keeps them and others may
  get them (`loose`); what becomes of its bytes then is not followed. `fs_unlink` frees the inode
  before it removes the name, and neither it nor `fs_rename` looks whether the inode was written.
  `fs_link` adds the name before it writes the count. `fs_rename` does not look whether the name
  that it replaces and the old name could be removed.
- `dir_add` of DUFS may fail in the write of the block and have written the entry; an entry that
  is written in part is taken for one that is there. `dir_remove` does not look at that write.
  Where a name is there twice, the newer one is found here, and on the disk the first slot.
- The count is a `uint16_t` in both.
- `fs_rename` does not write the count of the file that it replaces unless it gets to 0.
-/

namespace Drunix.Vfs

open Function

/-- A name in a directory. -/
structure Name where
  dir : Nat
  leaf : Str
deriving DecidableEq

/-- The names of a file system with their inodes, the link counts, the inode bitmap, and the
inodes with blocks that are free; `first`, `last` and `cursor` are those of ext3. -/
structure Dirs where
  entries : List (Name × Nat)
  links : Nat → Nat
  used : Nat → Bool
  loose : Nat → Bool := fun _ => false
  first : Nat := 11
  last : Nat := 0
  cursor : Nat := 11

/-- `DUFS_INODE_COUNT`. -/
def dufsInodeCount : Nat := 1024

/-- `dir_lookup`. -/
def Dirs.lookup (d : Dirs) (name : Name) : Option Nat :=
  (d.entries.find? fun e => e.1 = name).map Prod.snd

/-- `dir_add`. -/
def Dirs.add (d : Dirs) (name : Name) (ino : Nat) : Dirs :=
  { d with entries := (name, ino) :: d.entries }

/-- `dir_remove`. -/
def Dirs.remove (d : Dirs) (name : Name) : Dirs :=
  { d with entries := d.entries.eraseP fun e => e.1 = name }

/-! ## Inodes -/

/-- `inode_alloc` and `ext3_alloc_inode`. -/
def allocInode (kind : FsKind) (d : Dirs) : Option (Nat × Dirs) :=
  match kind with
  | .dufs =>
    match (List.range' 2 (dufsInodeCount - 2)).find? fun i => !d.used i with
    | none => none
    | some i => some (i, { d with used := update d.used i true })
  | .ext3 =>
    let start := if d.cursor < d.first ∨ d.last < d.cursor then d.first else d.cursor
    let scanned := List.range' start (d.last + 1 - start) ++ List.range' d.first (start - d.first)
    match scanned.find? fun i => !d.used i with
    | none => none
    | some i =>
      some (i, { d with
        used := update d.used i true
        cursor := if d.last ≤ i then d.first else i + 1 })

/-- `inode_free` and `ext3_free_inode`. -/
def freeInode (kind : FsKind) (d : Dirs) (ino : Nat) : Option Dirs :=
  match kind with
  | .dufs =>
    some (if 2 ≤ ino ∧ ino < dufsInodeCount then { d with used := update d.used ino false } else d)
  | .ext3 =>
    if ino < d.first ∨ d.last < ino then none
    else if !d.used ino then some d
    else
      some { d with
        used := update d.used ino false
        cursor := if ino < d.cursor then ino else d.cursor }

/-- The inode is written with another count; where this fails, DUFS goes on. -/
def writeLinks (kind : FsKind) (d : Dirs) (ino n : Nat) (unwritten : Bool) : Option Dirs :=
  if !unwritten then some { d with links := update d.links ino n }
  else
    match kind with
    | .dufs => some d
    | .ext3 => none

/-- An inode without links is freed. -/
def freeUnlinked (kind : FsKind) (d : Dirs) (ino : Nat) (unwritten : Bool) : Option Dirs :=
  (freeInode kind d ino).bind fun d => writeLinks kind d ino 0 unwritten

/-- A link less: whether the inode is freed. -/
def dropLink (kind : FsKind) (d : Dirs) (ino : Nat) (unwritten : Bool) :
    Option (Option Nat × Dirs) :=
  if d.links ino ≤ 1 then (freeUnlinked kind d ino unwritten).map fun d => (some ino, d)
  else (writeLinks kind d ino (d.links ino - 1) unwritten).map fun d => (none, d)

/-! ## Calls -/

/-- What happens in `create`: nothing at all, or the inode of a file that is there is not written
after its blocks were freed, or the entry is written and `dir_add` fails all the same. -/
structure CreateEnv where
  fails : Bool := false
  unwritten : Bool := false
  halfAdded : Bool := false

/-- `fs_create` and `ext3_create`: the inode, and whether it is a new one. A file that is there
loses its bytes. -/
def createName (kind : FsKind) (d : Dirs) (name : Name) (e : CreateEnv) :
    Option (Nat × Bool) × Dirs :=
  if e.fails then (none, d)
  else
    match d.lookup name with
    | some ino =>
      if !e.unwritten then (some (ino, false), d)
      else
        match kind with
        | .dufs => (none, { d with loose := update d.loose ino true })
        | .ext3 => (none, d)
    | none =>
      match allocInode kind d with
      | none => (none, d)
      | some (ino, d') =>
        let made := { d'.add name ino with links := update d'.links ino 1 }
        if !e.halfAdded then (some (ino, true), made)
        else
          match kind with
          | .dufs => (none, { made with used := update made.used ino false })
          | .ext3 => (none, d)

/-- What happens in `unlink`: nothing at all, or the inode is not written, or the name is kept,
which `dir_remove` may not have noticed. -/
structure UnlinkEnv where
  fails : Bool := false
  unwritten : Bool := false
  kept : Bool := false
  noticed : Bool := true

/-- `fs_unlink` and `ext3_unlink`: the result, and the inode that is freed. -/
def unlinkName (kind : FsKind) (d : Dirs) (name : Name) (e : UnlinkEnv) : Bool × Option Nat × Dirs :=
  if e.fails then (false, none, d)
  else
    match d.lookup name with
    | none => (false, none, d)
    | some ino =>
      match dropLink kind d ino e.unwritten with
      | none => (false, none, d)
      | some (freed, d') =>
        if !e.kept then (true, freed, d'.remove name)
        else
          match kind with
          | .dufs => (!e.noticed, freed, d')
          | .ext3 => (false, none, d)

/-- What happens in `rename`: nothing at all, or the file that is replaced is not written, or its
name is kept; or the new name cannot be added, or is added and `dir_add` fails all the same; or
the old one cannot be removed. -/
structure RenameEnv where
  fails : Bool := false
  targetUnwritten : Bool := false
  targetKept : Bool := false
  addFails : Bool := false
  halfAdded : Bool := false
  kept : Bool := false

/-- What `rename` does about a file of the new name. -/
def dropTarget (kind : FsKind) (d : Dirs) (name : Name) (e : RenameEnv) :
    Option (Option Nat × Dirs) :=
  match d.lookup name with
  | none => some (none, d)
  | some dst =>
    match kind with
    | .dufs =>
      let dropped :=
        if d.links dst ≤ 1 then
          (freeUnlinked .dufs d dst e.targetUnwritten).map fun d => (some dst, d)
        else some (none, d)
      dropped.map fun r => (r.1, if e.targetKept then r.2 else r.2.remove name)
    | .ext3 =>
      if e.targetKept then none
      else (dropLink .ext3 d dst e.targetUnwritten).map fun r => (r.1, r.2.remove name)

/-- `fs_rename` and `ext3_rename`: the result, and the inode that is freed. -/
def renameName (kind : FsKind) (d : Dirs) (old new : Name) (e : RenameEnv) :
    Bool × Option Nat × Dirs :=
  if e.fails then (false, none, d)
  else
    match d.lookup old with
    | none => (false, none, d)
    | some src =>
      if (kind = .dufs ∧ d.lookup new = some src) ∨ (kind = .ext3 ∧ old = new) then (true, none, d)
      else
        match dropTarget kind d new e with
        | none => (false, none, d)
        | some (freed, d') =>
          match kind with
          | .dufs =>
            if e.halfAdded then (false, freed, d'.add new src)
            else if e.addFails then (false, freed, d')
            else (true, freed, if e.kept then d'.add new src else (d'.add new src).remove old)
          | .ext3 =>
            if e.addFails || e.halfAdded || e.kept then (false, none, d)
            else (true, freed, (d'.add new src).remove old)

/-- What happens in `link`: nothing at all, or the name is added and the count is not written. -/
structure LinkEnv where
  fails : Bool := false
  uncounted : Bool := false

/-- `fs_link` and `ext3_link`. -/
def linkName (kind : FsKind) (d : Dirs) (old new : Name) (e : LinkEnv) : Bool × Dirs :=
  if e.fails then (false, d)
  else
    match d.lookup old, d.lookup new with
    | some ino, none =>
      if !e.uncounted then
        (true, { d.add new ino with links := update d.links ino ((d.links ino + 1) % 65536) })
      else
        match kind with
        | .dufs => (false, d.add new ino)
        | .ext3 => (false, d)
    | _, _ => (false, d)

/-! ## What the calls keep -/

/-- The number of names of an inode. -/
def Dirs.count (d : Dirs) (ino : Nat) : Nat := d.entries.countP fun e => e.2 == ino

/-- Names are counted, and what has a name is in use. -/
structure DirsOk (d : Dirs) : Prop where
  counted : ∀ ino, d.count ino ≤ d.links ino
  live : ∀ ino, d.count ino ≠ 0 → d.used ino = true

/-- What a call does that takes `name` away: it frees at most the inode of that name, with its
last link. -/
structure DirsStep (d : Dirs) (name : Name) (freed : Option Nat) (d' : Dirs) : Prop where
  ok : DirsOk d'
  kept : ∀ ino, freed ≠ some ino → d'.used ino = d.used ino
  last : ∀ ino, freed = some ino → d.lookup name = some ino ∧ d.links ino ≤ 1

section Lookup

variable {d : Dirs} {name name' : Name} {ino : Nat}

theorem Dirs.lookup_split (h : d.lookup name = some ino) :
    ∃ l1 l2, d.entries = l1 ++ (name, ino) :: l2 ∧ (d.remove name).entries = l1 ++ l2 := by
  obtain ⟨⟨name', ino'⟩, hfind, hino⟩ := Option.map_eq_some_iff.mp h
  obtain ⟨hp, l1, l2, heq, hl1⟩ := List.find?_eq_some_iff_append.mp hfind
  obtain rfl : name' = name := of_decide_eq_true hp
  obtain rfl : ino' = ino := hino
  refine ⟨l1, l2, heq, ?_⟩
  have hany : l1.any (fun e => decide (e.1 = name')) = false :=
    List.any_eq_false.mpr fun e he => by simpa using hl1 e he
  show d.entries.eraseP _ = l1 ++ l2
  rw [heq, List.eraseP_append, hany, List.eraseP_cons_of_pos (by simp)]
  rfl

@[simp] theorem Dirs.count_add (i : Nat) :
    (d.add name ino).count i = d.count i + if ino = i then 1 else 0 := by
  unfold Dirs.count Dirs.add
  rw [List.countP_cons]
  simp only [beq_iff_eq]

theorem Dirs.count_remove (h : d.lookup name = some ino) (i : Nat) :
    d.count i = (d.remove name).count i + if ino = i then 1 else 0 := by
  obtain ⟨l1, l2, heq, hrem⟩ := Dirs.lookup_split h
  unfold Dirs.count
  rw [heq, hrem, List.countP_append, List.countP_append, List.countP_cons]
  simp only [beq_iff_eq]
  omega

theorem Dirs.lookup_add (h : name' ≠ name) : (d.add name ino).lookup name' = d.lookup name' := by
  unfold Dirs.lookup Dirs.add
  rw [List.find?_cons_of_neg (by simpa using Ne.symm h)]

theorem Dirs.lookup_remove (h : name' ≠ name) : (d.remove name).lookup name' = d.lookup name' := by
  unfold Dirs.lookup Dirs.remove
  congr 1
  induction d.entries with
  | nil => rfl
  | cons e l ih =>
    by_cases he : e.1 = name
    · rw [List.eraseP_cons_of_pos (by simpa using he),
        List.find?_cons_of_neg (by simpa [he] using Ne.symm h)]
    · rw [List.eraseP_cons_of_neg (by simpa using he), List.find?_cons, List.find?_cons, ih]

theorem DirsOk.used (h : DirsOk d) (hname : d.lookup name = some ino) : d.used ino = true := by
  have hcount := Dirs.count_remove hname ino
  rw [if_pos rfl] at hcount
  exact h.live ino (by omega)

theorem Dirs.count_congr {d' : Dirs} (h : d'.entries = d.entries) (i : Nat) :
    d'.count i = d.count i := by
  unfold Dirs.count
  rw [h]

end Lookup

section Inodes

variable {kind : FsKind} {d d' : Dirs} {name : Name} {ino : Nat}

theorem allocInode_spec (h : allocInode kind d = some (ino, d')) :
    d.used ino = false ∧ d'.used = update d.used ino true ∧ d'.entries = d.entries ∧
      d'.links = d.links := by
  cases kind with
  | dufs | ext3 =>
    unfold allocInode at h
    dsimp only at h
    split at h
    · cases h
    next i hfind =>
      cases h
      exact ⟨by simpa using List.find?_some hfind, rfl, rfl, rfl⟩

theorem freeInode_spec (h : freeInode kind d ino = some d') :
    (∀ i, i ≠ ino → d'.used i = d.used i) ∧ d'.entries = d.entries ∧ d'.links = d.links := by
  cases kind with
  | dufs =>
    cases h
    split
    · exact ⟨fun i hi => update_of_ne hi _ _, rfl, rfl⟩
    · exact ⟨fun _ _ => rfl, rfl, rfl⟩
  | ext3 =>
    unfold freeInode at h
    dsimp only at h
    split at h
    · cases h
    split at h
    · cases h
      exact ⟨fun _ _ => rfl, rfl, rfl⟩
    cases h
    exact ⟨fun i hi => update_of_ne hi _ _, rfl, rfl⟩

/-- Only the count of the inode changes, if it is written. -/
theorem writeLinks_spec {n : Nat} {unwritten : Bool}
    (h : writeLinks kind d ino n unwritten = some d') :
    d'.entries = d.entries ∧ d'.used = d.used ∧ (∀ i, i ≠ ino → d'.links i = d.links i) ∧
      (d'.links ino = n ∨ d'.links ino = d.links ino) := by
  unfold writeLinks at h
  split at h
  · cases h
    exact ⟨rfl, rfl, fun i hi => update_of_ne hi _ _, .inl (update_self ..)⟩
  · cases kind with
    | dufs =>
      cases h
      exact ⟨rfl, rfl, fun _ _ => rfl, .inr rfl⟩
    | ext3 => cases h

theorem freeUnlinked_spec {unwritten : Bool} (h : freeUnlinked kind d ino unwritten = some d') :
    d'.entries = d.entries ∧ ∀ i, i ≠ ino → d'.used i = d.used i ∧ d'.links i = d.links i := by
  obtain ⟨d1, hd1, hd'⟩ := Option.bind_eq_some_iff.mp h
  obtain ⟨hused, hentries, hlinks⟩ := freeInode_spec hd1
  obtain ⟨hentries', hused', hlinks', -⟩ := writeLinks_spec hd'
  refine ⟨hentries'.trans hentries, fun i hi => ⟨?_, ?_⟩⟩
  · rw [hused', hused i hi]
  · rw [hlinks' i hi, hlinks]

/-- A name goes, and with it a link of its inode or none. -/
theorem DirsOk.removed (h : DirsOk d) (hname : d.lookup name = some ino)
    (hentries : d'.entries = d.entries)
    (hother : ∀ i, i ≠ ino → d'.used i = d.used i ∧ d'.links i = d.links i)
    (hself : d.count ino ≤ 1 ∨ d'.used ino = d.used ino ∧ d.links ino - 1 ≤ d'.links ino) :
    DirsOk (d'.remove name) := by
  have hcount : ∀ i, (d'.remove name).count i = (d.remove name).count i := fun i => by
    simp only [Dirs.count, Dirs.remove, hentries]
  constructor <;> intro i <;> have hrem := Dirs.count_remove hname i <;> have hle := h.counted i
  · show _ ≤ d'.links i
    rw [hcount]
    by_cases hi : ino = i
    · subst hi
      rw [if_pos rfl] at hrem
      omega
    · rw [(hother i (Ne.symm hi)).2]
      omega
  · intro hne
    show d'.used i = true
    rw [hcount] at hne
    by_cases hi : ino = i
    · subst hi
      rw [if_pos rfl] at hrem
      rcases hself with hlast | ⟨hused, -⟩
      · omega
      · rw [hused, h.used hname]
    · rw [(hother i (Ne.symm hi)).1]
      exact h.live i (by omega)

/-- The last link of an inode goes, and its last name. -/
theorem DirsOk.freed (h : DirsOk d) (hname : d.lookup name = some ino) (hlast : d.links ino ≤ 1)
    {unwritten : Bool} (hfree : freeUnlinked kind d ino unwritten = some d') :
    DirsStep d name (some ino) (d'.remove name) := by
  obtain ⟨hentries, hother⟩ := freeUnlinked_spec hfree
  exact ⟨h.removed hname hentries hother (.inl ((h.counted ino).trans hlast)),
    fun i hi => (hother i fun heq => hi (congrArg some heq.symm)).1,
    fun i hi => Option.some.inj hi ▸ ⟨hname, hlast⟩⟩

/-- A name goes, of an inode that has more. -/
theorem DirsOk.unnamed (h : DirsOk d) (hname : d.lookup name = some ino)
    (hentries : d'.entries = d.entries) (hused : d'.used = d.used)
    (hother : ∀ i, i ≠ ino → d'.links i = d.links i) (hself : d.links ino - 1 ≤ d'.links ino) :
    DirsStep d name none (d'.remove name) :=
  ⟨h.removed hname hentries (fun i hi => ⟨congrFun hused i, hother i hi⟩)
    (.inr ⟨congrFun hused ino, hself⟩), fun i _ => congrFun hused i, nofun⟩

theorem DirsOk.dropLink (h : DirsOk d) (hname : d.lookup name = some ino) {freed : Option Nat}
    {unwritten : Bool} (hdrop : dropLink kind d ino unwritten = some (freed, d')) :
    DirsStep d name freed (d'.remove name) := by
  unfold Vfs.dropLink at hdrop
  split at hdrop
  next hlast =>
    obtain ⟨d1, hd1, heq⟩ := Option.map_eq_some_iff.mp hdrop
    cases heq
    exact h.freed hname hlast hd1
  next hmany =>
    obtain ⟨d1, hd1, heq⟩ := Option.map_eq_some_iff.mp hdrop
    cases heq
    obtain ⟨hentries, hused, hother, hself⟩ := writeLinks_spec hd1
    exact h.unnamed hname hentries hused hother (by omega)

end Inodes

section Calls

variable {kind : FsKind} {d : Dirs}

theorem DirsStep.refl (h : DirsOk d) (name : Name) : DirsStep d name none d :=
  ⟨h, fun _ _ => rfl, nofun⟩

theorem unlinkName_step (h : DirsOk d) (name : Name) {e : UnlinkEnv}
    (he : kind = .dufs → e.kept = false) :
    DirsStep d name (unlinkName kind d name e).2.1 (unlinkName kind d name e).2.2 := by
  unfold unlinkName
  split
  · exact .refl h name
  split
  · exact .refl h name
  next ino hname =>
  split
  · exact .refl h name
  next freed d' hdrop =>
    split
    · exact h.dropLink hname hdrop
    next hkept =>
      cases kind with
      | dufs => exact absurd (he rfl) (by simpa using hkept)
      | ext3 => exact .refl h name

theorem dropLink_entries {d' : Dirs} {ino : Nat} {freed : Option Nat} {unwritten : Bool}
    (h : dropLink kind d ino unwritten = some (freed, d')) : d'.entries = d.entries := by
  unfold dropLink at h
  split at h
  · obtain ⟨d1, hd1, heq⟩ := Option.map_eq_some_iff.mp h
    cases heq
    exact (freeUnlinked_spec hd1).1
  · obtain ⟨d1, hd1, heq⟩ := Option.map_eq_some_iff.mp h
    cases heq
    exact (writeLinks_spec hd1).1

theorem Dirs.lookup_congr {d' : Dirs} (h : d'.entries = d.entries) (name : Name) :
    d'.lookup name = d.lookup name := by
  unfold Dirs.lookup
  rw [h]

/-- What is under the new name goes; the other names stay. -/
theorem DirsOk.dropTarget (h : DirsOk d) {name : Name} {e : RenameEnv}
    (he : kind = .dufs → e.targetKept = false) {freed : Option Nat} {d' : Dirs}
    (hdrop : dropTarget kind d name e = some (freed, d')) :
    DirsStep d name freed d' ∧ ∀ name', name' ≠ name → d'.lookup name' = d.lookup name' := by
  have hremoved : ∀ d1 : Dirs, d1.entries = d.entries → ∀ name', name' ≠ name →
      (d1.remove name).lookup name' = d.lookup name' := fun d1 heq name' hne =>
    (Dirs.lookup_remove hne).trans (Dirs.lookup_congr heq name')
  unfold Vfs.dropTarget at hdrop
  split at hdrop
  · cases hdrop
    exact ⟨.refl h name, fun _ _ => rfl⟩
  next dst hname =>
  cases kind with
  | dufs =>
    obtain ⟨⟨freed1, d1⟩, hd1, heq⟩ := Option.map_eq_some_iff.mp hdrop
    rw [he rfl] at heq
    cases heq
    split at hd1
    next hlast =>
      obtain ⟨d2, hd2, heq⟩ := Option.map_eq_some_iff.mp hd1
      cases heq
      exact ⟨h.freed hname hlast hd2, hremoved _ (freeUnlinked_spec hd2).1⟩
    next hmany =>
      cases hd1
      exact ⟨h.unnamed hname rfl rfl (fun _ _ => rfl) (Nat.sub_le _ _), hremoved d rfl⟩
  | ext3 =>
    dsimp only at hdrop
    split at hdrop
    · cases hdrop
    obtain ⟨⟨freed1, d1⟩, hd1, heq⟩ := Option.map_eq_some_iff.mp hdrop
    cases heq
    exact ⟨h.dropLink hname hd1, hremoved d1 (dropLink_entries hd1)⟩

/-- A name of a file is changed into another one. -/
theorem DirsOk.moved (h : DirsOk d) {old new : Name} {src : Nat} (hold : d.lookup old = some src)
    (hne : old ≠ new) : DirsOk ((d.add new src).remove old) := by
  have hlookup : (d.add new src).lookup old = some src := (Dirs.lookup_add hne).trans hold
  have hcount : ∀ i, ((d.add new src).remove old).count i = d.count i := fun i => by
    have hrem := Dirs.count_remove hlookup i
    rw [Dirs.count_add] at hrem
    omega
  refine ⟨fun i => ?_, fun i hi => h.live i (by rwa [← hcount])⟩
  rw [hcount]
  exact h.counted i

/-- A file with two names has two links. -/
theorem DirsOk.two_names (h : DirsOk d) {old new : Name} {ino : Nat} (hne : old ≠ new)
    (hold : d.lookup old = some ino) (hnew : d.lookup new = some ino) : 2 ≤ d.links ino := by
  have hfirst := Dirs.count_remove hnew ino
  have hlookup : (d.remove new).lookup old = some ino := (Dirs.lookup_remove hne).trans hold
  have hsecond := Dirs.count_remove hlookup ino
  rw [if_pos rfl] at hfirst hsecond
  have := h.counted ino
  omega

/-- What is freed is not the file that gets the new name. -/
theorem renameName_step (h : DirsOk d) (old new : Name) {e : RenameEnv}
    (he : kind = .dufs → e.targetKept = false ∧ e.halfAdded = false ∧ e.kept = false) :
    DirsStep d new (renameName kind d old new e).2.1 (renameName kind d old new e).2.2 ∧
      ∀ ino, (renameName kind d old new e).2.1 = some ino → d.lookup old ≠ some ino := by
  have hnone : DirsStep d new none d ∧ ∀ ino, none = some ino → d.lookup old ≠ some ino :=
    ⟨.refl h new, nofun⟩
  unfold renameName
  split
  · exact hnone
  split
  · exact hnone
  next src hold =>
  split
  · exact hnone
  next hother =>
  have hne : old ≠ new := by
    rintro rfl
    cases kind with
    | dufs => exact hother (.inl ⟨rfl, hold⟩)
    | ext3 => exact hother (.inr ⟨rfl, rfl⟩)
  split
  · exact hnone
  next freed d' hdrop =>
  obtain ⟨hstep, hlookup⟩ := h.dropTarget (fun hk => (he hk).1) hdrop
  have hmoved : DirsStep d new freed ((d'.add new src).remove old) :=
    ⟨hstep.ok.moved ((hlookup old hne).trans hold) hne, hstep.kept, hstep.last⟩
  have hsrc : ∀ ino, freed = some ino → d.lookup old ≠ some ino := by
    intro ino hfreed heq
    obtain ⟨hnew, hlast⟩ := hstep.last ino hfreed
    have := h.two_names hne heq hnew
    omega
  cases kind with
  | dufs =>
    dsimp only
    rw [(he rfl).2.1, (he rfl).2.2, if_neg (by decide)]
    split
    · exact ⟨hstep, hsrc⟩
    · exact ⟨hmoved, hsrc⟩
  | ext3 =>
    dsimp only
    split
    · exact ⟨.refl h new, nofun⟩
    · exact ⟨hmoved, hsrc⟩

/-- An inode that was free gets its first name. -/
theorem DirsOk.created (h : DirsOk d) (name : Name) {ino : Nat} {d' : Dirs}
    (halloc : allocInode kind d = some (ino, d')) :
    DirsOk { d'.add name ino with links := update d'.links ino 1 } := by
  obtain ⟨hfree, hused, hentries, hlinks⟩ := allocInode_spec halloc
  -- an inode that is not in use has no names
  have hzero : d.count ino = 0 := by
    by_contra hne
    rw [h.live ino hne] at hfree
    cases hfree
  have hcount : ∀ i, (d'.add name ino).count i = d.count i + if ino = i then 1 else 0 := fun i => by
    rw [Dirs.count_add, Dirs.count_congr hentries]
  refine ⟨fun i => ?_, fun i hi => ?_⟩
  · show (d'.add name ino).count i ≤ update d'.links ino 1 i
    rw [hcount]
    by_cases hi : ino = i
    · rw [← hi, if_pos rfl, update_self, hzero]
    · rw [if_neg hi, update_of_ne (Ne.symm hi), hlinks]
      exact h.counted i
  · show d'.used i = true
    have hi' : (d'.add name ino).count i ≠ 0 := hi
    rw [hcount] at hi'
    rw [hused]
    by_cases heq : i = ino
    · rw [heq, update_self]
    · rw [if_neg (Ne.symm heq)] at hi'
      rw [update_of_ne heq]
      exact h.live i hi'

theorem createName_step (h : DirsOk d) (name : Name) {e : CreateEnv}
    (he : kind = .dufs → e.unwritten = false ∧ e.halfAdded = false) :
    DirsOk (createName kind d name e).2 ∧
      ((∃ ino, (createName kind d name e).1 = some (ino, true) ∧ d.used ino = false ∧
          (createName kind d name e).2.used = update d.used ino true) ∨
        (createName kind d name e).2 = d ∧
          ∀ ino fresh, (createName kind d name e).1 = some (ino, fresh) → fresh = false) := by
  unfold createName
  split
  · exact ⟨h, .inr ⟨rfl, nofun⟩⟩
  split
  next ino _ =>
    split
    · exact ⟨h, .inr ⟨rfl, fun _ _ heq => (Prod.mk.inj (Option.some.inj heq)).2.symm⟩⟩
    next hwritten =>
      cases kind with
      | dufs => exact absurd (he rfl).1 (by simpa using hwritten)
      | ext3 => exact ⟨h, .inr ⟨rfl, nofun⟩⟩
  split
  · exact ⟨h, .inr ⟨rfl, nofun⟩⟩
  next ino d' halloc =>
    obtain ⟨hfree, hused, -⟩ := allocInode_spec halloc
    dsimp only
    split
    · exact ⟨h.created name halloc, .inl ⟨ino, rfl, hfree, hused⟩⟩
    next hadded =>
      cases kind with
      | dufs => exact absurd (he rfl).2 (by simpa using hadded)
      | ext3 => exact ⟨h, .inr ⟨rfl, nofun⟩⟩

theorem linkName_step (kind : FsKind) (h : DirsOk d) (old new : Name) {e : LinkEnv}
    (he : e.uncounted = false)
    (hfit : ∀ ino, d.lookup old = some ino → d.links ino < 65535) :
    DirsOk (linkName kind d old new e).2 ∧ (linkName kind d old new e).2.used = d.used := by
  unfold linkName
  split
  · exact ⟨h, rfl⟩
  split
  next ino hold _ =>
    have hlt := hfit ino hold
    rw [he, if_pos (by decide), Nat.mod_eq_of_lt (by omega)]
    refine ⟨⟨fun i => ?_, fun i hi => ?_⟩, rfl⟩
    · have hle := h.counted i
      show (d.add new ino).count i ≤ update d.links ino (d.links ino + 1) i
      rw [Dirs.count_add]
      by_cases hi : ino = i
      · rw [← hi] at hle ⊢
        rw [if_pos rfl, update_self]
        omega
      · rw [if_neg hi, update_of_ne (Ne.symm hi)]
        exact hle
    · by_cases heq : i = ino
      · rw [heq]
        exact h.used hold
      · have hi' : (d.add new ino).count i ≠ 0 := hi
        rw [Dirs.count_add, if_neg (Ne.symm heq)] at hi'
        exact h.live i hi'
  · exact ⟨h, rfl⟩

end Calls

end Drunix.Vfs
