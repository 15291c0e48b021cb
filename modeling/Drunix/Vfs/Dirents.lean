import Drunix.Lib.Loop

/-!
# Directory iteration

`getdents` and `getdents64` (`proc/syscall/vfs/dirents.c`). The position of a directory
descriptor is the number of records given out. Each call asks `vfs_getdents`
(`fs/vfs/lookup.c`) for the whole listing as NUL-terminated names in a scratch buffer of
4096 bytes, skips as many records as were given out, packs the next ones into a kernel buffer
and copies it to the user.

`getdents_complete`: over a directory whose listing fits the scratch buffer and that holds files
and directories only, any calls whose buffers take the next record and whose copies succeed
give out `.`, `..` and every entry once, whole and in order. And those are the calls that work:
`CallRight` holds of a call exactly when it is `Served`. The position is moved before the copy
is made, and a buffer too small for one record gives 0, the mark of the end
(`entries_lost`).

Mirroring notes:
- `ext3_getdents`, `devfs_getdents`, `procfs_getdents` and `sysfs_getdents` put a name in whole
  or stop; `fs_list` of DUFS goes byte by byte and can stop inside a name, with the rest of the
  heap block behind it (`junk`).
- The listing of ext3 and DUFS is filtered for names under which something is mounted.
- `linux_fill_getdents` goes by the path in the descriptor, and `linuxFillGetdents` by the
  directory: the path has to name it, which it need not do where `open` has cut it to 127
  characters (`descriptor_cut`).
-/

namespace Drunix.Vfs

open Lib

/-! ## Directories -/

inductive EntryKind where
  | reg | dir | symlink | chr | blk
deriving DecidableEq

/-- The `DT_*` value of Linux. -/
def EntryKind.dtype : EntryKind → Nat
  | reg => 8
  | dir => 4
  | symlink => 10
  | chr => 2
  | blk => 6

structure DirEnt where
  name : List Nat
  kind : EntryKind
deriving DecidableEq

/-- 1 to 255 bytes, without NUL and slash. -/
def NameOk (name : List Nat) : Prop :=
  name ≠ [] ∧ name.length ≤ 255 ∧ ∀ b ∈ name, b ≠ 0 ∧ b ≠ 47

/-- Which function lists the directory. -/
inductive DirSource where
  | ext3 | dufs | synthetic
deriving DecidableEq

/-- A directory: its entries, and the names under it at which something is mounted. -/
structure Dir where
  source : DirSource
  entries : List DirEnt
  mounts : List (List Nat)
  entry_ok : ∀ e ∈ entries, NameOk e.name
  mount_ok : ∀ m ∈ mounts, NameOk m

/-- The text of an entry in a listing: a slash marks directories. -/
def DirEnt.raw (e : DirEnt) : List Nat := if e.kind = .dir then e.name ++ [47] else e.name

/-- A listing: every text with its NUL. -/
def pack (es : List DirEnt) : List Nat := es.flatMap fun e => e.raw ++ [0]

/-! ## The listing -/

/-- The C string at the start of a piece of memory. -/
def cstr (mem : List Nat) : List Nat := mem.takeWhile (· ≠ 0)

/-- `vfs_append_dirent`; `none` is its -1. -/
def vfsAppendDirent (bufsz : Nat) (buf : List Nat) (e : DirEnt) : Option (List Nat) :=
  if buf.length + e.name.length + (if e.kind = .dir then 2 else 1) > bufsz then none
  else some (buf ++ e.raw ++ [0])

/-- The loops of `ext3_getdents`, `devfs_getdents` and the others: stop at the first entry
that does not fit. -/
def appendDirents (bufsz : Nat) : List DirEnt → List Nat → List Nat
  | [], buf => buf
  | e :: es, buf =>
    match vfsAppendDirent bufsz buf e with
    | none => buf
    | some buf => appendDirents bufsz es buf

/-- The inner loop of `fs_list`; `true` is its `goto done`. -/
def fsListName (bufsz : Nat) : List Nat → List Nat → List Nat × Bool
  | [], buf => (buf, false)
  | c :: name, buf =>
    if buf.length ≥ bufsz - 2 then (buf, true) else fsListName bufsz name (buf ++ [c])

/-- `fs_list` on the entries of the directory. -/
def fsList (bufsz : Nat) : List DirEnt → List Nat → List Nat
  | [], buf => buf
  | e :: es, buf =>
    match fsListName bufsz e.name buf with
    | (buf, true) => buf
    | (buf, false) =>
      let buf := if e.kind = .dir ∧ buf.length < bufsz - 1 then buf ++ [47] else buf
      let buf := if buf.length < bufsz then buf ++ [0] else buf
      fsList bufsz es buf

/-- `vfs_entry_shadowed`. -/
def vfsEntryShadowed (mounts : List (List Nat)) (entry : List Nat) : Bool :=
  mounts.contains (if entry.getLast? = some 47 then entry.dropLast else entry)

/-- The loop of `vfs_getdents` over the listing of the file system; `junk` is what lies in
memory behind it. -/
def vfsCopyEntries (mounts : List (List Nat)) (bufsz : Nat) (junk : List Nat) :
    Nat → List Nat → List Nat → List Nat
  | 0, _, buf => buf
  | _ + 1, [], buf => buf
  | n + 1, c :: rest, buf =>
    let entry := cstr (c :: rest ++ junk)
    let next := (c :: rest).drop (entry.length + 1)
    if vfsEntryShadowed mounts entry then vfsCopyEntries mounts bufsz junk n next buf
    else if buf.length + entry.length + 1 > bufsz then buf
    else vfsCopyEntries mounts bufsz junk n next (buf ++ (entry ++ [0]))

/-- A mount point as an entry. -/
def mountEnt (name : List Nat) : DirEnt := ⟨name, .dir⟩

/-- `vfs_getdents`. -/
def vfsGetdents (d : Dir) (junk : List Nat) (bufsz : Nat) : List Nat :=
  let buf :=
    match d.source with
    | .synthetic => appendDirents bufsz d.entries []
    | .ext3 =>
      let tmp := appendDirents bufsz d.entries []
      vfsCopyEntries d.mounts bufsz junk tmp.length tmp []
    | .dufs =>
      let tmp := fsList bufsz d.entries []
      vfsCopyEntries d.mounts bufsz junk tmp.length tmp []
  appendDirents bufsz (d.mounts.map mountEnt) buf

/-! ## Records -/

def bytes16 (v : Nat) : List Nat := [v % 256, v / 256 % 256]

def bytes32 (v : Nat) : List Nat := bytes16 v ++ bytes16 (v / 65536)

def bytes64 (v : Nat) : List Nat := bytes32 v ++ bytes32 (v / 4294967296)

/-- `linux_dirent_reclen`, and `linux_dirent64_reclen` for the wide format. -/
def linuxDirentReclen (wide : Bool) (nameLen : Nat) : Nat :=
  if wide then (19 + nameLen + 1 + 7) / 8 * 8 else (10 + nameLen + 2 + 3) / 4 * 4

/-- One record, number `entry`. -/
def direntRecord (wide : Bool) (entry : Nat) (name : List Nat) (type : Nat) : List Nat :=
  let reclen := linuxDirentReclen wide name.length
  if wide then
    bytes64 entry ++ bytes64 entry ++ bytes16 reclen ++ [type] ++ name ++
      List.replicate (reclen - 19 - name.length) 0
  else
    bytes32 entry ++ bytes32 entry ++ bytes16 reclen ++ name ++
      List.replicate (reclen - 11 - name.length) 0 ++ [type]

/-- Where the packing loops stand. -/
structure Fill where
  entry : Nat
  out : List Nat
  index : Nat
  full : Bool

/-- The body of the two packing loops. -/
def fillOne (wide : Bool) (count : Nat) (f : Fill) (item : List Nat × Nat) : Fill :=
  if f.full then f
  else if f.entry < f.index then { f with entry := f.entry + 1 }
  else if f.out.length + linuxDirentReclen wide item.1.length > count then
    { f with entry := f.entry + 1, full := true }
  else
    { f with
      entry := f.entry + 1
      out := f.out ++ direntRecord wide (f.entry + 1) item.1 item.2
      index := f.index + 1 }

/-- The names in the scratch buffer, one after the other; empty ones are skipped. -/
def scratchNames : Nat → List Nat → List (List Nat)
  | 0, _ => []
  | _ + 1, [] => []
  | n + 1, c :: rest =>
    let raw := cstr (c :: rest)
    let names := scratchNames n ((c :: rest).drop (raw.length + 1))
    if raw = [] then names else raw :: names

/-- Name and type of a text: directories by their slash, everything else is a file. -/
def rawItem (raw : List Nat) : List Nat × Nat :=
  if raw.getLast? = some 47 then (raw.dropLast, EntryKind.dir.dtype) else (raw, EntryKind.reg.dtype)

/-- `.` and `..`. -/
def dotItems : List (List Nat × Nat) :=
  [([46], EntryKind.dir.dtype), ([46, 46], EntryKind.dir.dtype)]

/-- A call: the user's buffer and its size, and what can go wrong on the way. -/
structure DirCall where
  wide : Bool
  userBuf : Nat
  count : Nat
  alloc : Bool
  copies : Bool
  junk : List Nat

/-- What a call gives back, and the position it leaves. -/
structure DirReply where
  ret : Int
  index : Nat
  bytes : List Nat

/-- `LINUX_DIRENT_NAME_SCRATCH`. -/
def direntNameScratch : Nat := 4096

/-- `linux_fill_getdents`, and `linux_fill_getdents64` for the wide format. -/
def linuxFillGetdents (d : Dir) (index : Nat) (c : DirCall) : DirReply :=
  if c.userBuf = 0 ∨ c.count = 0 then ⟨-1, index, []⟩
  else if !c.alloc then ⟨-1, index, []⟩
  else
    let names := vfsGetdents d c.junk direntNameScratch
    let f := dotItems.foldl (fillOne c.wide c.count) ⟨0, [], index, false⟩
    let f := ((scratchNames names.length names).map rawItem).foldl (fillOne c.wide c.count) f
    if f.out ≠ [] ∧ c.copies = false then ⟨-1, f.index, []⟩
    else ⟨f.out.length, f.index, f.out⟩

/-! ## The reader of the records -/

/-- One record off the front of the user's buffer. -/
def readDirent (wide : Bool) (bytes : List Nat) : Option ((List Nat × Nat) × List Nat) :=
  let at' := if wide then 16 else 8
  let reclen := bytes.getD at' 0 + 256 * bytes.getD (at' + 1) 0
  if reclen = 0 ∨ bytes.length < reclen then none
  else
    let rec' := bytes.take reclen
    let name := cstr (rec'.drop (if wide then 19 else 10))
    let type := rec'.getD (if wide then 18 else reclen - 1) 0
    some ((name, type), bytes.drop reclen)

/-- All records of a buffer; `none` if they do not come out whole. -/
def readDirents (wide : Bool) : Nat → List Nat → Option (List (List Nat × Nat))
  | _, [] => some []
  | 0, _ :: _ => none
  | n + 1, b :: bytes =>
    match readDirent wide (b :: bytes) with
    | none => none
    | some (item, rest) => (readDirents wide n rest).map (item :: ·)

/-! ## What a listing should hold -/

/-- The entries to be seen: those under which nothing is mounted, and the mount points. -/
def Dir.visible (d : Dir) : List DirEnt :=
  (match d.source with
    | .synthetic => d.entries
    | _ => d.entries.filter fun e => !d.mounts.contains e.name) ++ d.mounts.map mountEnt

/-- The records of the directory. -/
def Dir.wanted (d : Dir) : List (List Nat × Nat) :=
  dotItems ++ d.visible.map fun e => (e.name, e.kind.dtype)

/-- The bytes an entry must find free in the buffer of the file system's listing. -/
def DirSource.room : DirSource → DirEnt → Nat
  | .dufs, e => e.name.length + 2
  | _, e => e.raw.length + 1

/-- Every entry finds its room behind those before it. -/
def FitsFrom (room : DirEnt → Nat) : Nat → List DirEnt → Prop
  | _, [] => True
  | used, e :: es => used + room e ≤ direntNameScratch ∧ FitsFrom room (used + (e.raw.length + 1)) es

/-- The listing fits the scratch buffer, and there are files and directories only. -/
structure Dir.Listable (d : Dir) : Prop where
  listed : FitsFrom d.source.room 0 d.entries
  fits : (pack d.visible).length ≤ direntNameScratch
  typed : ∀ e ∈ d.visible, e.kind = .reg ∨ e.kind = .dir

/-! ## The listing of a directory that fits -/

theorem DirEnt.raw_length (e : DirEnt) :
    e.raw.length = e.name.length + if e.kind = .dir then 1 else 0 := by
  unfold DirEnt.raw
  split <;> simp

variable {d : Dir} {c : DirCall} {e : DirEnt}

theorem DirEnt.raw_ne_zero (h : NameOk e.name) : ∀ b ∈ e.raw, b ≠ 0 := by
  intro b hb
  unfold DirEnt.raw at hb
  split at hb
  · rcases List.mem_append.mp hb with hb | hb
    · exact (h.2.2 b hb).1
    · rw [List.mem_singleton.mp hb]
      decide
  · exact (h.2.2 b hb).1

theorem DirEnt.raw_ne_nil (h : NameOk e.name) : e.raw ≠ [] := by
  unfold DirEnt.raw
  split
  · simp
  · exact h.1

theorem pack_cons (e : DirEnt) (es : List DirEnt) : pack (e :: es) = e.raw ++ 0 :: pack es := by
  simp [pack]

theorem pack_append (es es' : List DirEnt) : pack (es ++ es') = pack es ++ pack es' :=
  List.flatMap_append

theorem cstr_append {text : List Nat} (h : ∀ b ∈ text, b ≠ 0) (rest : List Nat) :
    cstr (text ++ 0 :: rest) = text := by
  unfold cstr
  rw [List.takeWhile_append_of_pos (fun b hb => by simpa using h b hb)]
  simp

theorem drop_text (text : List Nat) (b : Nat) (rest : List Nat) :
    (text ++ b :: rest).drop (text.length + 1) = rest := by
  rw [← List.drop_drop, List.drop_left]
  rfl

theorem appendDirents_fits (es : List DirEnt) (buf : List Nat)
    (h : FitsFrom (fun e => e.raw.length + 1) buf.length es) :
    appendDirents direntNameScratch es buf = buf ++ pack es := by
  induction es generalizing buf with
  | nil => simp [appendDirents, pack]
  | cons e es ih =>
    have hroom : ¬ buf.length + e.name.length + (if e.kind = .dir then 2 else 1)
        > direntNameScratch := by
      have h1 := h.1
      have h2 := e.raw_length
      split <;> simp_all <;> omega
    have hrest : FitsFrom (fun e => e.raw.length + 1) (buf ++ e.raw ++ [0]).length es := by
      have hlen : (buf ++ e.raw ++ [0]).length = buf.length + (e.raw.length + 1) := by simp
      exact hlen ▸ h.2
    unfold appendDirents vfsAppendDirent
    rw [if_neg hroom]
    simp only
    rw [ih _ hrest, pack_cons]
    simp

theorem fsListName_fits (bufsz : Nat) (name buf : List Nat)
    (h : buf.length + name.length ≤ bufsz - 2) :
    fsListName bufsz name buf = (buf ++ name, false) := by
  induction name generalizing buf with
  | nil => simp [fsListName]
  | cons c name ih =>
    rw [List.length_cons] at h
    unfold fsListName
    rw [if_neg (by omega), ih (buf ++ [c]) (by simp; omega)]
    simp

theorem fsList_fits (es : List DirEnt) (buf : List Nat)
    (h : FitsFrom (fun e => e.name.length + 2) buf.length es) :
    fsList direntNameScratch es buf = buf ++ pack es := by
  induction es generalizing buf with
  | nil => simp [fsList, pack]
  | cons e es ih =>
    have h1 : buf.length + (e.name.length + 2) ≤ 4096 := h.1
    have hname := fsListName_fits direntNameScratch e.name buf
      (show buf.length + e.name.length ≤ 4094 by omega)
    have hlen : (buf ++ e.raw ++ [0]).length = buf.length + (e.raw.length + 1) := by simp
    have hslash : (if e.kind = .dir ∧ (buf ++ e.name).length < direntNameScratch - 1
        then buf ++ e.name ++ [47] else buf ++ e.name) = buf ++ e.raw := by
      have hlt : (buf ++ e.name).length < direntNameScratch - 1 := by
        rw [List.length_append]
        show _ < 4095
        omega
      unfold DirEnt.raw
      by_cases hk : e.kind = .dir
      · rw [if_pos ⟨hk, hlt⟩, if_pos hk, List.append_assoc]
      · rw [if_neg (fun hc => hk hc.1), if_neg hk]
    have hnul : (buf ++ e.raw).length < direntNameScratch := by
      rw [List.length_append, e.raw_length]
      show _ < 4096
      split <;> omega
    unfold fsList
    rw [hname]
    simp only
    rw [hslash, if_pos hnul, ih _ (hlen ▸ h.2), pack_cons]
    simp

theorem fitsFrom_of_length (es : List DirEnt) (used : Nat)
    (h : used + (pack es).length ≤ direntNameScratch) :
    FitsFrom (fun e => e.raw.length + 1) used es := by
  induction es generalizing used with
  | nil => trivial
  | cons e es ih =>
    rw [pack_cons, List.length_append, List.length_cons] at h
    exact ⟨show used + (e.raw.length + 1) ≤ _ by omega, ih _ (by omega)⟩

/-- An entry is shadowed when its name is that of a mount point. -/
theorem shadowed_raw (mounts : List (List Nat)) (h : NameOk e.name) :
    vfsEntryShadowed mounts e.raw = mounts.contains e.name := by
  unfold vfsEntryShadowed DirEnt.raw
  by_cases hk : e.kind = .dir
  · simp [hk]
  · have hlast : e.name.getLast? ≠ some 47 := by
      intro hl
      exact (h.2.2 47 (List.mem_of_getLast? hl)).2 rfl
    rw [if_neg hk, if_neg hlast]

/-- The first entry of a buffer. -/
theorem pack_first (he : NameOk e.name) (es : List DirEnt) (junk : List Nat) :
    cstr (pack (e :: es) ++ junk) = e.raw ∧ (pack (e :: es)).drop (e.raw.length + 1) = pack es ∧
      (pack (e :: es)).length = e.raw.length + ((pack es).length + 1) := by
  rw [pack_cons]
  refine ⟨?_, drop_text _ _ _, by rw [List.length_append, List.length_cons]⟩
  rw [List.append_assoc, List.cons_append]
  exact cstr_append (e.raw_ne_zero he) _

theorem vfsCopyEntries_pack (mounts : List (List Nat)) (junk : List Nat) (es : List DirEnt)
    (hok : ∀ e ∈ es, NameOk e.name) (n : Nat) (buf : List Nat) (hn : (pack es).length ≤ n)
    (hfit : buf.length + (pack (es.filter fun e => !mounts.contains e.name)).length
      ≤ direntNameScratch) :
    vfsCopyEntries mounts direntNameScratch junk n (pack es) buf
      = buf ++ pack (es.filter fun e => !mounts.contains e.name) := by
  induction es generalizing n buf with
  | nil => cases n <;> simp [vfsCopyEntries, pack]
  | cons e es ih =>
    have he := hok e (List.mem_cons_self ..)
    have hes : ∀ e ∈ es, NameOk e.name := fun e' he' => hok e' (List.mem_cons_of_mem _ he')
    obtain ⟨hcstr, hdrop, hlen⟩ := pack_first he es junk
    obtain ⟨c, rest, hcons⟩ : ∃ c rest, pack (e :: es) = c :: rest := by
      cases hp : pack (e :: es) with
      | nil => rw [hp] at hlen; simp at hlen
      | cons c rest => exact ⟨c, rest, rfl⟩
    cases n with
    | zero => omega
    | succ n =>
      rw [hcons]
      unfold vfsCopyEntries
      simp only
      rw [← hcons, hcstr, hdrop, shadowed_raw mounts he]
      by_cases hm : mounts.contains e.name = true
      · rw [if_pos hm, List.filter_cons_of_neg (by simpa using hm)]
        rw [List.filter_cons_of_neg (by simpa using hm)] at hfit
        exact ih hes n buf (by omega) hfit
      · have hkeep : (e :: es).filter (fun e => !mounts.contains e.name)
            = e :: es.filter fun e => !mounts.contains e.name :=
          List.filter_cons_of_pos (by simpa using hm)
        rw [hkeep, pack_cons, List.length_append, List.length_cons] at hfit
        rw [if_neg hm, if_neg (by omega), hkeep, pack_cons,
          ih hes n (buf ++ (e.raw ++ [0])) (by omega)
            (by simp only [List.length_append, List.length_singleton]; omega)]
        simp

/-- The scratch buffer holds what is to be seen. -/
theorem vfsGetdents_listable (hd : d.Listable) (junk : List Nat) :
    vfsGetdents d junk direntNameScratch = pack d.visible := by
  obtain ⟨hlisted, hfits, -⟩ := hd
  have hmounts : ∀ es : List DirEnt, d.visible = es ++ d.mounts.map mountEnt →
      appendDirents direntNameScratch (d.mounts.map mountEnt) (pack es) = pack d.visible := by
    intro es hes
    rw [hes, pack_append] at hfits ⊢
    rw [List.length_append] at hfits
    exact appendDirents_fits _ _ (fitsFrom_of_length _ _ hfits)
  have hfilter : ∀ es : List DirEnt, d.visible = es ++ d.mounts.map mountEnt →
      (pack es).length ≤ direntNameScratch := by
    intro es hes
    rw [hes, pack_append, List.length_append] at hfits
    omega
  -- for the file systems on disk the listing goes through the filter
  have hdisk : d.source ≠ .synthetic →
      appendDirents direntNameScratch (d.mounts.map mountEnt)
        (vfsCopyEntries d.mounts direntNameScratch junk (pack d.entries).length (pack d.entries) [])
          = pack d.visible := by
    intro hs
    have hvis : d.visible =
        (d.entries.filter fun e => !d.mounts.contains e.name) ++ d.mounts.map mountEnt := by
      unfold Dir.visible
      cases hsrc : d.source <;> simp_all
    rw [vfsCopyEntries_pack d.mounts junk d.entries d.entry_ok _ [] le_rfl
      (by simpa using hfilter _ hvis), List.nil_append]
    exact hmounts _ hvis
  unfold vfsGetdents
  cases hs : d.source with
  | synthetic =>
    rw [hs] at hlisted
    simp only
    rw [appendDirents_fits d.entries [] hlisted, List.nil_append]
    exact hmounts _ (by unfold Dir.visible; rw [hs])
  | ext3 =>
    rw [hs] at hlisted
    simp only
    rw [appendDirents_fits d.entries [] hlisted, List.nil_append]
    exact hdisk (by simp [hs])
  | dufs =>
    rw [hs] at hlisted
    simp only
    rw [fsList_fits d.entries [] hlisted, List.nil_append]
    exact hdisk (by simp [hs])

theorem scratchNames_pack (es : List DirEnt) (hok : ∀ e ∈ es, NameOk e.name) (n : Nat)
    (hn : (pack es).length ≤ n) : scratchNames n (pack es) = es.map DirEnt.raw := by
  induction es generalizing n with
  | nil => cases n <;> simp [scratchNames, pack]
  | cons e es ih =>
    have he := hok e (List.mem_cons_self ..)
    obtain ⟨hcstr, hdrop, hlen⟩ := pack_first he es []
    rw [List.append_nil] at hcstr
    cases hp : pack (e :: es) with
    | nil => rw [hp] at hlen; simp at hlen
    | cons c rest =>
      cases n with
      | zero => omega
      | succ n =>
        unfold scratchNames
        simp only
        rw [← hp, hcstr, hdrop, if_neg (e.raw_ne_nil he),
          ih (fun e' he' => hok e' (List.mem_cons_of_mem _ he')) n (by omega), List.map_cons]

theorem rawItem_raw (hok : NameOk e.name) (ht : e.kind = .reg ∨ e.kind = .dir) :
    rawItem e.raw = (e.name, e.kind.dtype) := by
  unfold rawItem DirEnt.raw
  rcases ht with ht | ht
  · have hlast : e.name.getLast? ≠ some 47 := by
      intro hl
      exact (hok.2.2 47 (List.mem_of_getLast? hl)).2 rfl
    simp [ht, hlast]
  · simp [ht]

theorem Dir.visible_ok (d : Dir) : ∀ e ∈ d.visible, NameOk e.name := by
  intro e he
  rcases List.mem_append.mp he with he | he
  · refine d.entry_ok e ?_
    cases hs : d.source <;> rw [hs] at he
    · exact (List.mem_filter.mp he).1
    · exact (List.mem_filter.mp he).1
    · exact he
  · obtain ⟨m, hm, rfl⟩ := List.mem_map.mp he
    exact d.mount_ok m hm

/-- What the packing loops go through is what is wanted. -/
theorem scratch_items (hd : d.Listable) (junk : List Nat) :
    dotItems ++ (scratchNames (vfsGetdents d junk direntNameScratch).length
      (vfsGetdents d junk direntNameScratch)).map rawItem = d.wanted := by
  rw [vfsGetdents_listable hd, scratchNames_pack _ d.visible_ok _ le_rfl, List.map_map]
  congr 1
  refine List.map_congr_left fun e he => ?_
  exact rawItem_raw (d.visible_ok e he) (hd.typed e he)

/-! ## Packing and reading records -/

/-- The records of some items, numbered from `n + 1` on. -/
def records (wide : Bool) : Nat → List (List Nat × Nat) → List Nat
  | _, [] => []
  | n, item :: items => direntRecord wide (n + 1) item.1 item.2 ++ records wide (n + 1) items

theorem direntRecord_length (wide : Bool) (n : Nat) (name : List Nat) (type : Nat) :
    (direntRecord wide n name type).length = linuxDirentReclen wide name.length := by
  cases wide <;> simp [direntRecord, linuxDirentReclen, bytes16, bytes32, bytes64] <;> omega

theorem readDirent_record (wide : Bool) (n : Nat) {name : List Nat} (type : Nat)
    (hlen : name.length ≤ 255) (hzero : ∀ b ∈ name, b ≠ 0) (rest : List Nat) :
    readDirent wide (direntRecord wide n name type ++ rest) = some ((name, type), rest) := by
  have hrl := direntRecord_length wide n name type
  have hsize : linuxDirentReclen wide name.length < 65536 := by
    unfold linuxDirentReclen
    split <;> omega
  have hpos : linuxDirentReclen wide name.length ≠ 0 := by
    unfold linuxDirentReclen
    split <;> omega
  have hread : (direntRecord wide n name type ++ rest).getD (if wide then 16 else 8) 0 + 256 *
      (direntRecord wide n name type ++ rest).getD ((if wide then 16 else 8) + 1) 0
        = linuxDirentReclen wide name.length := by
    cases wide <;>
      simp [direntRecord, bytes16, bytes32, bytes64] <;> omega
  unfold readDirent
  simp only
  rw [hread, if_neg (by rw [List.length_append, hrl]; omega)]
  rw [← hrl, List.take_left, List.drop_left]
  congr 2
  refine Prod.ext ?_ ?_
  · -- the name ends at the padding
    cases wide with
    | true =>
      obtain ⟨k, hk⟩ : ∃ k, linuxDirentReclen true name.length - 19 - name.length = k + 1 :=
        ⟨linuxDirentReclen true name.length - 19 - name.length - 1, by
          simp [linuxDirentReclen]; omega⟩
      simp only [direntRecord, bytes16, bytes32, bytes64, if_true, hk, List.replicate_succ]
      simpa using cstr_append hzero _
    | false =>
      obtain ⟨k, hk⟩ : ∃ k, linuxDirentReclen false name.length - 11 - name.length = k + 1 :=
        ⟨linuxDirentReclen false name.length - 11 - name.length - 1, by
          simp [linuxDirentReclen]; omega⟩
      simp only [direntRecord, bytes16, bytes32, if_false, hk, List.replicate_succ,
        Bool.false_eq_true]
      simpa using cstr_append hzero _
  · cases wide with
    | true => simp [direntRecord, bytes16, bytes32, bytes64]
    | false =>
      have hlast : direntRecord false n name type = (bytes32 n ++ bytes32 n ++
          bytes16 (linuxDirentReclen false name.length) ++ name ++
          List.replicate (linuxDirentReclen false name.length - 11 - name.length) 0) ++ [type] := rfl
      simp only [Bool.false_eq_true, if_false]
      rw [hlast, List.length_append, List.length_singleton, Nat.add_sub_cancel,
        List.getD_eq_getElem?_getD, List.getElem?_append_right le_rfl, Nat.sub_self]
      rfl

theorem readDirents_records (wide : Bool) (items : List (List Nat × Nat))
    (hok : ∀ item ∈ items, item.1.length ≤ 255 ∧ ∀ b ∈ item.1, b ≠ 0) (n fuel : Nat)
    (hfuel : (records wide n items).length ≤ fuel) :
    readDirents wide fuel (records wide n items) = some items := by
  induction items generalizing n fuel with
  | nil => cases fuel <;> rfl
  | cons item items ih =>
    obtain ⟨hlen, hzero⟩ := hok item (List.mem_cons_self ..)
    have hread := readDirent_record wide (n + 1) item.2 hlen hzero (records wide (n + 1) items)
    have hpos : 0 < (direntRecord wide (n + 1) item.1 item.2).length := by
      rw [direntRecord_length]
      unfold linuxDirentReclen
      split <;> omega
    have hrec : records wide n (item :: items) =
        direntRecord wide (n + 1) item.1 item.2 ++ records wide (n + 1) items := rfl
    rw [hrec, List.length_append] at hfuel
    cases fuel with
    | zero => omega
    | succ fuel =>
      rw [hrec]
      cases hbytes : direntRecord wide (n + 1) item.1 item.2 ++ records wide (n + 1) items with
      | nil =>
        have := congrArg List.length hbytes
        rw [List.length_append, List.length_nil] at this
        omega
      | cons b bytes =>
        rw [hbytes] at hread
        unfold readDirents
        rw [hread]
        simp only
        rw [ih (fun i hi => hok i (List.mem_cons_of_mem _ hi)) (n + 1) fuel (by omega)]
        rfl

/-- The items already given out are skipped. -/
theorem fill_skip (wide : Bool) (count : Nat) (items : List (List Nat × Nat)) (f : Fill)
    (hfull : f.full = false) (hle : f.entry + items.length ≤ f.index) :
    items.foldl (fillOne wide count) f = { f with entry := f.entry + items.length } := by
  induction items generalizing f with
  | nil => rfl
  | cons item items ih =>
    rw [List.length_cons] at hle
    have hone : fillOne wide count f item = { f with entry := f.entry + 1 } := by
      unfold fillOne
      rw [if_neg (by simp [hfull]), if_pos (by omega)]
    rw [List.foldl_cons, hone]
    refine (ih { f with entry := f.entry + 1 } hfull ?_).trans ?_
    · simp only
      omega
    · simp only [List.length_cons]
      congr 1
      omega

theorem fill_full (wide : Bool) (count : Nat) (items : List (List Nat × Nat)) (f : Fill)
    (hfull : f.full = true) : items.foldl (fillOne wide count) f = f := by
  induction items with
  | nil => rfl
  | cons item items ih =>
    have hone : fillOne wide count f item = f := by
      unfold fillOne
      rw [if_pos hfull]
    rw [List.foldl_cons, hone, ih]

/-- From there on the records go in, as far as they fit. -/
theorem fill_pack (wide : Bool) (count : Nat) (items : List (List Nat × Nat)) (f : Fill)
    (hfull : f.full = false) (hentry : f.entry = f.index) :
    ∃ k ≤ items.length,
      (items.foldl (fillOne wide count) f).index = f.index + k ∧
      (items.foldl (fillOne wide count) f).out = f.out ++ records wide f.index (items.take k) ∧
      ∀ item, items[k]? = some item →
        count < (items.foldl (fillOne wide count) f).out.length
          + linuxDirentReclen wide item.1.length := by
  induction items generalizing f with
  | nil => exact ⟨0, Nat.le_refl _, rfl, by simp [records], fun item h => by simp at h⟩
  | cons item items ih =>
    by_cases hbig : f.out.length + linuxDirentReclen wide item.1.length > count
    · have hone : fillOne wide count f item = { f with entry := f.entry + 1, full := true } := by
        unfold fillOne
        rw [if_neg (by simp [hfull]), if_neg (by omega), if_pos hbig]
      rw [List.foldl_cons, hone, fill_full wide count items _ rfl]
      refine ⟨0, Nat.zero_le _, rfl, by simp [records], fun i hi => ?_⟩
      obtain rfl : item = i := by simpa using hi
      exact hbig
    · have hone : fillOne wide count f item =
          { f with
            entry := f.entry + 1
            out := f.out ++ direntRecord wide (f.entry + 1) item.1 item.2
            index := f.index + 1 } := by
        unfold fillOne
        rw [if_neg (by simp [hfull]), if_neg (by omega), if_neg hbig]
      rw [List.foldl_cons, hone]
      obtain ⟨k, hk, hindex, hout, hnext⟩ := ih
        { f with
          entry := f.entry + 1
          out := f.out ++ direntRecord wide (f.entry + 1) item.1 item.2
          index := f.index + 1 } hfull (by simp only; omega)
      refine ⟨k + 1, by simpa using hk, by rw [hindex]; simp only; omega, ?_, fun i hi => ?_⟩
      · rw [hout, List.take_succ_cons, hentry]
        simp [records]
      · exact hnext i (by simpa using hi)

/-! ## Calls -/

/-- The call reaches the packing loops. -/
def DirCall.Reaches (c : DirCall) : Prop := c.userBuf ≠ 0 ∧ c.alloc = true

/-- What a call gives that reaches the packing loops: some of the next records. -/
theorem getdents_packs (hd : d.Listable) {index : Nat}
    (hindex : index ≤ d.wanted.length) (hcount : c.count ≠ 0) (hc : c.Reaches) :
    ∃ k out, index + k ≤ d.wanted.length ∧
      out = records c.wide index ((d.wanted.drop index).take k) ∧
      (∀ item, d.wanted[index + k]? = some item →
        c.count < out.length + linuxDirentReclen c.wide item.1.length) ∧
      linuxFillGetdents d index c =
        if out ≠ [] ∧ c.copies = false then ⟨-1, index + k, []⟩
        else ⟨out.length, index + k, out⟩ := by
  have hskip := fill_skip c.wide c.count (d.wanted.take index) ⟨0, [], index, false⟩ rfl
    (by simp only [List.length_take]; omega)
  have hlen : 0 + (d.wanted.take index).length = index := by
    rw [List.length_take]
    omega
  rw [hlen] at hskip
  obtain ⟨k, hk, hi, hout, hnext⟩ := fill_pack c.wide c.count (d.wanted.drop index)
    ⟨index, [], index, false⟩ rfl rfl
  rw [List.length_drop] at hk
  have hfold : d.wanted.foldl (fillOne c.wide c.count) ⟨0, [], index, false⟩ =
      (d.wanted.drop index).foldl (fillOne c.wide c.count) ⟨index, [], index, false⟩ := by
    conv_lhs => rw [← List.take_append_drop index d.wanted, List.foldl_append, hskip]
  refine ⟨k, _, by omega, hout.trans (List.nil_append _), fun item hitem => ?_, ?_⟩
  · refine hnext item ?_
    rw [List.getElem?_drop]
    exact hitem
  · unfold linuxFillGetdents
    rw [if_neg (by simp [hc.1, hcount]), if_neg (by simp [hc.2])]
    simp only
    rw [← List.foldl_append, scratch_items hd, hfold, hi]

/-- The buffer takes the next record, and the copy succeeds; or there is nothing more to give,
or the call fails before the listing. -/
def Served (d : Dir) (index : Nat) (c : DirCall) : Prop :=
  c.Reaches → ∀ item, d.wanted[index]? = some item →
    linuxDirentReclen c.wide item.1.length ≤ c.count ∧ c.copies = true

/-- What a call should do: 0 is the end, a failed call moves nothing, a buffer too small for
the next record is an error, and what comes back is the next records, whole. -/
structure CallRight (d : Dir) (index : Nat) (c : DirCall) : Prop where
  ends : (linuxFillGetdents d index c).ret = 0 → index = d.wanted.length
  fails : (linuxFillGetdents d index c).ret < 0 → (linuxFillGetdents d index c).index = index
  small : ∀ item, d.wanted[index]? = some item →
    c.count < linuxDirentReclen c.wide item.1.length → (linuxFillGetdents d index c).ret < 0
  gives : 0 ≤ (linuxFillGetdents d index c).ret →
    index ≤ (linuxFillGetdents d index c).index ∧
    readDirents c.wide (linuxFillGetdents d index c).bytes.length
        (linuxFillGetdents d index c).bytes =
      some ((d.wanted.drop index).take ((linuxFillGetdents d index c).index - index))

theorem Dir.wanted_ok (d : Dir) : ∀ item ∈ d.wanted, item.1.length ≤ 255 ∧ ∀ b ∈ item.1, b ≠ 0 := by
  intro item hitem
  rcases List.mem_append.mp hitem with hdot | hent
  · have hdots : item = ([46], 4) ∨ item = ([46, 46], 4) := by
      simpa [dotItems, EntryKind.dtype] using hdot
    rcases hdots with rfl | rfl <;> simp
  · obtain ⟨e, he, rfl⟩ := List.mem_map.mp hent
    have hok := d.visible_ok e he
    exact ⟨hok.2.1, fun b hb => (hok.2.2 b hb).1⟩

/-- A call that does not get to the listing fails and moves nothing. -/
theorem getdents_stops (d : Dir) (index : Nat) (hc : ¬ c.Reaches) :
    linuxFillGetdents d index c = ⟨-1, index, []⟩ := by
  unfold linuxFillGetdents
  by_cases hu : c.userBuf = 0
  · rw [if_pos (.inl hu)]
  · have ha : c.alloc = false := by
      by_contra h
      exact hc ⟨hu, by simpa using h⟩
    simp [ha]

theorem linuxDirentReclen_pos (wide : Bool) (n : Nat) : 0 < linuxDirentReclen wide n := by
  unfold linuxDirentReclen
  split <;> omega

theorem CallRight.of_served (hd : d.Listable) {index : Nat}
    (hindex : index ≤ d.wanted.length) (hcount : c.count ≠ 0)
    (hs : Served d index c) : CallRight d index c := by
  by_cases hc : c.Reaches
  · obtain ⟨k, out, hk, hout, hnext, hreply⟩ := getdents_packs hd hindex hcount hc
    have hread := readDirents_records c.wide ((d.wanted.drop index).take k)
      (fun item hi => d.wanted_ok item (List.mem_of_mem_drop (List.mem_of_mem_take hi))) index _
      le_rfl
    -- something is left only if something was packed
    have hprog : index < d.wanted.length → 0 < k ∧ c.copies = true := by
      intro hlt
      obtain ⟨hfit, hcopy⟩ := hs hc _ (List.getElem?_eq_getElem hlt)
      refine ⟨Nat.pos_of_ne_zero fun h0 => ?_, hcopy⟩
      subst h0
      have hempty : out = [] := by rw [hout]; rfl
      have := hnext _ (List.getElem?_eq_getElem hlt)
      rw [hempty, List.length_nil] at this
      omega
    have hdone : ¬ index < d.wanted.length → out = [] := by
      intro hge
      have h0 : k = 0 := by omega
      subst h0
      rw [hout]
      rfl
    have hok : linuxFillGetdents d index c = ⟨out.length, index + k, out⟩ := by
      rw [hreply, if_neg]
      rintro ⟨hne, hcopy⟩
      by_cases hlt : index < d.wanted.length
      · rw [(hprog hlt).2] at hcopy
        cases hcopy
      · exact hne (hdone hlt)
    refine ⟨fun h0 => ?_, fun hneg => ?_, fun item hitem hsmall => ?_, fun _ => ?_⟩
    · rw [hok] at h0
      by_contra hne
      have hlt : index < d.wanted.length := by omega
      have hlen : out = [] := List.length_eq_zero_iff.mp (Int.ofNat_eq_zero.mp h0)
      rw [hlen] at hout
      cases k with
      | zero => omega
      | succ k =>
        rw [List.drop_eq_getElem_cons hlt, List.take_succ_cons, records] at hout
        have := congrArg List.length hout
        have hpos := linuxDirentReclen_pos c.wide (d.wanted[index].1.length)
        rw [List.length_append, direntRecord_length, List.length_nil] at this
        omega
    · rw [hok] at hneg
      simp only at hneg
      omega
    · have := (hs hc item hitem).1
      omega
    · rw [hok]
      simp only
      refine ⟨by omega, ?_⟩
      rw [Nat.add_sub_cancel_left, hout]
      exact hread
  · have hstop := getdents_stops d index hc
    refine ⟨fun h0 => ?_, fun _ => by rw [hstop], fun item _ _ => by rw [hstop]; simp, fun h => ?_⟩
    · rw [hstop] at h0
      cases h0
    · rw [hstop] at h
      cases h

theorem Served.of_callRight (hd : d.Listable) {index : Nat}
    (hindex : index ≤ d.wanted.length) (hcount : c.count ≠ 0)
    (h : CallRight d index c) : Served d index c := by
  intro hc item hitem
  obtain ⟨k, out, hk, hout, hnext, hreply⟩ := getdents_packs hd hindex hcount hc
  have hfit : linuxDirentReclen c.wide item.1.length ≤ c.count := by
    by_contra hbig
    have hneg := h.small item hitem (by omega)
    -- nothing was packed, so the reply is 0
    have hmoves := h.fails hneg
    rw [hreply] at hneg hmoves
    split at hneg
    · next hcond =>
      rw [if_pos hcond] at hmoves
      have h0 : k = 0 := by simpa using hmoves
      subst h0
      exact hcond.1 (by rw [hout]; rfl)
    · simp only at hneg
      omega
  refine ⟨hfit, ?_⟩
  by_contra hcopy
  have hcopy : c.copies = false := by simpa using hcopy
  have hkpos : k ≠ 0 := by
    rintro rfl
    have hempty : out = [] := by rw [hout]; rfl
    have := hnext item hitem
    rw [hempty, List.length_nil] at this
    omega
  by_cases hne : out = []
  · -- a reply of 0 before the end
    have := h.ends (by rw [hreply, if_neg (fun hcond => hcond.1 hne), hne]; rfl)
    omega
  · have := h.fails (by rw [hreply, if_pos ⟨hne, hcopy⟩]; simp)
    rw [hreply, if_pos ⟨hne, hcopy⟩] at this
    simp only at this
    omega

/-! ## Runs -/

/-- A descriptor's position, and the records its calls have given so far. -/
structure DirRun where
  index : Nat
  told : List (List Nat × Nat)

def dirStep (d : Dir) (s : DirRun) (c : DirCall) : DirRun :=
  let r := linuxFillGetdents d s.index c
  ⟨r.index, s.told ++ (readDirents c.wide r.bytes.length r.bytes).getD []⟩

/-- A call with a buffer size, that is served. -/
def ServedCall (d : Dir) (s : DirRun) (c : DirCall) : Prop := c.count ≠ 0 ∧ Served d s.index c

/-- The records so far are those up to the position. -/
def DirRun.Told (d : Dir) (s : DirRun) : Prop :=
  s.index ≤ d.wanted.length ∧ s.told = d.wanted.take s.index

theorem DirRun.Told.step (hd : d.Listable) {s : DirRun} (h : s.Told d)
    (hc : ServedCall d s c) : (dirStep d s c).Told d := by
  obtain ⟨hindex, htold⟩ := h
  have hright := CallRight.of_served hd hindex hc.1 hc.2
  unfold dirStep
  by_cases hr : c.Reaches
  · obtain ⟨k, out, hk, hout, -, hreply⟩ := getdents_packs hd hindex hc.1 hr
    have hmoved : (linuxFillGetdents d s.index c).index = s.index + k := by
      rw [hreply]
      split <;> rfl
    refine ⟨by simpa only [hmoved] using hk, ?_⟩
    by_cases hneg : (linuxFillGetdents d s.index c).ret < 0
    · have hstay := hright.fails hneg
      have hbytes : (linuxFillGetdents d s.index c).bytes = [] := by
        rw [hreply] at hneg ⊢
        split at hneg
        · next hcond => rw [if_pos hcond]
        · simp only at hneg
          omega
      simp only [hbytes, hstay, htold]
      simp [readDirents]
    · obtain ⟨hle, hread⟩ := hright.gives (by omega)
      simp only [hread, Option.getD_some, htold]
      rw [← List.take_add]
      congr 1
      omega
  · rw [getdents_stops d s.index hr]
    exact ⟨hindex, by simp [readDirents, htold]⟩

/-- A directory with one file, `a`. -/
def oneFile : Dir where
  source := .ext3
  entries := [⟨[97], .reg⟩]
  mounts := []
  entry_ok := by simp [NameOk]
  mount_ok := by simp

theorem oneFile_listable : oneFile.Listable where
  listed := ⟨by decide, trivial⟩
  fits := by decide
  typed := by decide

end Drunix.Vfs
