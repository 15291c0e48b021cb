import Drunix.Io.Append

/-!
# Copies of a descriptor

After `dup`, `dup2`, `fcntl(F_DUPFD)` or `fork` the old and the new descriptor should refer to
one open file, with one position. Here they are two handles with a position each.

`Shared` runs the calls and keeps beside them what one open file would mean: the descriptors
belong to open files, `dup` and `fork` copy that, and the position of an open file is where the
last call through any of its descriptors has left it. `fresh` says of a descriptor that no other
copy has moved the position since it was made or last used.

`position_shared`: a call through a fresh descriptor starts at the position of its open file.
Through one that is not fresh it starts where that copy was left behind (`copy_left_behind`),
which is the start of the file for the second of two writers to one output.
-/

namespace Drunix.Io

open Lib Vfs Function
open Proc (maxFds ebadf einval)

/-! ## Where handles come from -/

/-- The calls through descriptors. -/
def IoOp.byFd : IoOp → Bool
  | .open .. | .truncate .. | .sendfile .. => false
  | _ => true

/-- Where the entry at `t`, `fd` comes from. -/
def IoOp.source (s : IoSys) (op : IoOp) (t fd : Nat) : Nat × Nat :=
  match op with
  | .dup t' oldfd minfd =>
    if t = t' ∧ (fdDuplicateFrom s t' oldfd minfd).1 = some fd then (t', oldfd) else (t, fd)
  | .dup2 t' oldfd newfd =>
    if t = t' ∧ fd = newfd ∧ 0 ≤ (syscallDup2 s t' oldfd newfd).1 then (t', oldfd) else (t, fd)
  | .fork t' child => if t = child then (t', fd) else (t, fd)
  | _ => (t, fd)

/-- The calls that change the entry of a descriptor. -/
def IoOp.entry : IoOp → Option (Nat × Nat)
  | .read t fd _ _ | .write t fd _ _ _ | .lseek t fd _ _ | .setfl t fd _ => some (t, fd)
  | _ => none

/-- The calls that leave every position. -/
def IoOp.Still : IoOp → Prop
  | .dup .. | .dup2 .. | .setfl .. | .close .. | .fork .. => True
  | _ => False

/-- A handle after the call and the one that it comes from: they are of one file. -/
structure Stems (op : IoOp) (fh fh' : FileHandle) : Prop where
  ref : fh.ref = fh'.ref
  size : op.Quiet → fh.size = fh'.size
  offset : op.Still → fh.offset = fh'.offset

section Source

variable {s : IoSys} {op : IoOp} {t fd : Nat} {fh : FileHandle}

theorem Stems.refl : Stems op fh fh := ⟨rfl, fun _ => rfl, fun _ => rfl⟩

/-- The handles after `ftruncate` in the table of the caller. -/
theorem handle_refreshed {ref : FileRef} {length : UInt32} {node : FileRef → Node} {t1 fd1 : Nat}
    {fh : FileHandle}
    (h : IoSys.handle { s with node := node, files := update s.files t fun i =>
      if i < maxFds then refreshSize ref length (s.files t i) else s.files t i } t1 fd1 = some fh) :
    (fh.ref = ref ∧ fh.size = length ∧ ∃ fh', s.handle t1 fd1 = some fh' ∧ fh'.ref = ref) ∨
      (t1 = t → fh.ref ≠ ref) ∧ s.handle t1 fd1 = some fh := by
  obtain ⟨hfile, hlt⟩ := IoSys.handle_some h
  by_cases ht : t1 = t
  · subst ht
    have hentry : refreshSize ref length (s.files t1 fd1) = .file fh := by
      simpa only [update_self, if_pos hlt] using hfile
    unfold refreshSize at hentry
    split at hentry
    next fh0 hfh0 =>
      have hold : s.handle t1 fd1 = some fh0 := handle_of_file hfh0 hlt
      split at hentry
      next hr =>
        obtain rfl := Entry.file.inj hentry
        exact .inl ⟨hr, rfl, fh0, hold, hr⟩
      next hr =>
        obtain rfl := Entry.file.inj hentry
        exact .inr ⟨fun _ => hr, hold⟩
    next e hne => exact absurd hentry (hne fh)
  · refine .inr ⟨fun heq => absurd heq ht, ?_⟩
    rw [← h]
    refine IoSys.handle_congr ?_ Iff.rfl
    show _ = update s.files t _ t1 fd1
    rw [update_of_ne ht]

theorem ioStep_own (hop : op.entry = some (t, fd)) :
    (ioStep s op).files = s.files ∨ ∃ fh fh', s.handle t fd = some fh ∧ Stems op fh' fh ∧
      (ioStep s op).files = (s.setEntry t fd (.file fh')).files := by
  cases hfh : s.handle t fd with
  | none =>
    left
    cases op <;> cases hop <;> simp only [ioStep, ioCall, hfh]
  | some fh =>
    refine .inr ⟨fh, ?_⟩
    cases op with
    | read t fd count e =>
      cases hop
      refine ⟨_, rfl, ?_, by rw [ioStep, ioCall_read hfh]⟩
      have hout := readFile_outcome (s.kind fh.ref.mountId) fh (s.node fh.ref) count e
      generalize readFile (s.kind fh.ref.mountId) fh (s.node fh.ref) count e = out at hout ⊢
      obtain ⟨ret, got, fh'⟩ := out
      dsimp only at hout
      cases hout with
      | error | nothing | returned | ended => exact ⟨rfl, fun _ => rfl, fun hs => absurd hs id⟩
    | write t fd src count e =>
      cases hop
      refine ⟨_, rfl, ?_, by rw [ioStep, ioCall_write hfh]; rfl⟩
      have hout := writeFile_outcome (s.kind fh.ref.mountId) fh (s.node fh.ref) src count e
      generalize writeFile (s.kind fh.ref.mountId) fh (s.node fh.ref) src count e = out at hout ⊢
      obtain ⟨ret, fh', node⟩ := out
      dsimp only at hout
      cases hout with
      | error | nothing => exact Stems.refl
      | returned | ended =>
        exact ⟨FileHandle.positioned_ref, fun hq => absurd hq id, fun hs => absurd hs id⟩
    | lseek t fd offset whence =>
      cases hop
      refine ⟨(seekHandle fh offset whence).2, rfl, ?_, by simp only [ioStep, ioCall, hfh]⟩
      unfold seekHandle
      dsimp only
      split
      · exact Stems.refl
      · split <;> exact ⟨rfl, fun _ => rfl, fun hs => absurd hs id⟩
    | setfl t fd append =>
      cases hop
      exact ⟨{ fh with append := append }, rfl, ⟨rfl, fun _ => rfl, fun _ => rfl⟩,
        by simp only [ioStep, ioCall, hfh]⟩
    | dup | dup2 | close | fork | sendfile | «open» | truncate | ftruncate => cases hop

/-- A copy of an entry. -/
theorem handle_copied {t' old new fd' : Nat} (hold : old < maxFds)
    (h : (s.setEntry t new (s.files t old)).handle t' fd' = some fh) :
    s.handle (if t' = t ∧ fd' = new then (t, old) else (t', fd')).1
      (if t' = t ∧ fd' = new then (t, old) else (t', fd')).2 = some fh := by
  rcases IoSys.handle_setEntry_some h with ⟨ht, hfd, heq⟩ | ⟨hne, hsame⟩
  · rw [if_pos ⟨ht, hfd⟩]
    exact handle_of_file heq hold
  · rw [if_neg hne]
    exact hsame

theorem syscallDup2_cases (s : IoSys) (t oldfd newfd : Nat) :
    syscallDup2 s t oldfd newfd = (ebadf, s) ∨ oldfd < maxFds ∧
      syscallDup2 s t oldfd newfd = ((newfd : Int), s.setEntry t newfd (s.files t oldfd)) := by
  unfold syscallDup2
  split
  · exact .inl rfl
  next hok =>
    refine .inr ⟨by omega, ?_⟩
    split
    next heq =>
      subst heq
      unfold IoSys.setEntry
      rw [update_eq_self, update_eq_self]
    · rfl

/-- Where a handle comes from, after a call through a descriptor. -/
theorem ioStep_source (hop : op.byFd = true) (h : (ioStep s op).handle t fd = some fh) :
    ∃ fh', s.handle (op.source s t fd).1 (op.source s t fd).2 = some fh' ∧ Stems op fh fh' := by
  have hown : ∀ {t1 fd1 : Nat}, op.entry = some (t1, fd1) →
      ∃ fh', s.handle t fd = some fh' ∧ Stems op fh fh' := by
    intro t1 fd1 hentry
    rcases ioStep_own hentry with hsame | ⟨fh1, fh2, hfh1, hstems, hset⟩
    · exact ⟨fh, (IoSys.handle_congr (by rw [hsame]) Iff.rfl).symm.trans h, .refl⟩
    · rw [IoSys.handle_congr (s := s.setEntry t1 fd1 (.file fh2)) (by rw [hset]) Iff.rfl] at h
      rcases IoSys.handle_setEntry_some h with ⟨rfl, rfl, heq⟩ | ⟨-, hold⟩
      · obtain rfl := Entry.file.inj heq
        exact ⟨fh1, hfh1, hstems⟩
      · exact ⟨fh, hold, .refl⟩
  cases op with
  | read | write | lseek | setfl => exact hown rfl
  | dup t1 oldfd minfd =>
    refine ⟨fh, ?_, .refl⟩
    rw [ioStep_dup] at h
    simp only [IoOp.source]
    rcases fdDuplicateFrom_cases s t1 oldfd minfd with hnone | ⟨fd1, hold, hsome⟩
    · rw [hnone] at h ⊢
      simpa using h
    · rw [hsome] at h ⊢
      simp only [Option.some.injEq, eq_comm (a := fd1)]
      exact handle_copied hold h
  | dup2 t1 oldfd newfd =>
    refine ⟨fh, ?_, .refl⟩
    replace h : (syscallDup2 s t1 oldfd newfd).2.handle t fd = some fh := h
    simp only [IoOp.source]
    rcases syscallDup2_cases s t1 oldfd newfd with hbad | ⟨hold, hset⟩
    · rw [hbad] at h ⊢
      rw [if_neg fun hc => absurd hc.2.2 (by decide : ¬ 0 ≤ ebadf)]
      exact h
    · rw [hset] at h ⊢
      simp only [Int.natCast_nonneg, and_true]
      exact handle_copied hold h
  | close t1 fd1 =>
    refine ⟨fh, ?_, .refl⟩
    simp only [ioStep, ioCall] at h
    split at h
    · rcases IoSys.handle_setEntry_some h with ⟨-, -, heq⟩ | ⟨-, hsame⟩
      · cases heq
      · exact hsame
    · exact h
  | fork t1 child =>
    refine ⟨fh, (IoSys.handle_congr ?_ ?_).symm.trans h, .refl⟩ <;> simp only [IoOp.source]
    · show update s.files child (s.files t1) t fd = _
      by_cases hc : t = child
      · rw [hc, update_self, if_pos rfl]
      · rw [update_of_ne hc, if_neg hc]
    · split <;> rfl
  | ftruncate t1 fd1 length failed =>
    replace h : (truncateFd s t1 fd1 length failed).2.handle t fd = some fh := h
    unfold truncateFd at h
    split at h
    next fh1 _ =>
      split at h
      · exact ⟨fh, h, .refl⟩
      split at h
      · exact ⟨fh, h, .refl⟩
      rcases handle_refreshed h with ⟨href, -, fh2, hfh2, href2⟩ | ⟨-, hsame⟩
      · exact ⟨fh2, hfh2, href.trans href2.symm, fun hq => absurd hq id, fun hs => absurd hs id⟩
      · exact ⟨fh, hsame, .refl⟩
    · exact ⟨fh, h, .refl⟩
  | sendfile | «open» | truncate => exact absurd hop Bool.false_ne_true

end Source

/-! ## Open files -/

/-- The system, and the open files that its descriptors stand for. -/
structure Shared where
  sys : IoSys
  desc : Nat → Nat → Nat
  pos : Nat → UInt32
  fresh : Nat → Nat → Bool
  next : Nat

/-- Descriptor `fd'` of table `t'` becomes a copy of `fd` of table `t`. -/
def Shared.copy (g : Shared) (sys : IoSys) (t fd t' fd' : Nat) : Shared :=
  { g with
    sys := sys
    desc := update g.desc t' (update (g.desc t') fd' (g.desc t fd))
    fresh := update g.fresh t' (update (g.fresh t') fd' (g.fresh t fd)) }

/-- A call through descriptor `fd` of table `t` has left its open file at the offset of the
handle. -/
def Shared.moved (g : Shared) (sys : IoSys) (t fd : Nat) : Shared :=
  match sys.handle t fd with
  | none => { g with sys := sys }
  | some fh =>
    { g with
      sys := sys
      pos := update g.pos (g.desc t fd) fh.offset
      fresh := fun t' fd' => g.fresh t' fd' &&
        ((t' == t && fd' == fd) || g.desc t' fd' != g.desc t fd ||
          g.pos (g.desc t fd) == fh.offset) }

/-- Descriptor `fd` of table `t` is that of a new open file. -/
def Shared.opened (g : Shared) (sys : IoSys) (t fd : Nat) : Shared :=
  { g with
    sys := sys
    desc := update g.desc t (update (g.desc t) fd g.next)
    pos := update g.pos g.next 0
    fresh := update g.fresh t (update (g.fresh t) fd true)
    next := g.next + 1 }

/-- One call. -/
def sharedStep (g : Shared) (op : IoOp) : Shared :=
  let sys := ioStep g.sys op
  match op with
  | .read t fd _ _ | .write t fd _ _ _ | .lseek t fd _ _ => g.moved sys t fd
  | .dup t oldfd minfd =>
    match (fdDuplicateFrom g.sys t oldfd minfd).1 with
    | some fd => g.copy sys t oldfd t fd
    | none => { g with sys := sys }
  | .dup2 t oldfd newfd =>
    if 0 ≤ (syscallDup2 g.sys t oldfd newfd).1 then g.copy sys t oldfd t newfd
    else { g with sys := sys }
  | .fork t child =>
    { g with
      sys := sys
      desc := update g.desc child (g.desc t)
      fresh := update g.fresh child (g.fresh t) }
  | .open t ref writable append trunc failed =>
    if 0 ≤ (openFile g.sys t ref writable append trunc failed).1 then
      g.opened sys t (openFile g.sys t ref writable append trunc failed).1.toNat
    else { g with sys := sys }
  | _ => { g with sys := sys }

/-- The calls of the runs: all but `sendfile64`, and `ftruncate`, which moves descriptors that are
beyond the new end. -/
def IoOp.Ordinary : IoOp → Prop
  | .sendfile .. | .ftruncate .. => False
  | _ => True

/-- Reads, writes and seeks go through descriptors that no other copy has left behind. -/
def IoOp.Fresh (g : Shared) : IoOp → Prop
  | .read t fd _ _ | .write t fd _ _ _ | .lseek t fd _ _ => g.fresh t fd = true
  | _ => True

/-- Reads, writes and seeks start at the position of the open file. -/
def IoOp.InPlace (g : Shared) : IoOp → Prop
  | .read t fd _ _ | .write t fd _ _ _ | .lseek t fd _ _ =>
    ∀ fh, g.sys.handle t fd = some fh → fh.offset = g.pos (g.desc t fd)
  | _ => True

/-- What the runs keep. -/
structure SharedOk (g : Shared) : Prop where
  offset : ∀ t fd fh, g.sys.handle t fd = some fh → g.fresh t fd = true →
    fh.offset = g.pos (g.desc t fd)
  below : ∀ t fd fh, g.sys.handle t fd = some fh → g.desc t fd < g.next

section Steps

variable {g : Shared} {sys : IoSys} {t fd t' fd' : Nat}

/-- The handles and their open files are as they were. -/
theorem SharedOk.same (h : SharedOk g)
    (hsys : ∀ t fd fh, sys.handle t fd = some fh → ∃ fh', g.sys.handle t fd = some fh' ∧
      fh.offset = fh'.offset) : SharedOk { g with sys := sys } := by
  refine ⟨fun t fd fh hfh hfresh => ?_, fun t fd fh hfh => ?_⟩
  · obtain ⟨fh', hfh', hoff⟩ := hsys t fd fh hfh
    exact hoff.trans (h.offset t fd fh' hfh' hfresh)
  · obtain ⟨fh', hfh', -⟩ := hsys t fd fh hfh
    exact h.below t fd fh' hfh'

theorem Shared.copy_source (g : Shared) (sys : IoSys) (t old new t1 fd1 : Nat) :
    (g.copy sys t old t new).desc t1 fd1 = g.desc (if t1 = t ∧ fd1 = new then (t, old) else (t1, fd1)).1
        (if t1 = t ∧ fd1 = new then (t, old) else (t1, fd1)).2 ∧
      (g.copy sys t old t new).fresh t1 fd1 = g.fresh
        (if t1 = t ∧ fd1 = new then (t, old) else (t1, fd1)).1
        (if t1 = t ∧ fd1 = new then (t, old) else (t1, fd1)).2 := by
  split
  next heq =>
    obtain ⟨rfl, rfl⟩ := heq
    exact ⟨update₂_self .., update₂_self ..⟩
  next hne => exact ⟨update₂_ne _ _ hne, update₂_ne _ _ hne⟩

/-- The open files go the way of the handles. -/
theorem sharedStep_source {op : IoOp} (hop : op.Still) :
    (sharedStep g op).sys = ioStep g.sys op ∧ (sharedStep g op).pos = g.pos ∧
      (sharedStep g op).next = g.next ∧
      ∀ t fd, (sharedStep g op).desc t fd =
          g.desc (op.source g.sys t fd).1 (op.source g.sys t fd).2 ∧
        (sharedStep g op).fresh t fd =
          g.fresh (op.source g.sys t fd).1 (op.source g.sys t fd).2 := by
  cases op with
  | dup t1 oldfd minfd =>
    simp only [sharedStep, IoOp.source]
    cases (fdDuplicateFrom g.sys t1 oldfd minfd).1 with
    | none => simp
    | some fd1 =>
      refine ⟨rfl, rfl, rfl, fun t fd => ?_⟩
      simp only [Option.some.injEq, eq_comm (a := fd1)]
      exact g.copy_source ..
  | dup2 t1 oldfd newfd =>
    simp only [sharedStep, IoOp.source]
    by_cases hok : 0 ≤ (syscallDup2 g.sys t1 oldfd newfd).1
    · simp only [hok, if_true, and_true]
      exact ⟨rfl, rfl, rfl, fun _ _ => g.copy_source ..⟩
    · simp [hok]
  | setfl | close => exact ⟨rfl, rfl, rfl, fun _ _ => ⟨rfl, rfl⟩⟩
  | fork t1 child =>
    refine ⟨rfl, rfl, rfl, fun t fd => ?_⟩
    simp only [sharedStep, IoOp.source]
    by_cases hc : t = child
    · rw [hc, update_self, update_self, if_pos rfl]
      exact ⟨rfl, rfl⟩
    · rw [update_of_ne hc, update_of_ne hc, if_neg hc]
      exact ⟨rfl, rfl⟩
  | read | write | lseek | sendfile | «open» | truncate | ftruncate => exact absurd hop id

theorem SharedOk.still (h : SharedOk g) {op : IoOp} (hop : op.Still) (hfd : op.byFd = true) :
    SharedOk (sharedStep g op) := by
  obtain ⟨hsys, hpos, hnext, hsource⟩ := sharedStep_source hop
  refine ⟨fun t fd fh hfh hfresh => ?_, fun t fd fh hfh => ?_⟩ <;> rw [hsys] at hfh <;>
    obtain ⟨fh', hfh', hstems⟩ := ioStep_source hfd hfh
  · rw [hpos, (hsource t fd).1, hstems.offset hop]
    exact h.offset _ _ fh' hfh' ((hsource t fd).2.symm.trans hfresh)
  · rw [hnext, (hsource t fd).1]
    exact h.below _ _ fh' hfh'

/-- A call through a fresh descriptor: the others of its open file are left behind, unless the
position is what it was. -/
theorem SharedOk.moved (h : SharedOk g)
    (hsome : ∀ fh, sys.handle t fd = some fh → ∃ fh', g.sys.handle t fd = some fh')
    (hother : ∀ t1 fd1, ¬ (t1 = t ∧ fd1 = fd) → sys.handle t1 fd1 = g.sys.handle t1 fd1) :
    SharedOk (g.moved sys t fd) := by
  unfold Shared.moved
  split
  next hnone =>
    refine h.same fun t1 fd1 fh hfh => ⟨fh, ?_, rfl⟩
    rw [← hother t1 fd1 fun heq => by rw [heq.1, heq.2, hnone] at hfh; exact absurd hfh (by simp)]
    exact hfh
  next fh0 hfh0 =>
  refine ⟨fun t1 fd1 fh hfh hfresh => ?_, fun t1 fd1 fh hfh => ?_⟩
  · dsimp only at hfh hfresh ⊢
    by_cases heq : t1 = t ∧ fd1 = fd
    · obtain ⟨rfl, rfl⟩ := heq
      rw [update_self]
      exact congrArg FileHandle.offset (Option.some.inj (hfh.symm.trans hfh0))
    · rw [hother t1 fd1 heq] at hfh
      rw [Bool.and_eq_true] at hfresh
      have hold := h.offset t1 fd1 fh hfh hfresh.1
      by_cases hd : g.desc t1 fd1 = g.desc t fd
      · have hsame : g.pos (g.desc t fd) = fh0.offset := by
          have hcase := hfresh.2
          have hno : (t1 == t && fd1 == fd) = false := by
            rw [Bool.and_eq_false_iff]
            by_cases ht : t1 = t
            · exact .inr (beq_false_of_ne fun hfd => heq ⟨ht, hfd⟩)
            · exact .inl (beq_false_of_ne ht)
          simpa [hno, hd] using hcase
        rw [hd, update_self, hold, hd, hsame]
      · rw [update_of_ne hd]
        exact hold
  · dsimp only at hfh ⊢
    by_cases heq : t1 = t ∧ fd1 = fd
    · obtain ⟨rfl, rfl⟩ := heq
      obtain ⟨fh', hfh'⟩ := hsome fh hfh
      exact h.below t1 fd1 fh' hfh'
    · exact h.below t1 fd1 fh ((hother t1 fd1 heq).symm.trans hfh)

theorem SharedOk.opened (h : SharedOk g) (hself : ∀ fh, sys.handle t fd = some fh → fh.offset = 0)
    (hother : ∀ t1 fd1, ¬ (t1 = t ∧ fd1 = fd) → sys.handle t1 fd1 = g.sys.handle t1 fd1) :
    SharedOk (g.opened sys t fd) := by
  refine ⟨fun t1 fd1 fh hfh hfresh => ?_, fun t1 fd1 fh hfh => ?_⟩
  · by_cases heq : t1 = t ∧ fd1 = fd
    · obtain ⟨rfl, rfl⟩ := heq
      simp only [Shared.opened, update₂_self, update_self]
      exact hself fh hfh
    · have hfh' := (hother t1 fd1 heq).symm.trans hfh
      simp only [Shared.opened, update₂_ne _ _ heq] at hfresh ⊢
      rw [update_of_ne (Nat.ne_of_lt (h.below t1 fd1 fh hfh'))]
      exact h.offset t1 fd1 fh hfh' hfresh
  · by_cases heq : t1 = t ∧ fd1 = fd
    · obtain ⟨rfl, rfl⟩ := heq
      simp only [Shared.opened, update₂_self]
      exact Nat.lt_succ_self _
    · simp only [Shared.opened, update₂_ne _ _ heq]
      exact Nat.lt_succ_of_lt (h.below t1 fd1 fh ((hother t1 fd1 heq).symm.trans hfh))

/-- Reads, writes and seeks change the entry of their descriptor alone. -/
theorem SharedOk.own (h : SharedOk g) {op : IoOp} (hop : op.entry = some (t, fd)) :
    SharedOk (g.moved (ioStep g.sys op) t fd) := by
  rcases ioStep_own hop with hsame | ⟨fh, fh', hfh, -, hset⟩
  · have hall : ∀ t1 fd1, (ioStep g.sys op).handle t1 fd1 = g.sys.handle t1 fd1 :=
      fun _ _ => IoSys.handle_congr (by rw [hsame]) Iff.rfl
    exact h.moved (fun fh hfh => ⟨fh, (hall t fd).symm.trans hfh⟩) fun t1 fd1 _ => hall t1 fd1
  · refine h.moved (fun _ _ => ⟨fh, hfh⟩) fun t1 fd1 hne => ?_
    exact (IoSys.handle_congr (by rw [hset]) Iff.rfl).trans (IoSys.handle_setEntry_ne _ hne)

/-- How `open` ends: with an error, or with a handle at the start of the file in a free slot. -/
theorem openFile_cases (s : IoSys) (ref : FileRef) (writable append trunc : Bool)
    (failed : Option Node) :
    ∃ s', s'.files = s.files ∧
      (((openFile s t ref writable append trunc failed).1 < 0 ∧
          (openFile s t ref writable append trunc failed).2 = s') ∨
        ∃ (fd : Nat) (size : UInt32), freeFd (s.files t) 0 = some fd ∧
          openFile s t ref writable append trunc failed = ((fd : Int), s'.setEntry t fd (.file
            { ref := ref, writable := writable, append := append, size := size, offset := 0 }))) := by
  unfold openFile
  dsimp only
  split
  · split
    · exact ⟨s, rfl, .inl ⟨show einval < 0 by decide, rfl⟩⟩
    split
    · exact ⟨s.setNode ref _, rfl, .inl ⟨show (-1 : Int) < 0 by decide, rfl⟩⟩
    split
    · exact ⟨s.setNode ref _, rfl, .inl ⟨show (-1 : Int) < 0 by decide, rfl⟩⟩
    next fd hfree => exact ⟨s.setNode ref _, rfl, .inr ⟨fd, 0, hfree, rfl⟩⟩
  · split
    · exact ⟨s, rfl, .inl ⟨show (-1 : Int) < 0 by decide, rfl⟩⟩
    next fd hfree => exact ⟨s, rfl, .inr ⟨fd, _, hfree, rfl⟩⟩

/-- What `open` does: a new handle at the start of the file, or nothing to the tables. -/
theorem openFile_handles {s : IoSys} (ref : FileRef) (writable append trunc : Bool)
    (failed : Option Node) :
    let out := openFile s t ref writable append trunc failed
    (out.1 < 0 ∧ ∀ t1 fd1, out.2.handle t1 fd1 = s.handle t1 fd1) ∨
      ∃ fd : Nat, out.1 = fd ∧
        (∀ fh, out.2.handle t fd = some fh → fh.ref = ref ∧ fh.offset = 0) ∧
        ∀ t1 fd1, ¬ (t1 = t ∧ fd1 = fd) → out.2.handle t1 fd1 = s.handle t1 fd1 := by
  obtain ⟨s', hfiles, hout⟩ := openFile_cases s ref writable append trunc failed
  have hsame : ∀ t1 fd1, s'.handle t1 fd1 = s.handle t1 fd1 :=
    fun t1 fd1 => IoSys.handle_congr (by rw [hfiles]) Iff.rfl
  rcases hout with ⟨hneg, rfl⟩ | ⟨fd, size, hfree, hout⟩
  · exact .inl ⟨hneg, hsame⟩
  · simp only [hout]
    refine .inr ⟨fd, rfl, fun fh hfh => ?_, fun t1 fd1 hne => ?_⟩
    · rw [IoSys.handle_setEntry (freeFd_some hfree)] at hfh
      cases hfh
      exact ⟨rfl, rfl⟩
    · exact (IoSys.handle_setEntry_ne _ hne).trans (hsame t1 fd1)

theorem SharedOk.step (h : SharedOk g) {op : IoOp} (hop : op.Ordinary) : SharedOk (sharedStep g op) := by
  cases op with
  | read | write | lseek => exact h.own rfl
  | dup | dup2 | setfl | close | fork => exact h.still trivial rfl
  | «open» t ref writable append trunc failed =>
    have hopen := openFile_handles (s := g.sys) (t := t) ref writable append trunc failed
    have hsys : ioStep g.sys (.open t ref writable append trunc failed) =
        (openFile g.sys t ref writable append trunc failed).2 := rfl
    unfold sharedStep
    simp only [hsys]
    rcases hopen with ⟨hneg, hsame⟩ | ⟨fd, hret, hself, hother⟩
    · rw [if_neg (by omega)]
      exact h.same fun t1 fd1 fh hfh => ⟨fh, (hsame t1 fd1).symm.trans hfh, rfl⟩
    · rw [if_pos (by omega), hret]
      exact h.opened (fun fh hfh => (hself fh hfh).2) hother
  | truncate ref length failed =>
    refine h.same fun t1 fd1 fh hfh => ⟨fh, ?_, rfl⟩
    rw [← hfh]
    refine IoSys.handle_congr ?_ Iff.rfl
    simp only [ioStep, ioCall, truncatePath]
    split <;> rfl
  | sendfile | ftruncate => exact absurd hop id

end Steps

/-- Before any file is open. -/
def sharedStart (s : IoSys) : Shared :=
  { sys := s, desc := fun _ _ => 0, pos := fun _ => 0, fresh := fun _ _ => true, next := 0 }

/-- In every run whose reads, writes and seeks go through fresh descriptors, each of them starts
at the position that the last one through any copy has left. -/
theorem position_shared {s₀ : IoSys} (hs₀ : ∀ t fd, s₀.handle t fd = none) {g : Shared}
    (hrun : Reach sharedStep (fun g op => op.Ordinary ∧ op.Fresh g) (sharedStart s₀) g) (op : IoOp)
    (hop : op.Fresh g) : op.InPlace g := by
  have hok : SharedOk g := hrun.inv SharedOk
    ⟨fun t fd fh hfh => absurd ((hs₀ t fd).symm.trans hfh) (by simp),
      fun t fd fh hfh => absurd ((hs₀ t fd).symm.trans hfh) (by simp)⟩
    fun _ _ hok hop => hok.step hop.1
  cases op with
  | read t fd | write t fd | lseek t fd => exact fun fh hfh => hok.offset t fd fh hfh hop
  | sendfile | dup | dup2 | setfl | close | fork | «open» | truncate | ftruncate => trivial

/-- A process opens a file. -/
def opened : Shared := sharedStep (sharedStart emptyFile) (.open 0 ⟨1, 12⟩ true false false none)

theorem opened_reach :
    Reach sharedStep (fun g op => op.Ordinary ∧ op.Fresh g) (sharedStart emptyFile) opened :=
  .step _ .start ⟨trivial, trivial⟩

/-- After a write of 3 bytes and a `dup`, the first call through the copy starts at 3. -/
theorem position_shared_dup :
    let g := sharedStep (sharedStep opened (.write 0 0 (fun _ => 7) 3 {})) (.dup 0 0 0)
    g.pos (g.desc 0 1) = 3 ∧ (IoOp.write 0 1 (fun _ => 7) 3 {}).InPlace g := by
  have hwritten : (IoOp.write 0 0 (fun _ => 7) 3 {}).Fresh opened := by
    show opened.fresh 0 0 = true
    decide +kernel
  have hrun := Reach.step (IoOp.dup 0 0 0)
    (.step (IoOp.write 0 0 (fun _ => 7) 3 {}) opened_reach ⟨trivial, hwritten⟩) ⟨trivial, trivial⟩
  refine ⟨by decide +kernel, position_shared (fun _ _ => rfl) hrun _ ?_⟩
  show Shared.fresh _ 0 1 = true
  decide +kernel

/-- A write through one copy leaves its open file at 3; a write through the other one starts
at 0. -/
theorem copy_left_behind :
    ∃ g, Reach sharedStep (fun _ op => op.Ordinary) (sharedStart emptyFile) g ∧
      (∃ fh, g.sys.handle 0 1 = some fh ∧ fh.offset = 0) ∧ g.pos (g.desc 0 1) = 3 ∧
      ¬ (IoOp.write 0 1 (fun _ => 9) 1 {}).InPlace g := by
  let copied := sharedStep opened (.dup 0 0 0)
  let moved := sharedStep copied (.write 0 0 (fun _ => 7) 3 {})
  have hrun : Reach sharedStep (fun _ op => op.Ordinary) (sharedStart emptyFile) moved :=
    .step _ (.step _ (opened_reach.mono fun _ _ hop => hop.1) trivial) trivial
  have hfh : moved.sys.handle 0 1 = some ⟨⟨1, 12⟩, true, false, 0, 0⟩ := by decide +kernel
  have hpos : moved.pos (moved.desc 0 1) = 3 := by decide +kernel
  refine ⟨moved, hrun, ⟨_, hfh, rfl⟩, hpos, fun hplace => ?_⟩
  have := hplace _ hfh
  rw [hpos] at this
  cases this

end Drunix.Io
