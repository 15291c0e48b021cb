import Drunix.Vfs.Path
import Drunix.Lib.Loop

/-!
# What the working directory denotes

A path denotes the directory that its components lead to (`denotes`): empty ones and
`.` stay, `..` goes to the parent. `vfsNormalizeAlloc_eq`: normalising writes out the
names on the way to that directory.

`chdir_iff`, `chdir_leads`: after any calls of chdir, the next one that succeeds leads where the path
says, if and only if the path is not empty outside the root, `..` meets a working directory
that ends in a name (chdir cuts off the last component of the stored text, whatever it is),
and what the buffer cuts off a longer path does not matter.
-/

namespace Drunix.Vfs

open Lib

/-! ## Directories and components -/

/-- A component that is the name of something. -/
def IsName (c : Str) : Prop := c ≠ [] ∧ c ≠ ['.'] ∧ c ≠ ['.', '.']

instance (c : Str) : Decidable (IsName c) := inferInstanceAs (Decidable (_ ∧ _ ∧ _))

/-- Where a component leads to from a directory. -/
def goInto (dir : List Str) (c : Str) : List Str :=
  if c = [] ∨ c = ['.'] then dir else if c = ['.', '.'] then dir.dropLast else dir ++ [c]

/-- Where a path leads to from a directory. -/
def follow (dir : List Str) (path : Str) : List Str := (path.splitOn '/').foldl goInto dir

/-- The directory that a path denotes, as the names on the way to it. -/
def denotes (path : Str) : List Str := follow [] path

/-- The names on the way, with slashes between them. -/
def written (dir : List Str) : Str := List.intercalate ['/'] dir

/-- No name on the way is missing or has a slash in it. -/
def Proper (dir : List Str) : Prop := ∀ c ∈ dir, c ≠ [] ∧ '/' ∉ c

theorem follow_nil (dir : List Str) : follow dir [] = dir := by
  simp [follow, goInto]

/-- A path through another one. -/
theorem follow_append (dir : List Str) (a b : Str) :
    follow dir (a ++ '/' :: b) = follow (follow dir a) b := by
  unfold follow
  rw [List.splitOn_append_cons_self, List.foldl_append]

theorem follow_slash (dir : List Str) (b : Str) : follow dir ('/' :: b) = follow dir b := by
  rw [← List.nil_append ('/' :: b), follow_append, follow_nil]

variable {dir : List Str} {c path : Str}

theorem follow_component (h : '/' ∉ c) (dir : List Str) : follow dir c = goInto dir c := by
  unfold follow
  rw [List.splitOn_eq_singleton h]
  rfl

theorem Proper.goInto (h : Proper dir) (hc : '/' ∉ c) : Proper (goInto dir c) := by
  unfold Vfs.goInto
  split
  · exact h
  · next hne =>
    split
    · exact fun b hb => h b (List.mem_of_mem_dropLast hb)
    · intro b hb
      rcases List.mem_append.mp hb with hb | hb
      · exact h b hb
      · rw [List.mem_singleton.mp hb]
        exact ⟨fun he => hne (.inl he), hc⟩

theorem slash_not_mem_takeWhile (s : Str) : '/' ∉ s.takeWhile (· ≠ '/') := fun h => by
  simpa using List.mem_takeWhile_imp h

variable {p : Proc} {s cwd : Str}

theorem eq_slash_of_dropWhile {rest : Str} {c : Char}
    (h : s.dropWhile (· ≠ '/') = c :: rest) : c = '/' := by
  have hhead := List.head?_dropWhile_not (fun c => decide (c ≠ '/')) s
  rw [h] at hhead
  simpa using hhead

theorem takeName_ne_nil (h : s.dropWhile (· = '/') ≠ []) :
    (s.dropWhile (· = '/')).takeWhile (· ≠ '/') ≠ [] := by
  cases hd : s.dropWhile (· = '/') with
  | nil => exact absurd hd h
  | cons c rest =>
    have hc := List.head?_dropWhile_not (fun c => decide (c = '/')) s
    rw [hd] at hc
    simp only [List.head?_cons, decide_eq_false_iff_not] at hc
    simp [hc]

/-- Slashes at the front lead nowhere. -/
theorem follow_dropSlashes (dir : List Str) (path : Str) :
    follow dir (path.dropWhile (· = '/')) = follow dir path := by
  induction path with
  | nil => rfl
  | cons c path ih =>
    by_cases hc : c = '/'
    · subst hc
      rw [List.dropWhile_cons_of_pos (by simp), ih, follow_slash]
    · rw [List.dropWhile_cons_of_neg (by simpa using hc)]

/-- The text before the first slash is the first component. -/
theorem follow_takeName (dir : List Str) (path : Str) : follow dir path =
      follow (goInto dir (path.takeWhile (· ≠ '/'))) (path.dropWhile (· ≠ '/')) := by
  have hname := slash_not_mem_takeWhile path
  have hpath := List.takeWhile_append_dropWhile (p := fun c => decide (c ≠ '/')) (l := path)
  cases hrest : path.dropWhile (· ≠ '/') with
  | nil =>
    rw [hrest, List.append_nil] at hpath
    rw [follow_nil, ← follow_component hname, hpath]
  | cons c rest =>
    obtain rfl := eq_slash_of_dropWhile hrest
    rw [hrest] at hpath
    nth_rewrite 1 [← hpath]
    rw [follow_append, follow_component hname, follow_slash]

/-! ## Texts -/

theorem stripLast_append {a : Str} (h : '/' ∉ c) : stripLast (a ++ '/' :: c) = a := by
  unfold stripLast
  rw [List.reverse_append, List.reverse_cons, List.append_assoc,
    List.dropWhile_append_of_pos fun x hx => ?_]
  · simp
  · simpa using fun hxs : x = '/' => h (hxs ▸ List.mem_reverse.mp hx)

theorem stripLast_component (h : '/' ∉ c) : stripLast c = [] := by
  unfold stripLast
  rw [List.dropWhile_eq_nil_iff.mpr fun x hx => ?_]
  · rfl
  · simpa using fun hxs : x = '/' => h (hxs ▸ List.mem_reverse.mp hx)

theorem stripLast_length_le (s : Str) : (stripLast s).length ≤ s.length := by
  unfold stripLast
  rw [List.length_reverse, List.length_drop]
  have h := (List.dropWhile_suffix (l := s.reverse) (fun c => decide (c ≠ '/'))).length_le
  rw [List.length_reverse] at h
  omega

theorem written_concat (dir : List Str) (c : Str) :
    written (dir ++ [c]) = if dir = [] then c else written dir ++ '/' :: c := by
  unfold written
  induction dir with
  | nil => rw [List.nil_append, List.intercalate_singleton, if_pos rfl]
  | cons a dir ih =>
    rw [if_neg (List.cons_ne_nil a dir)]
    cases dir with
    | nil => simp [List.intercalate_cons_cons]
    | cons b dir =>
      rw [if_neg (List.cons_ne_nil b dir)] at ih
      simp only [List.cons_append, List.intercalate_cons_cons, List.append_assoc] at ih ⊢
      rw [ih]

theorem written_ne_nil (h : Proper dir) (hne : dir ≠ []) : written dir ≠ [] := by
  obtain ⟨front, c, rfl⟩ := List.eq_nil_or_concat dir |>.resolve_left hne
  rw [List.concat_eq_append] at h ⊢
  rw [written_concat]
  split
  · exact (h c (by simp)).1
  · simp

/-- A name goes behind the text with a slash, or is the first. -/
theorem written_push (h : Proper dir) (name : Str) :
    (if written dir ≠ [] then written dir ++ ['/'] else written dir) ++ name =
      written (dir ++ [name]) := by
  rw [written_concat]
  by_cases hd : dir = []
  · simp [hd, written]
  · rw [if_pos (written_ne_nil h hd), if_neg hd]
    simp

/-- Directories that are written alike are the same. -/
theorem written_inj {dir' : List Str} (h : Proper dir) (h' : Proper dir')
    (he : written dir = written dir') : dir = dir' := by
  by_cases hd : dir = []
  · by_contra hne
    refine written_ne_nil h' (fun h0 => hne (hd.trans h0.symm)) ?_
    rw [← he, hd]
    rfl
  · have hd' : dir' ≠ [] := fun h0 => written_ne_nil h hd (by rw [he, h0]; rfl)
    have hs := List.splitOn_intercalate '/' (fun c hc => (h c hc).2) hd
    rw [show List.intercalate ['/'] dir = List.intercalate ['/'] dir' from he,
      List.splitOn_intercalate '/' (fun c hc => (h' c hc).2) hd'] at hs
    exact hs.symm

theorem stripLast_written (h : Proper dir) : stripLast (written dir) = written dir.dropLast := by
  rcases List.eq_nil_or_concat dir with rfl | ⟨front, c, rfl⟩
  · rfl
  · rw [List.concat_eq_append] at h ⊢
    have hc := (h c (by simp)).2
    rw [written_concat, List.dropLast_concat]
    split
    · next hf => rw [stripLast_component hc, hf]; rfl
    · exact stripLast_append hc

/-- The text behind the last slash of a path. -/
def lastName (s : Str) : Str := (s.reverse.takeWhile (· ≠ '/')).reverse

theorem slash_not_mem_lastName (s : Str) : '/' ∉ lastName s := fun h =>
  slash_not_mem_takeWhile s.reverse (List.mem_reverse.mp h)

/-- A path is its last component behind the rest, or just a component. -/
theorem stripLast_lastName (s : Str) :
    (stripLast s = [] ∧ s = lastName s) ∨ s = stripLast s ++ '/' :: lastName s := by
  have hs := List.takeWhile_append_dropWhile (p := fun c => decide (c ≠ '/')) (l := s.reverse)
  unfold stripLast lastName
  cases hrest : s.reverse.dropWhile (· ≠ '/') with
  | nil =>
    rw [hrest, List.append_nil] at hs
    exact .inl ⟨rfl, by rw [hs, List.reverse_reverse]⟩
  | cons c rest =>
    obtain rfl := eq_slash_of_dropWhile hrest
    right
    rw [hrest] at hs
    have hrev := congrArg List.reverse hs
    simpa using hrev.symm

/-- Where a path leads, by its last component. -/
theorem denotes_lastName (s : Str) : denotes s = goInto (denotes (stripLast s)) (lastName s) := by
  have hlast := slash_not_mem_lastName s
  rcases stripLast_lastName s with ⟨hnil, hs⟩ | hs
  · rw [hnil, denotes, denotes, follow_nil, ← follow_component hlast, ← hs]
  · nth_rewrite 1 [hs]
    rw [denotes, follow_append, follow_component hlast]
    rfl

/-! ## Normalising -/

/-- Room for all of the path behind what is written, a slash between them included. -/
def Room (outsz : Nat) (dir : List Str) (path : Str) : Prop :=
  (written dir = [] ∨ path = [] ∨ path.head? = some '/') ∧ (written dir).length + path.length < outsz

variable {env : Env} {outsz rounds ebx : Nat} {p' : Proc}

/-- A slash is gone for the one that goes before the name. -/
theorem Room.separator (h : Room outsz dir path) (hw : written dir ≠ []) (hp : path ≠ []) :
    (path.dropWhile (· = '/')).length + 1 ≤ path.length := by
  have hhead := (h.1.resolve_left hw).resolve_left hp
  cases path with
  | nil => exact absurd rfl hp
  | cons c path =>
    obtain rfl : c = '/' := by simpa using hhead
    rw [List.dropWhile_cons_of_pos (by simp)]
    exact Nat.succ_le_succ (List.dropWhile_suffix _).length_le

theorem dropName_head (q : Str) :
    q.dropWhile (· ≠ '/') = [] ∨ (q.dropWhile (· ≠ '/')).head? = some '/' := by
  cases hd : q.dropWhile (· ≠ '/') with
  | nil => exact .inl rfl
  | cons c rest => exact .inr (by rw [eq_slash_of_dropWhile hd]; rfl)

/-- The loop over the components writes out where the path leads to, or has no room for it. -/
theorem normalizeLoop_eq (outsz : Nat) (stores : List (Nat × Nat)) (hdir : Proper dir)
    (hrounds : path.length ≤ rounds) :
    ((normalizeLoop outsz rounds path (written dir) stores).1 = some (written (follow dir path)) ∨
      (normalizeLoop outsz rounds path (written dir) stores).1 = none ∧ ¬ Room outsz dir path) ∧
      Proper (follow dir path) := by
  induction rounds generalizing path dir stores with
  | zero =>
    rw [List.length_eq_zero_iff.mp (Nat.le_zero.mp hrounds), follow_nil]
    exact ⟨.inl rfl, hdir⟩
  | succ rounds ih =>
    unfold normalizeLoop
    rw [← follow_dropSlashes dir path]
    have hle := (List.dropWhile_suffix (l := path) (fun c => decide (c = '/'))).length_le
    have hsep : Room outsz dir path → written dir ≠ [] → path ≠ [] →
        (path.dropWhile (· = '/')).length + 1 ≤ path.length := Room.separator
    generalize hq : path.dropWhile (· = '/') = q at hle hsep ⊢
    by_cases hnil : q = []
    · rw [hnil, follow_nil]
      exact ⟨.inl (congrArg Prod.fst (if_pos rfl)), hdir⟩
    · rw [if_neg hnil, follow_takeName dir q]
      have hlen : (q.takeWhile (· ≠ '/')).length + (q.dropWhile (· ≠ '/')).length = q.length := by
        rw [← List.length_append, List.takeWhile_append_dropWhile]
      have hname : q.takeWhile (· ≠ '/') ≠ [] := by
        rw [← hq] at hnil ⊢
        exact takeName_ne_nil hnil
      have hrest := dropName_head q
      have hslash := slash_not_mem_takeWhile q
      have hpath : path ≠ [] := fun h => hnil (by rw [← hq, h]; rfl)
      generalize q.takeWhile (· ≠ '/') = name at hlen hname hslash ⊢
      generalize q.dropWhile (· ≠ '/') = rest at hlen hrest ⊢
      have hpos := List.length_pos_iff.mpr hname
      have hproper := hdir.goInto hslash
      -- the next round, which has room where this one has
      have next : ∀ dir' stores', Proper dir' → (Room outsz dir path →
          (written dir').length + rest.length < outsz) →
          ((normalizeLoop outsz rounds rest (written dir') stores').1 =
              some (written (follow dir' rest)) ∨
            (normalizeLoop outsz rounds rest (written dir') stores').1 = none ∧
              ¬ Room outsz dir path) ∧
            Proper (follow dir' rest) := fun dir' stores' hdir' hfits =>
        (ih stores' hdir' (by omega)).imp_left fun h =>
          h.imp_right fun hno => ⟨hno.1, fun hroom => hno.2 ⟨.inr hrest, hfits hroom⟩⟩
      by_cases hdot : name = ['.']
      · rw [if_pos hdot, goInto, if_pos (.inr hdot)]
        exact next dir stores hdir fun hroom => by have := hroom.2; omega
      rw [if_neg hdot]
      by_cases hdots : name = ['.', '.']
      · rw [if_pos hdots, stripLast_written hdir]
        have hgo : goInto dir name = dir.dropLast := by
          rw [goInto, if_neg (not_or.mpr ⟨hname, hdot⟩), if_pos hdots]
        rw [hgo] at hproper ⊢
        have hstrip := stripLast_length_le (written dir)
        rw [stripLast_written hdir] at hstrip
        exact next _ stores hproper fun hroom => by have := hroom.2; omega
      rw [if_neg hdots]
      have hgo : goInto dir name = dir ++ [name] := by
        rw [goInto, if_neg (not_or.mpr ⟨hname, hdot⟩), if_neg hdots]
      rw [hgo] at hproper ⊢
      have hwritten := written_push hdir name
      have hsize : Room outsz dir path → (written (dir ++ [name])).length + rest.length < outsz := by
        intro hroom
        have := hroom.2
        rw [← hwritten]
        split
        · next hw =>
          have := hsep hroom hw hpath
          simp only [List.length_append, List.length_singleton]
          omega
        · simp only [List.length_append]
          omega
      have hnext := fun stores' => next _ stores' hproper hsize
      dsimp only
      rw [← List.length_append, hwritten]
      split
      · next hw =>
        refine ⟨.inr ⟨rfl, fun hroom => ?_⟩, (hnext []).2⟩
        have := hroom.2
        omega
      split
      · next hno => exact ⟨.inr ⟨rfl, fun hroom => by have := hsize hroom; omega⟩, (hnext []).2⟩
      · exact hnext _

theorem proper_nil : Proper [] := fun _ hc => absurd hc List.not_mem_nil

/-- With room for the path itself there is room on the way. -/
theorem vfsNormalizePath_eq (h : path.length < outsz) :
    vfsNormalizePath path outsz = some (written (denotes path)) := by
  unfold vfsNormalizePath vfsNormalizeStores
  rw [if_neg (by omega)]
  exact (normalizeLoop_eq outsz [] proper_nil le_rfl).1.resolve_right fun hno =>
    hno.2 ⟨.inl rfl, by simpa [written] using h⟩

theorem vfsNormalizeAlloc_eq (path : Str) :
    vfsNormalizeAlloc path = some (written (denotes path)) ∧ Proper (denotes path) :=
  ⟨vfsNormalizePath_eq (Nat.lt_succ_self _),
    (normalizeLoop_eq 0 [] proper_nil (Nat.le_refl path.length)).2⟩

/-- The stores stay inside the buffer. -/
theorem normalizeLoop_inside {out : Str} {stores : List (Nat × Nat)} (h : out.length < outsz)
    (hstores : ∀ w ∈ stores, w.1 + w.2 ≤ outsz) :
    ∀ w ∈ (normalizeLoop outsz rounds path out stores).2, w.1 + w.2 ≤ outsz := by
  -- one more store that fits
  have hmore : ∀ {stores : List (Nat × Nat)} {lo n : Nat}, (∀ w ∈ stores, w.1 + w.2 ≤ outsz) →
      lo + n ≤ outsz → ∀ w ∈ stores ++ [(lo, n)], w.1 + w.2 ≤ outsz := by
    intro stores lo n hall hfits w hw
    rcases List.mem_append.mp hw with hw | hw
    · exact hall w hw
    · rw [List.mem_singleton.mp hw]
      exact hfits
  induction rounds generalizing path out stores with
  | zero => exact hmore hstores h
  | succ rounds ih =>
    unfold normalizeLoop
    dsimp only
    split
    · exact hmore hstores h
    split
    · exact ih h hstores
    split
    · exact ih (Nat.lt_of_le_of_lt (stripLast_length_le out) h) hstores
    split
    · exact hstores
    have hslash : ∀ w ∈ (if out ≠ [] then stores ++ [(out.length, 1)] else stores),
        w.1 + w.2 ≤ outsz := by
      split
      · exact hmore hstores h
      · exact hstores
    generalize (if out ≠ [] then stores ++ [(out.length, 1)] else stores) = stores' at hslash ⊢
    generalize (if out ≠ [] then out ++ ['/'] else out) = out'
    split
    · exact hslash
    next hfits =>
      exact ih (by rw [List.length_append]; exact Nat.lt_of_not_le hfits)
        (hmore hslash (Nat.le_of_not_le hfits))

theorem foldl_goInto_isName {comps : List Str} (h : ∀ c ∈ dir, IsName c) :
    ∀ c ∈ comps.foldl goInto dir, IsName c := by
  induction comps generalizing dir with
  | nil => exact h
  | cons a comps ih =>
    refine ih fun c hc => ?_
    unfold goInto at hc
    split at hc
    · exact h c hc
    next hstay =>
      split at hc
      · exact h c (List.mem_of_mem_dropLast hc)
      next hdots =>
        rcases List.mem_append.mp hc with hc | hc
        · exact h c hc
        · rw [List.mem_singleton.mp hc]
          exact ⟨fun he => hstay (.inl he), fun he => hstay (.inr he), hdots⟩

/-- Names written out denote the directory they lead to. -/
theorem denotes_written (h : ∀ c ∈ dir, IsName c ∧ '/' ∉ c) : denotes (written dir) = dir := by
  induction dir using List.reverseRecOn with
  | nil => exact follow_nil []
  | append_singleton dir c ih =>
    obtain ⟨⟨hne, hdot, hdots⟩, hc⟩ := h c (by simp)
    have hgo : goInto dir c = dir ++ [c] := by
      rw [goInto, if_neg (not_or.mpr ⟨hne, hdot⟩), if_neg hdots]
    rw [written_concat]
    split
    next hnil => rw [denotes, follow_component hc, ← hgo, hnil]
    · rw [denotes, follow_append, follow_component hc]
      exact (congrArg (goInto · c) (ih fun a ha => h a (List.mem_append_left _ ha))).trans hgo

/-- A path is normalised to the names on the way to what it denotes, and these to themselves.
Without the room it is so too, or the call fails, and the stores stay inside the buffer. -/
theorem normalize_path (path : Str) :
    (∀ c ∈ denotes path, IsName c ∧ '/' ∉ c) ∧
    (∀ outsz, path.length + 1 ≤ outsz →
      vfsNormalizePath path outsz = some (written (denotes path))) ∧
    (∀ outsz, (written (denotes path)).length + 1 ≤ outsz →
      vfsNormalizePath (written (denotes path)) outsz = some (written (denotes path))) ∧
    ∀ outsz, (vfsNormalizePath path outsz = some (written (denotes path)) ∨
        vfsNormalizePath path outsz = none) ∧
      ∀ w ∈ (vfsNormalizeStores path outsz).2, w.1 + w.2 ≤ outsz := by
  have hnames : ∀ c ∈ denotes path, IsName c ∧ '/' ∉ c := fun c hc =>
    ⟨foldl_goInto_isName (fun _ h => absurd h List.not_mem_nil) c hc,
      ((vfsNormalizeAlloc_eq path).2 c hc).2⟩
  refine ⟨hnames, fun outsz h => vfsNormalizePath_eq h, fun outsz h => ?_, fun outsz => ?_⟩
  · rw [vfsNormalizePath_eq h, denotes_written hnames]
  · unfold vfsNormalizePath vfsNormalizeStores
    split
    · exact ⟨.inr rfl, fun w hw => absurd hw List.not_mem_nil⟩
    next hpos =>
      exact ⟨(normalizeLoop_eq outsz [] proper_nil le_rfl).1.imp_right And.left,
        normalizeLoop_inside (Nat.pos_of_ne_zero hpos) fun w hw => absurd hw List.not_mem_nil⟩

/-- Paths are normalised alike where they denote the same directory. -/
theorem normalize_eq_iff (a b : Str) :
    vfsNormalizeAlloc a = vfsNormalizeAlloc b ↔ denotes a = denotes b := by
  obtain ⟨ha, hpa⟩ := vfsNormalizeAlloc_eq a
  obtain ⟨hb, hpb⟩ := vfsNormalizeAlloc_eq b
  rw [ha, hb, Option.some_inj]
  exact ⟨written_inj hpa hpb, congrArg written⟩

/-! ## chdir -/

/-- The path that a call means: `path` from the working directory, or on its own. -/
def target (cwd path : Str) : Str := if path.head? = some '/' then path else cwd ++ '/' :: path

/-- The text that a call stores. -/
def nextCwd (cwd path : Str) : Str :=
  if path = [] ∨ path = ['/'] then []
  else if path = ['.', '.'] then stripLast cwd
  else trimSlash (kcwdResolve cwd path pathMax)

/-- A path without `./` at its front. -/
def dropDotSlash (path : Str) : Str := if path.take 2 = ['.', '/'] then path.drop 2 else path

/-- Where chdir does what it should: an empty path names the root, `..` cuts a name off
the working directory, and a longer path than the buffer means the same when cut. -/
def ChdirOk (cwd path : Str) : Prop :=
  if path = [] then denotes cwd = []
  else if path = ['.', '.'] then IsName (lastName cwd) ∨ denotes (stripLast cwd) = []
  else cwd = [] ∨ path = ['.'] ∨ path.head? = some '/' ∨
    denotes (cut pathMax (cwd ++ '/' :: dropDotSlash path)) =
      denotes (cwd ++ '/' :: dropDotSlash path)

theorem denotes_nil : denotes [] = [] := follow_nil []

theorem denotes_append (a b : Str) : denotes (a ++ '/' :: b) = follow (denotes a) b :=
  follow_append [] a b

theorem cut_eq (h : s.length < pathMax) : cut pathMax s = s :=
  List.take_of_length_le (by unfold pathMax at *; omega)

theorem cut_length (s : Str) : (cut pathMax s).length < pathMax := by
  unfold cut pathMax
  rw [List.length_take]
  omega

theorem denotes_trimSlash (s : Str) : denotes (trimSlash s) = denotes s := by
  unfold trimSlash
  split
  · next h =>
    obtain ⟨front, rfl⟩ := List.getLast?_eq_some_iff.mp h
    rw [List.dropLast_concat, denotes_append, follow_nil]
  · rfl

/-- The parent of where a path leads is what is left of it without its last component, if
that is a name or there is nothing above. -/
theorem denotes_stripLast_iff (s : Str) : denotes (stripLast s) = (denotes s).dropLast ↔
      IsName (lastName s) ∨ denotes (stripLast s) = [] := by
  rw [denotes_lastName s]
  generalize denotes (stripLast s) = dir
  unfold goInto IsName
  by_cases hstay : lastName s = [] ∨ lastName s = ['.']
  · rw [if_pos hstay]
    refine ⟨fun h => .inr ?_, ?_⟩
    · have hlen := congrArg List.length h
      rw [List.length_dropLast] at hlen
      exact List.length_eq_zero_iff.mp (by omega)
    · rintro (⟨hne, hdot, _⟩ | hnil)
      · exact absurd hstay (not_or.mpr ⟨hne, hdot⟩)
      · rw [hnil]; rfl
  rw [if_neg hstay]
  obtain ⟨hne, hdot⟩ := not_or.mp hstay
  by_cases hdots : lastName s = ['.', '.']
  · rw [if_pos hdots]
    refine ⟨fun h => .inr ?_, ?_⟩
    · have hlen := congrArg List.length h
      rw [List.length_dropLast, List.length_dropLast] at hlen
      exact List.length_eq_zero_iff.mp (by omega)
    · rintro (⟨_, _, hn⟩ | hnil)
      · exact absurd hdots hn
      · rw [hnil]; rfl
  · rw [if_neg hdots, List.dropLast_concat]
    exact ⟨fun _ => .inl ⟨hne, hdot, hdots⟩, fun _ => rfl⟩

/-- What the buffer holds means the same as the path, if what is cut off does not matter. -/
theorem denotes_kcwdResolve (hcwd : cwd.length < pathMax) (hpath : path.length < pathMax) :
    denotes (kcwdResolve cwd path pathMax) = denotes (target cwd path) ↔
      cwd = [] ∨ path = ['.'] ∨ path.head? = some '/' ∨
        denotes (cut pathMax (cwd ++ '/' :: dropDotSlash path)) =
          denotes (cwd ++ '/' :: dropDotSlash path) := by
  unfold kcwdResolve
  by_cases hdot : path = ['.']
  · subst hdot
    rw [if_pos rfl, cut_eq hcwd, target, if_neg (by decide), denotes_append,
      follow_component (by decide)]
    exact ⟨fun _ => .inr (.inl rfl), fun _ => rfl⟩
  rw [if_neg hdot]
  have hdropped : (dropDotSlash path).length < pathMax := by
    unfold dropDotSlash
    split
    · rw [List.length_drop]
      omega
    · exact hpath
  by_cases hdd : path.take 2 = ['.', '/']
  · obtain ⟨rest, rfl⟩ : ∃ rest, path = '.' :: '/' :: rest := by
      refine ⟨path.drop 2, ?_⟩
      rw [← List.take_append_drop 2 path, hdd]
      rfl
    have htarget : denotes (target cwd ('.' :: '/' :: rest)) = denotes (cwd ++ '/' :: rest) := by
      rw [target, if_neg (by simp), denotes_append, denotes_append]
      exact follow_append (denotes cwd) ['.'] rest
    have hdrop : dropDotSlash ('.' :: '/' :: rest) = rest := rfl
    rw [hdrop] at hdropped ⊢
    rw [if_pos hdd, htarget]
    by_cases hnil : cwd = []
    · rw [if_pos hnil]
      refine ⟨fun _ => .inl hnil, fun _ => ?_⟩
      rw [hnil, List.drop_succ_cons, List.drop_succ_cons, List.drop_zero, cut_eq hdropped]
      exact (follow_slash [] rest).symm
    · rw [if_neg hnil]
      exact ⟨fun h => .inr (.inr (.inr h)), fun h => by simpa [hnil] using h⟩
  rw [if_neg hdd]
  have hdrop : dropDotSlash path = path := if_neg hdd
  rw [hdrop]
  by_cases habs : path.head? = some '/'
  · obtain ⟨rest, rfl⟩ := List.head?_eq_some_iff.mp habs
    rw [if_pos (show List.take 1 ('/' :: rest) = ['/'] from rfl), target, if_pos habs]
    refine ⟨fun _ => .inr (.inr (.inl habs)), fun _ => ?_⟩
    rw [List.drop_succ_cons, List.drop_zero, cut_eq (Nat.lt_of_succ_lt hpath)]
    exact (follow_slash [] rest).symm
  · have hhead : path.take 1 ≠ ['/'] := fun h => habs (by
      cases path with
      | nil => cases h
      | cons c path => simpa using h)
    rw [if_neg hhead, target, if_neg habs]
    by_cases hnil : cwd = []
    · rw [if_pos hnil, cut_eq hpath, hnil]
      exact ⟨fun _ => .inl rfl, fun _ => (follow_slash [] path).symm⟩
    · rw [if_neg hnil]
      simp [hnil, hdot, habs]

theorem denotes_nextCwd_iff (hcwd : cwd.length < pathMax) (hpath : path.length < pathMax) :
    denotes (nextCwd cwd path) = denotes (target cwd path) ↔ ChdirOk cwd path := by
  unfold nextCwd ChdirOk
  by_cases hnil : path = []
  · subst hnil
    rw [if_pos (.inl rfl), if_pos rfl, denotes_nil, target, if_neg (by decide), denotes_append,
      follow_nil]
    exact eq_comm
  rw [if_neg hnil]
  by_cases hroot : path = ['/']
  · subst hroot
    rw [if_pos (.inr rfl), if_neg (by decide)]
    exact ⟨fun _ => .inr (.inr (.inl rfl)), fun _ => (follow_slash [] []).symm⟩
  rw [if_neg (not_or.mpr ⟨hnil, hroot⟩)]
  by_cases hdots : path = ['.', '.']
  · subst hdots
    rw [if_pos rfl, if_pos rfl, target, if_neg (by decide), denotes_append,
      follow_component (by decide), ← denotes_stripLast_iff]
    rfl
  · rw [if_neg hdots, if_neg hdots, denotes_trimSlash]
    exact denotes_kcwdResolve hcwd hpath

theorem processCwd_set (p : Proc) (cwd : Str) :
    (p.setProcessCwd cwd).processCwd = cut pathMax cwd := by
  unfold Proc.setProcessCwd Proc.processCwd
  cases p.fsState <;> rfl

theorem processCwd_strip (p : Proc) : p.stripCwd.processCwd = stripLast p.processCwd := by
  unfold Proc.stripCwd Proc.processCwd
  cases p.fsState <;> rfl

theorem kcwdResolve_length (cwd path : Str) : (kcwdResolve cwd path pathMax).length < pathMax := by
  unfold kcwdResolve
  repeat' split
  all_goals exact cut_length _

theorem trimSlash_length (s : Str) : (trimSlash s).length ≤ s.length := by
  unfold trimSlash
  split
  · rw [List.length_dropLast]
    omega
  · exact le_rfl

/-- What a call that succeeds has done. -/
theorem chdir_ok (h : syscallCaseChdir env p ebx = .ok p') :
    ∃ path, env.user ebx = some path ∧ path.length < pathMax ∧
      p'.processCwd = nextCwd p.processCwd path := by
  unfold syscallCaseChdir at h
  split at h
  · cases h
  split at h
  · cases h
  next path hcopy =>
  have hread : env.user ebx = some path ∧ path.length < pathMax := by
    unfold copyUserStringAlloc at hcopy
    split at hcopy
    · cases hcopy
    split at hcopy
    · cases hcopy
    next s hs =>
    split at hcopy
    · next hlen =>
      cases hcopy
      exact ⟨hs, hlen⟩
    · cases hcopy
  refine ⟨path, hread.1, hread.2, ?_⟩
  unfold nextCwd
  split at h
  · next hroot =>
    rw [if_pos hroot, ← Except.ok.inj h, processCwd_set]
    rfl
  next hroot =>
  rw [if_neg hroot]
  split at h
  · next hdots =>
    rw [if_pos hdots]
    split at h
    · next hnil =>
      rw [← Except.ok.inj h, hnil]
      rfl
    · rw [← Except.ok.inj h, processCwd_strip]
  next hdots =>
  rw [if_neg hdots]
  split at h
  · cases h
  have hset : (p.setProcessCwd (trimSlash (kcwdResolve p.processCwd path pathMax))).processCwd =
      trimSlash (kcwdResolve p.processCwd path pathMax) := by
    rw [processCwd_set, cut_eq]
    exact Nat.lt_of_le_of_lt (trimSlash_length _) (kcwdResolve_length _ _)
  dsimp only at h
  split at h
  · next hres =>
    rw [← Except.ok.inj h, ← hres, hset]
  · split at h
    · cases h
    · split at h
      · cases h
      · rw [← Except.ok.inj h, hset]

theorem nextCwd_length (path : Str) (hcwd : cwd.length < pathMax) :
    (nextCwd cwd path).length < pathMax := by
  unfold nextCwd
  split
  · exact Nat.zero_lt_succ _
  split
  · exact Nat.lt_of_le_of_lt (stripLast_length_le cwd) hcwd
  · exact Nat.lt_of_le_of_lt (trimSlash_length _) (kcwdResolve_length _ _)

/-- A call of chdir; one that fails leaves the process as it is. -/
def chdirStep (p : Proc) (call : Env × Nat) : Proc :=
  match syscallCaseChdir call.1 p call.2 with
  | .ok p' => p'
  | .error _ => p

theorem chdirStep_fits (call : Env × Nat) (h : p.processCwd.length < pathMax) :
    (chdirStep p call).processCwd.length < pathMax := by
  unfold chdirStep
  split
  · next p' hok =>
    obtain ⟨path, _, _, hnext⟩ := chdir_ok hok
    rw [hnext]
    exact nextCwd_length path h
  · exact h

/-- After any calls from the root, a call that succeeds leads where the working directory
and the path say, exactly under `ChdirOk`. -/
theorem chdir_iff {p0 : Proc} (h0 : p0.processCwd = [])
    (hrun : Reach chdirStep (fun _ _ => True) p0 p)
    (hpath : env.user ebx = some path) (hok : syscallCaseChdir env p ebx = .ok p') :
    vfsNormalizeAlloc p'.processCwd = vfsNormalizeAlloc (target p.processCwd path) ↔
      ChdirOk p.processCwd path := by
  have hcwd : p.processCwd.length < pathMax :=
    hrun.inv (fun p => p.processCwd.length < pathMax) (by rw [h0]; decide)
      fun p call h _ => chdirStep_fits call h
  obtain ⟨path', hpath', hlen, hnext⟩ := chdir_ok hok
  obtain rfl := Option.some.inj (hpath.symm.trans hpath')
  rw [normalize_eq_iff, hnext]
  exact denotes_nextCwd_iff hcwd hlen

/-- The empty path leads to the root, as `/` does; any other path leads where it says from the
working directory, if `..` does not meet a component that is no name and nothing that
matters is cut off. -/
theorem chdir_leads {p₀ p p' : Proc} (h₀ : p₀.processCwd = [])
    (hrun : Reach chdirStep (fun _ _ => True) p₀ p) {env : Env} {ebx : Nat} {path : Str}
    (hpath : env.user ebx = some path) (hok : syscallCaseChdir env p ebx = .ok p') :
    (path = [] → p'.processCwd = []) ∧
    (path ≠ [] → ChdirOk p.processCwd path →
      vfsNormalizeAlloc p'.processCwd = vfsNormalizeAlloc (target p.processCwd path)) := by
  refine ⟨fun hnil => ?_, fun _ h => (chdir_iff h₀ hrun hpath hok).mpr h⟩
  obtain ⟨path', hpath', _, hnext⟩ := chdir_ok hok
  obtain rfl := Option.some.inj (hpath.symm.trans hpath')
  rw [hnext, nextCwd, if_pos (.inl hnil)]

/-- A user with a path at address 1, and directories wherever one looks. -/
def userPath (path : Str) : Env where
  heap := fun _ => false
  user := fun ptr => if ptr = 1 then some path else none
  lookup := fun _ => some 2

/-- A process in the root directory, with its state shared. -/
def atRoot : Proc := ⟨some [], []⟩

/-- The process after a call from the root. -/
def movedTo (path : Str) : Proc := chdirStep atRoot (userPath path, 1)

/-- From `a/b`, which ends in a name, `..` leads to `a`. -/
theorem chdir_up_from_name :
    (∃ p', syscallCaseChdir (userPath ['.', '.']) (movedTo ['a', '/', 'b']) 1 = .ok p' ∧
      vfsNormalizeAlloc p'.processCwd =
        vfsNormalizeAlloc (target (movedTo ['a', '/', 'b']).processCwd ['.', '.'])) ∧
    ChdirOk (movedTo ['a', '/', 'b']).processCwd ['.', '.'] := by
  have hok : ChdirOk (movedTo ['a', '/', 'b']).processCwd ['.', '.'] := .inl (by decide)
  have hrun : Reach chdirStep (fun _ _ => True) atRoot (movedTo ['a', '/', 'b']) :=
    Reach.step (userPath ['a', '/', 'b'], 1) Reach.start trivial
  have huser : (userPath ['.', '.']).user 1 = some ['.', '.'] := rfl
  have hcall : syscallCaseChdir (userPath ['.', '.']) (movedTo ['a', '/', 'b']) 1 =
      .ok (movedTo ['a', '/', 'b']).stripCwd := rfl
  exact ⟨⟨_, hcall, (chdir_leads rfl hrun huser hcall).2 (by decide) hok⟩, hok⟩

/-- From `a/.`, `..` leads to `a`, where it was; from `a`, an empty path leads to the root. -/
theorem chdir_up_stays :
    (∃ p', syscallCaseChdir (userPath ['.', '.']) (movedTo ['a', '/', '.']) 1 = .ok p' ∧
      vfsNormalizeAlloc p'.processCwd ≠
        vfsNormalizeAlloc (target (movedTo ['a', '/', '.']).processCwd ['.', '.'])) ∧
    ∃ p', syscallCaseChdir (userPath []) (movedTo ['a']) 1 = .ok p' ∧
      vfsNormalizeAlloc p'.processCwd ≠ vfsNormalizeAlloc (target (movedTo ['a']).processCwd []) :=
  ⟨⟨_, rfl, by decide⟩, ⟨_, rfl, by decide⟩⟩

end Drunix.Vfs
