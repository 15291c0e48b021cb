import Drunix.Mm.VmaBytes

/-!
# The commit charge of a process

brk, mmap, munmap and mprotect charge the pages of writable private anonymous mappings and
of the heap before they act, and give back what they take away. `commit_charge_run`: from a
fresh process on, after any of these calls with any arguments, the charge is the number of
those pages, and a call that fails changes neither the charge nor the areas.

It holds whether or not brk has pushed the heap over a mapping, since the mappings stay
apart from each other (`Tidy`), and nothing is ever released that has not been charged.
-/

namespace Drunix.Mm

open Lib

/-! ## Pages and bytes -/

theorem vmPageAlignUp_dvd (n : Nat) : 4096 ∣ vmPageAlignUp n := by
  unfold vmPageAlignUp
  split
  · exact Nat.dvd_zero _
  · exact Nat.dvd_mul_left _ _

theorem vmPageAlignUp_mono {a b : Nat} (hab : a ≤ b) (hb : b ≤ userStackBase) :
    vmPageAlignUp a ≤ vmPageAlignUp b := by
  unfold userStackBase at hb
  unfold vmPageAlignUp
  rw [if_neg (by omega), if_neg (by omega)]
  omega

variable {n brk len stop : Nat}

/-- Rounding up in place, below the stack. -/
theorem alignUp_u32 (h : n ≤ userStackBase) : u32 (n + 0xFFF) / 4096 * 4096 = vmPageAlignUp n := by
  unfold userStackBase at h
  unfold vmPageAlignUp u32
  rw [if_neg (by omega), Nat.mod_eq_of_lt (by omega)]

theorem alignUp_le (h : n ≤ userStackBase) : vmPageAlignUp n ≤ 0xC0000000 := by
  unfold userStackBase at h
  unfold vmPageAlignUp
  split <;> omega

theorem vmPageAlignUp_of_dvd (h : 4096 ∣ n) (hle : n ≤ 0xFFFFF000) : vmPageAlignUp n = n := by
  unfold vmPageAlignUp
  rw [if_neg (by omega)]
  omega

variable {l : List VmArea} {bytes start length hint : Nat} {p' : Proc} {t : VmTable}
  {flags : VmaFlags} {kind : VmaKind}

/-- The pages for a number of bytes that fits. -/
theorem vmCommitPagesForBytes_eq (h : bytes ≤ 0xFFFFFFFF - 4095) :
    vmCommitPagesForBytes bytes = some (vmPageAlignUp bytes / 4096) := by
  unfold vmCommitPagesForBytes vmPageAlignUp
  rw [if_neg (show ¬ bytes > 0xFFFFFFFF - 0xFFF by omega)]
  split
  · next h0 => subst h0; rfl
  · rw [if_neg (by omega), Nat.mul_div_cancel _ (by decide)]

/-- A reservation adds the pages for the bytes. -/
theorem vmCommitReserve_charge {s : Phys} {p : Proc} (h : vmCommitReserve s p bytes = some p') :
    bytes ≤ 0xFFFFFFFF - 4095 ∧
      4096 * p'.committedPages = 4096 * p.committedPages + vmPageAlignUp bytes := by
  have hfits : bytes ≤ 0xFFFFFFFF - 4095 := by
    by_contra hc
    unfold vmCommitReserve vmCommitPagesForBytes at h
    rw [if_neg (by omega), if_pos (by omega)] at h
    cases h
  refine ⟨hfits, ?_⟩
  have hdvd := Nat.mul_div_cancel' (vmPageAlignUp_dvd bytes)
  unfold vmCommitReserve at h
  rw [vmCommitPagesForBytes_eq hfits] at h
  dsimp only at h
  split at h
  · next h0 =>
    rw [← Option.some.inj h]
    omega
  split at h
  · cases h
  split at h
  · cases h
  · rw [← Option.some.inj h]
    dsimp only
    omega

/-- A release takes them away again, if they are charged. -/
theorem vmCommitRelease_charge {p : Proc} (hfits : bytes ≤ 0xFFFFFFFF - 4095)
    (hle : vmPageAlignUp bytes ≤ 4096 * p.committedPages) :
    4096 * (vmCommitRelease p bytes).committedPages + vmPageAlignUp bytes =
      4096 * p.committedPages := by
  have hdvd := Nat.mul_div_cancel' (vmPageAlignUp_dvd bytes)
  unfold vmCommitRelease
  rw [vmCommitPagesForBytes_eq hfits]
  dsimp only
  rw [if_neg (by omega)]
  omega

/-- To reserve nothing is to do nothing. -/
theorem vmCommitReserve_if (s : Phys) (p : Proc) (bytes : Nat) :
    (if bytes ≠ 0 then vmCommitReserve s p bytes else some p) = vmCommitReserve s p bytes := by
  split
  · rfl
  · next h0 =>
    rw [not_ne_iff.mp h0]
    rfl

theorem vmCommitRelease_if (p : Proc) (bytes : Nat) :
    (if bytes ≠ 0 then vmCommitRelease p bytes else p) = vmCommitRelease p bytes := by
  split
  · rfl
  · next h0 =>
    rw [not_ne_iff.mp h0]
    rfl

@[simp] theorem vmCommitRelease_brk (p : Proc) (bytes : Nat) :
    (vmCommitRelease p bytes).brk = p.brk := by
  unfold vmCommitRelease
  split <;> rfl

theorem vmCommitReserve_brk {s : Phys} {p : Proc}
    (h : vmCommitReserve s p bytes = some p') : p'.brk = p.brk := by
  obtain ⟨_, rfl⟩ := vmCommitReserve_some h
  rfl

/-! ## The charge -/

/-- `syscall_vma_is_committable`, by flags and kind. -/
def committable : AreaTest := fun flags kind => decide (kind = .generic) && (flags.anon && flags.priv)

/-- `syscall_vma_requires_commit`. -/
def requiresCommit : AreaTest := fun flags kind => committable flags kind && flags.write

/-- What mprotect charges: it becomes writable. -/
def reserveTest (new : VmaFlags) : AreaTest := fun flags kind =>
  committable flags kind && (!flags.write && new.write)

/-- What mprotect releases: it is writable no more. -/
def releaseTest (new : VmaFlags) : AreaTest := fun flags kind =>
  committable flags kind && (flags.write && !new.write)

/-- The pages of the writable private anonymous mappings. -/
def chargedPages (l : List VmArea) : Nat :=
  (l.map fun v => if requiresCommit v.flags v.kind then (v.stop - v.start) / 4096 else 0).sum

theorem committable_generic {b : Bool} (h : (committable flags kind && b) = true) :
    kind = .generic := by
  simp only [committable, Bool.and_eq_true, decide_eq_true_eq] at h
  exact h.1.1

theorem requiresCommit_generic (h : requiresCommit flags kind = true) : kind = .generic :=
  committable_generic h

variable {f : AreaTest} {addr newBrk : Nat} {w : Phys × Proc} {q : Proc} {heap area : VmArea}
  {new : VmaFlags}

/-- What mprotect charges and releases is the difference that the new flags make. -/
theorem overlapOf_balance (new : VmaFlags) (start stop : Nat) (l : List VmArea) :
    overlapOf (fun flags kind => requiresCommit (vmaReplaceProtFlags flags new) kind) start stop l +
        overlapOf (releaseTest new) start stop l =
      overlapOf requiresCommit start stop l + overlapOf (reserveTest new) start stop l := by
  induction l with
  | nil => rfl
  | cons v l ih =>
    have hv : overlap (fun flags kind => requiresCommit (vmaReplaceProtFlags flags new) kind)
          start stop v + overlap (releaseTest new) start stop v =
        overlap requiresCommit start stop v + overlap (reserveTest new) start stop v := by
      simp only [overlap, requiresCommit, releaseTest, reserveTest, committable,
        vmaReplaceProtFlags]
      by_cases hw : v.flags.write = true <;> by_cases hn : new.write = true <;> simp [hw, hn]
    simp only [overlapOf_cons]
    omega

/-- Mappings have whole pages. -/
theorem bytesOf_requiresCommit (h : Tidy l) : bytesOf requiresCommit l = 4096 * chargedPages l := by
  induction l with
  | nil => rfl
  | cons v l ih =>
    have htail : Tidy l := Tidy.around (l := []) (m := [v]) h
    have hv := h.good v List.mem_cons_self
    rw [bytesOf_cons, ih htail]
    unfold chargedPages countedSize
    rw [List.map_cons, List.sum_cons, Nat.mul_add]
    congr 1
    split
    · next hc =>
      have hk := requiresCommit_generic hc
      have := Nat.mul_div_cancel' (Nat.dvd_sub (hv.stop hk) (hv.start (.inl hk)))
      exact this.symm
    · rfl

/-- What a call that fails leaves as it was. -/
def Kept (p q : Proc) : Prop :=
  q.committedPages = p.committedPages ∧ q.vmas.areas = p.vmas.areas

/-- The charge of a process whose heap starts at `base`. -/
structure Charged (base : Nat) (p : Proc) : Prop where
  tidy : Tidy p.vmas.areas
  heap : heapStart p.vmas.areas = some base
  low : base ≤ p.brk
  high : p.brk ≤ userStackBase ∨ p.brk = base
  charge : 4096 * p.committedPages =
    bytesOf requiresCommit p.vmas.areas + (vmPageAlignUp p.brk - vmPageAlignUp base)

/-! ## Ranges -/

theorem overlapOf_dvd (hf : ∀ flags kind, f flags kind = true → kind = .generic) (ha : 4096 ∣ start) (hb : 4096 ∣ stop) (h : Tidy l) :
    4096 ∣ overlapOf f start stop l := by
  induction l with
  | nil => exact Nat.dvd_zero _
  | cons v l ih =>
    rw [overlapOf_cons]
    refine Nat.dvd_add ?_ (ih (Tidy.around (l := []) (m := [v]) h))
    unfold overlap
    split
    · next hv =>
      have hgood := h.good v List.mem_cons_self
      have hs := hgood.start (.inl (hf _ _ hv))
      have he := hgood.stop (hf _ _ hv)
      refine Nat.dvd_sub ?_ ?_
      · rw [Nat.min_def]
        split <;> assumption
      · rw [Nat.max_def]
        split <;> assumption
    · exact Nat.dvd_zero _

theorem mapLen_dvd (length : Nat) : 4096 ∣ mapLen length := Nat.dvd_mul_left _ _

theorem mapLen_le (length : Nat) : mapLen length ≤ 0xFFFFF000 := by
  unfold mapLen u32
  omega

/-- The range of munmap and mprotect, once its checks are passed. -/
structure PageRange (addr stop : Nat) : Prop where
  lt : addr < stop
  top : stop ≤ userStackTop
  start : 4096 ∣ addr
  stop : 4096 ∣ stop

theorem pageRange_of_checks (haddr : addr % 4096 = 0)
    (hstop : ¬ (mapLen len = 0 ∨ u32 (addr + mapLen len) ≤ addr ∨
      u32 (addr + mapLen len) > userStackTop)) : PageRange addr (u32 (addr + mapLen len)) := by
  have hlen := mapLen_dvd len
  have haddr := Nat.dvd_of_mod_eq_zero haddr
  refine ⟨by omega, by omega, haddr, ?_⟩
  unfold u32
  have hsum := Nat.dvd_add haddr hlen
  generalize addr + mapLen len = n at hsum
  omega

/-- The sums over a range do not saturate and are whole pages. -/
theorem PageRange.sum {counts : VmArea → Bool}
    (hr : PageRange addr stop) (hf : ∀ flags kind, f flags kind = true → kind = .generic)
    (hc : ∀ v, counts v = f v.flags v.kind) (h : Tidy l) :
    overlapBytes counts addr stop l 0 = overlapOf f addr stop l ∧
      4096 ∣ overlapOf f addr stop l ∧ overlapOf f addr stop l ≤ 0xC0000000 := by
  have hle : overlapOf f addr stop l ≤ stop - max addr 0 :=
    overlapOf_le_range hf h fun v _ _ => Nat.zero_le _
  have htop := hr.top
  unfold userStackTop at htop
  refine ⟨?_, overlapOf_dvd hf hr.start hr.stop h, by omega⟩
  rw [overlapBytes_eq hc (by omega), Nat.zero_add]

/-! ## Mapping -/

theorem topdownScan_dvd {low : Nat} (hlen : 4096 ∣ len) {scanEnd : Nat}
    (hend : 4096 ∣ scanEnd) (h : topdownScan low len l scanEnd = some start) : 4096 ∣ start := by
  induction l generalizing scanEnd with
  | nil =>
    unfold topdownScan at h
    split at h
    · rw [← Option.some.inj h]
      exact Nat.dvd_sub hend hlen
    · cases h
  | cons v l ih =>
    unfold topdownScan at h
    split at h
    · exact ih hend h
    dsimp only at h
    generalize (if v.stop > low then vmPageAlignUp v.stop else low) = gapStart at h
    split at h
    · rw [← Option.some.inj h]
      exact Nat.dvd_sub hend hlen
    · exact ih (Nat.dvd_mul_left _ _) h

/-- The gap for a mapping begins at a page. -/
theorem vmaFindTopdownGap_dvd (ht : Tidy t.areas)
    (h : vmaFindTopdownGap t brk hint length = some start) : 4096 ∣ start := by
  unfold vmaFindTopdownGap at h
  split at h
  · cases h
  dsimp only at h
  split at h
  · cases h
  split at h
  · cases h
  next stack hstack =>
  have hkind : stack.kind = .stack := by simpa using List.find?_some hstack
  have hdvd := (ht.good stack (List.mem_of_find?_eq_some hstack)).start (.inr hkind)
  have hhigh : 4096 ∣ if stack.start > vmStackGuardGap then stack.start - vmStackGuardGap
      else stack.start := by
    split
    · exact Nat.dvd_sub hdvd (by decide)
    · exact hdvd
  generalize (if stack.start > vmStackGuardGap then stack.start - vmStackGuardGap
      else stack.start) = high at h hhigh
  split at h
  · cases h
  split at h
  · next hhint =>
    rw [← Option.some.inj h]
    exact Nat.dvd_of_mod_eq_zero hhint.2.1
  · exact topdownScan_dvd (vmPageAlignUp_dvd length) hhigh h

/-- A new mapping in a gap, or nothing. -/
theorem insertMapping_spec (k : Kmalloc)
    (ht : Tidy t.areas) (hgap : vmaFindTopdownGap t brk hint length = some start)
    (hstart : area.start = start) (hstop : area.stop = u32 (start + vmPageAlignUp length))
    (hkind : area.kind = .generic) :
    ((vmaInsertArea k t area).1 = 0 ∧ Inserted area t.areas (vmaInsertArea k t area).2.areas ∧
      area.stop = area.start + vmPageAlignUp length ∧ Good area) ∨
    ((vmaInsertArea k t area).1 ≠ 0 ∧ (vmaInsertArea k t area).2.areas = t.areas) := by
  have hdvd := vmaFindTopdownGap_dvd ht hgap
  have hlen := vmPageAlignUp_dvd length
  have hnot : area.kind ≠ .heap := by rw [hkind]; decide
  have hnowrap : area.start ≤ area.stop → area.stop = area.start + vmPageAlignUp length := by
    intro hle
    have hlt : vmPageAlignUp length < 4294967296 := by
      unfold vmPageAlignUp
      split <;> omega
    rw [hstart, hstop] at hle ⊢
    unfold u32 at *
    omega
  have hgood : area.start ≤ area.stop → Good area := by
    intro hle
    refine ⟨hle, fun _ => hstart ▸ hdvd, fun _ => ?_⟩
    rw [hnowrap hle, hstart]
    exact Nat.dvd_add hdvd hlen
  have hbefore : area.start ≤ area.stop → ∀ v ∈ t.areas, v.start ≤ area.start →
      vmaOverlaps v area.start area.stop = false → v.stop ≤ area.start := by
    intro hle v _ hv hno
    have hpos := vmaFindTopdownGap_length hgap
    exact stop_le_of_no_overlap (by omega) hv hno
  rcases vmaInsertArea_inserted k ht hgood (fun h => absurd h hnot) hbefore with h | h
  · exact .inl ⟨h.1, h.2.2, hnowrap h.2.1, hgood h.2.1⟩
  · exact .inr h

/-- What a mapping call has done to the table: a mapping with the flags is in it, or nothing
has changed. -/
def Mapped (length : Nat) (flags : VmaFlags) (t : VmTable) (r : Option Nat × VmTable) : Prop :=
  (∃ start area, r.1 = some start ∧ Inserted area t.areas r.2.areas ∧ area.start = start ∧
    area.stop = start + vmPageAlignUp length ∧ area.flags = flags ∧ area.kind = .generic ∧
    Good area ∧ area.stop < 4294967296) ∨
  (r.1 = none ∧ r.2.areas = t.areas)

theorem mapped_of_insert (k : Kmalloc)
    (ht : Tidy t.areas) (hgap : vmaFindTopdownGap t brk hint length = some start) (area : VmArea)
    (hstart : area.start = start) (hstop : area.stop = u32 (start + vmPageAlignUp length))
    (hkind : area.kind = .generic) :
    Mapped length area.flags t
      (if (vmaInsertArea k t area).1 ≠ 0 then (none, (vmaInsertArea k t area).2)
        else (some start, (vmaInsertArea k t area).2)) := by
  have hlt : area.stop < 4294967296 := hstop ▸ Nat.mod_lt _ (by decide)
  rcases insertMapping_spec k ht hgap hstart hstop hkind with ⟨hrc, hins, hsum, hgood⟩ | ⟨hrc, hsame⟩
  · rw [if_neg (by simpa using hrc)]
    exact .inl ⟨start, area, rfl, hins, hstart, hstart ▸ hsum, rfl, hkind, hgood, hlt⟩
  · rw [if_pos hrc]
    exact .inr ⟨rfl, hsame⟩

theorem vmaMapAnonymous_mapped (k : Kmalloc) (brk hint length : Nat)
    (flags : VmaFlags) (ht : Tidy t.areas) :
    Mapped length flags t (vmaMapAnonymous k t brk hint length flags) := by
  unfold vmaMapAnonymous
  split
  · exact .inr ⟨rfl, rfl⟩
  · next start hgap => exact mapped_of_insert k ht hgap _ rfl rfl rfl

theorem vmaMapFilePrivate_mapped (k : Kmalloc) (brk hint length : Nat)
    (flags : VmaFlags) (mountId inodeNum fileOffset fileSize : Nat) (ht : Tidy t.areas) :
    Mapped length flags t
      (vmaMapFilePrivate k t brk hint length flags mountId inodeNum fileOffset fileSize) := by
  unfold vmaMapFilePrivate
  split
  · exact .inr ⟨rfl, rfl⟩
  · next start hgap => exact mapped_of_insert k ht hgap _ rfl rfl rfl

/-! ## brk -/

/-- Moving the heap's end leaves the table tidy and the mappings as they are. -/
theorem setHeapEnd_spec (h : Tidy t.areas)
    (hfind : vmaFindKind t .heap = some heap) (hle : heap.start ≤ newBrk) :
    Tidy (setHeapEnd newBrk t.areas) ∧
      bytesOf requiresCommit (setHeapEnd newBrk t.areas) = bytesOf requiresCommit t.areas ∧
      heapStart (setHeapEnd newBrk t.areas) = heapStart t.areas := by
  obtain ⟨hk, before, after, hl, hb⟩ := List.find?_eq_some_iff_append.mp hfind
  have hk : heap.kind = .heap := by simpa using hk
  rw [hl] at h ⊢
  rw [setHeapEnd_split hk (by simpa using hb)]
  refine ⟨?_, ?_, ?_⟩
  · refine (h.around (m := [heap])).insert ⟨hle, ?_, ?_⟩ h.left fun b hb => ?_
    · simp [hk]
    · simp [hk]
    · exact ⟨(h.right b hb).1, .inl hk⟩
  · simp [countedSize, requiresCommit, committable, hk]
  · simp [heapStart, List.findSome?_append, hk]

/-- A growing heap is charged for its new pages. -/
theorem brkReserve_charge {s : Phys} {p : Proc}
    (hnew : newBrk ≤ userStackBase) (h : brkReserve s p heap newBrk = some p') :
    4096 * p'.committedPages =
      4096 * p.committedPages + (vmPageAlignUp newBrk - vmPageAlignUp p.brk) ∨
    newBrk ≤ p.brk ∧ p'.committedPages = p.committedPages := by
  unfold brkReserve at h
  split at h
  · next hgt =>
    left
    dsimp only at h
    split at h
    · cases h
    split at h
    · cases h
    split at h
    · have hdvd := Nat.dvd_sub (vmPageAlignUp_dvd newBrk) (vmPageAlignUp_dvd p.brk)
      have hup := (vmCommitReserve_charge h).2
      rw [vmPageAlignUp_of_dvd hdvd] at hup
      · exact hup
      · unfold userStackBase at hnew
        unfold vmPageAlignUp
        split <;> split <;> omega
    · rw [← Option.some.inj h]
      omega
  · next hle =>
    rw [← Option.some.inj h]
    exact .inr ⟨by omega, rfl⟩

/-! ## The calls -/

section Calls

variable {base : Nat} {s : Phys} {p : Proc} (h : Charged base p)

include h

theorem Charged.congr (hareas : q.vmas.areas = p.vmas.areas) (hbrk : q.brk = p.brk)
    (hpages : q.committedPages = p.committedPages) : Charged base q :=
  ⟨hareas ▸ h.tidy, hareas ▸ h.heap, hbrk ▸ h.low, hbrk ▸ h.high,
    by rw [hpages, hareas, hbrk]; exact h.charge⟩

/-- A reservation that is given back. -/
theorem Charged.givenBack (hareas : q.vmas.areas = p.vmas.areas) (hbrk : q.brk = p.brk)
    (hfits : bytes ≤ 0xFFFFFFFF - 4095)
    (hpages : 4096 * q.committedPages = 4096 * p.committedPages + vmPageAlignUp bytes) :
    Charged base (vmCommitRelease q bytes) ∧ Kept p (vmCommitRelease q bytes) := by
  have hback := vmCommitRelease_charge (p := q) hfits (by omega)
  have hkept : Kept p (vmCommitRelease q bytes) := ⟨by omega, by simpa using hareas⟩
  exact ⟨h.congr hkept.2 (by simpa using hbrk) hkept.1, hkept⟩

/-- A mapping that counts, with its pages charged. -/
theorem Charged.mapped
    (hins : Inserted area p.vmas.areas p'.vmas.areas) (hstart : area.start = start)
    (hstop : area.stop = start + vmPageAlignUp length) (hflags : area.flags = flags)
    (hkind : area.kind = .generic) (hbrk : p'.brk = p.brk)
    (hc : 4096 * p'.committedPages = 4096 * p.committedPages +
      if requiresCommit flags .generic then vmPageAlignUp length else 0) : Charged base p' := by
  refine ⟨hins.tidy, ?_, hbrk ▸ h.low, hbrk ▸ h.high, ?_⟩
  · rw [hins.heap, h.heap]
    rfl
  · have hsize : countedSize requiresCommit area =
        if requiresCommit flags .generic then vmPageAlignUp length else 0 := by
      unfold countedSize
      rw [hflags, hkind, hstart, hstop, Nat.add_sub_cancel_left]
    rw [hc, h.charge, hins.bytes, hsize, hbrk]
    omega

/-- `syscall_mmap_anonymous_private`: the mapping is charged, or nothing has changed. -/
theorem mmapAnonymous_charged (env : MmapEnv) (hint length prot : Nat) :
    Charged base (syscallMmapAnonymousPrivate env s p hint length prot).2 ∧
    ((∃ addr, (syscallMmapAnonymousPrivate env s p hint length prot).1 = some addr ∧ 4096 ∣ addr) ∨
      (syscallMmapAnonymousPrivate env s p hint length prot).1 = none ∧
        Kept p (syscallMmapAnonymousPrivate env s p hint length prot).2) := by
  unfold syscallMmapAnonymousPrivate
  dsimp only
  split
  · exact ⟨h, .inr ⟨rfl, rfl, rfl⟩⟩
  next p1 hp1 =>
  have hfits : (protToVmaFlags prot).write = true → length ≤ 0xFFFFFFFF - 4095 := by
    intro hw
    rw [if_pos hw] at hp1
    exact (vmCommitReserve_charge hp1).1
  have hfacts : p1.vmas = p.vmas ∧ p1.brk = p.brk ∧
      4096 * p1.committedPages = 4096 * p.committedPages +
        if (protToVmaFlags prot).write then vmPageAlignUp length else 0 := by
    split at hp1
    · next hw =>
      rw [if_pos hw]
      exact ⟨vmCommitReserve_vmas hp1, vmCommitReserve_brk hp1, (vmCommitReserve_charge hp1).2⟩
    · next hw =>
      cases hp1
      rw [if_neg hw]
      exact ⟨rfl, rfl, rfl⟩
  obtain ⟨hv, hbrk, hcharge⟩ := hfacts
  have htest : requiresCommit (protToVmaFlags prot) .generic = (protToVmaFlags prot).write := by
    simp [requiresCommit, committable, protToVmaFlags]
  have hmap := vmaMapAnonymous_mapped env.kmalloc p1.brk hint length (protToVmaFlags prot)
    (hv ▸ h.tidy : Tidy p1.vmas.areas)
  split
  · next addr vmas he =>
    rw [he] at hmap
    rcases hmap with ⟨start, area, haddr, hins, hstart, hstop, hflags, hkind, hgood, -⟩ | ⟨hnone, -⟩
    · have hdvd : 4096 ∣ addr := by
        rw [Option.some.inj haddr, ← hstart]
        exact hgood.start (.inl hkind)
      refine ⟨?_, .inl ⟨addr, rfl, hdvd⟩⟩
      rw [hv] at hins
      rw [← htest] at hcharge
      exact h.mapped hins hstart hstop hflags hkind hbrk hcharge
    · cases hnone
  · next vmas he =>
    rw [he] at hmap
    rcases hmap with ⟨start, _, hsome, _⟩ | ⟨-, hsame⟩
    · cases hsome
    -- the reservation is given back
    rw [hv] at hsame
    split
    next hw =>
      rw [if_pos hw] at hcharge
      obtain ⟨hc, hkept⟩ := h.givenBack (q := { p1 with vmas }) hsame hbrk (hfits hw) hcharge
      exact ⟨hc, .inr ⟨rfl, hkept⟩⟩
    next hw =>
      have hpages : p1.committedPages = p.committedPages := by
        rw [if_neg hw] at hcharge
        omega
      exact ⟨h.congr hsame hbrk hpages, .inr ⟨rfl, hpages, hsame⟩⟩

/-- Taking charged bytes out of the table and out of the charge, after `more` were charged. -/
theorem Charged.released {more : Nat} (ht : Tidy q.vmas.areas)
    (hheap : heapStart q.vmas.areas = heapStart p.vmas.areas) (hbrk : q.brk = p.brk)
    (hbytes : bytesOf requiresCommit q.vmas.areas + bytes =
      bytesOf requiresCommit p.vmas.areas + more)
    (hpages : 4096 * q.committedPages = 4096 * p.committedPages + more) (hdvd : 4096 ∣ bytes)
    (hle : bytes ≤ 0xC0000000) : Charged base (vmCommitRelease q bytes) := by
  have hup := vmPageAlignUp_of_dvd hdvd (by omega)
  have hc := h.charge
  have hrel : 4096 * (vmCommitRelease q bytes).committedPages + vmPageAlignUp bytes =
      4096 * q.committedPages := vmCommitRelease_charge (by omega) (by omega)
  refine ⟨by simpa using ht, by simpa using hheap.trans h.heap, by simpa [hbrk] using h.low,
    by simpa [hbrk] using h.high, ?_⟩
  simp only [vmCommitRelease_vmas, vmCommitRelease_brk, hbrk]
  omega

/-- `syscall_case_munmap`. -/
theorem munmap_charged (k : Kmalloc) (addr len : Nat) :
    Charged base (syscallCaseMunmap k s p addr len).2.2 ∧
    ((syscallCaseMunmap k s p addr len).1 ≠ 0 →
      Kept p (syscallCaseMunmap k s p addr len).2.2) := by
  unfold syscallCaseMunmap
  split
  · exact ⟨h, fun _ => ⟨rfl, rfl⟩⟩
  next hargs =>
  dsimp only
  split
  · exact ⟨h, fun _ => ⟨rfl, rfl⟩⟩
  next hstop =>
  have hr := pageRange_of_checks (by omega) hstop
  generalize u32 (addr + mapLen len) = stop at hr
  obtain ⟨hsum, hdvd, hle⟩ := hr.sum (f := requiresCommit) (fun _ _ => requiresCommit_generic)
    (fun v => show (vmaIsCommittable v && v.flags.write) = _ from rfl) h.tidy
  have hbytes : committedMunmapBytes p addr stop = overlapOf requiresCommit addr stop p.vmas.areas := by
    unfold committedMunmapBytes
    rw [if_neg (by have := hr.lt; omega), hsum]
  rcases (vmaUnmapRange_rebuilds k p.vmas addr stop).spec id h.tidy hr.start hr.stop with
    ⟨hrc, ht, hb, hheap⟩ | ⟨hrc, hsame⟩
  · rw [if_neg (by simpa using hrc), hbytes]
    exact ⟨h.released ht hheap rfl (hb requiresCommit) (Nat.add_zero _).symm hdvd hle, fun hc => absurd rfl hc⟩
  · rw [if_pos hrc]
    exact ⟨h.congr hsame rfl rfl, fun _ => ⟨rfl, hsame⟩⟩

/-- `syscall_case_mprotect`. -/
theorem mprotect_charged (k : Kmalloc) (addr len prot : Nat) :
    Charged base (syscallCaseMprotect k s p addr len prot).2.2 ∧
    ((syscallCaseMprotect k s p addr len prot).1 ≠ 0 →
      Kept p (syscallCaseMprotect k s p addr len prot).2.2) := by
  unfold syscallCaseMprotect
  split
  · exact ⟨h, fun _ => ⟨rfl, rfl⟩⟩
  next hargs =>
  dsimp only
  split
  · exact ⟨h, fun _ => ⟨rfl, rfl⟩⟩
  next hstop =>
  have hr := pageRange_of_checks (by omega) hstop
  generalize u32 (addr + mapLen len) = stop at hr
  generalize protToVmaFlags prot = new
  split
  · exact ⟨h, fun _ => ⟨rfl, rfl⟩⟩
  have hlt := hr.lt
  obtain ⟨hreserve, hrdvd, hrle⟩ := hr.sum (f := reserveTest new) (fun _ _ => committable_generic)
    (fun v => show (vmaIsCommittable v && (!v.flags.write && new.write)) = _ from rfl) h.tidy
  obtain ⟨hrelease, hldvd, hlle⟩ := hr.sum (f := releaseTest new) (fun _ _ => committable_generic)
    (fun v => show (vmaIsCommittable v && (v.flags.write && !new.write)) = _ from rfl) h.tidy
  have hres : mprotectTransitionBytes p addr stop new true =
      overlapOf (reserveTest new) addr stop p.vmas.areas := by
    unfold mprotectTransitionBytes
    rw [if_neg (by omega)]
    simpa using hreserve
  rw [vmCommitReserve_if, hres]
  split
  · exact ⟨h, fun _ => ⟨rfl, rfl⟩⟩
  next p1 hp1 =>
  have hv := vmCommitReserve_vmas hp1
  have hbrk := vmCommitReserve_brk hp1
  obtain ⟨-, hcharge⟩ := vmCommitReserve_charge hp1
  rw [vmPageAlignUp_of_dvd hrdvd (by omega)] at hcharge
  have hrel : mprotectTransitionBytes p1 addr stop new false =
      overlapOf (releaseTest new) addr stop p.vmas.areas := by
    unfold mprotectTransitionBytes
    rw [if_neg (by omega), hv]
    simpa using hrelease
  rw [vmCommitRelease_if, vmCommitRelease_if, hrel, hv]
  rcases (vmaProtectRange_rebuilds k p.vmas addr stop new).spec
      (fun ⟨_, hn⟩ => (protectRebuild_eq 0 [] new hn).1) h.tidy hr.start hr.stop with
    ⟨hrc, ht, hb, hheap⟩ | ⟨hrc, hsame⟩
  · rw [if_neg (by simpa using hrc)]
    have hbalance := overlapOf_balance new addr stop p.vmas.areas
    have hb := hb requiresCommit
    exact ⟨h.released ht hheap hbrk (by simp only [newOverlap] at hb ⊢; omega) hcharge hldvd hlle,
      fun hc => absurd rfl hc⟩
  · rw [if_pos hrc]
    rw [← vmPageAlignUp_of_dvd hrdvd (by omega)] at hcharge
    obtain ⟨hc, hkept⟩ := h.givenBack (q := { p1 with vmas := _ }) hsame hbrk
      (Nat.le_trans hrle (by decide)) hcharge
    exact ⟨hc, fun _ => hkept⟩

/-- `syscall_case_brk`. -/
theorem brk_charged (newBrk : Nat) : Charged base (syscallCaseBrk s p newBrk).2.2 ∧
    ((syscallCaseBrk s p newBrk).1 ≠ newBrk → Kept p (syscallCaseBrk s p newBrk).2.2) := by
  unfold syscallCaseBrk
  split
  · exact ⟨h, fun _ => ⟨rfl, rfl⟩⟩
  next heap hfind =>
  obtain rfl : heap.start = base := by
    have hheap := h.heap
    rw [heapStart_eq, hfind] at hheap
    exact Option.some.inj hheap
  split
  · exact ⟨h, fun _ => ⟨rfl, rfl⟩⟩
  split
  · exact ⟨h, fun _ => ⟨rfl, rfl⟩⟩
  next hrange =>
  split
  · exact ⟨h, fun _ => ⟨rfl, rfl⟩⟩
  next p1 hp1 =>
  refine ⟨?_, fun hc => absurd rfl hc⟩
  have hv := brkReserve_vmas hp1
  obtain ⟨ht, hbytes, hheap⟩ := setHeapEnd_spec h.tidy hfind (by omega : heap.start ≤ newBrk)
  have hlow := h.low
  have hcharge := h.charge
  -- the fields of the process before its break is set
  have hset : ∀ q : Proc, q.vmas = p.vmas →
      4096 * q.committedPages = bytesOf requiresCommit p.vmas.areas +
        (vmPageAlignUp newBrk - vmPageAlignUp heap.start) →
      Charged heap.start { q with
        brk := newBrk, vmas := { q.vmas with areas := setHeapEnd newBrk q.vmas.areas } } := by
    intro q hq hpages
    rw [hq]
    refine ⟨ht, hheap.trans h.heap, by simp only; omega, .inl (by simp only; omega), ?_⟩
    rw [hpages, hbytes]
  have hbase := vmPageAlignUp_mono (by omega : heap.start ≤ newBrk) (by omega)
  have hcases := brkReserve_charge (by omega) hp1
  dsimp only
  by_cases hshrink : newBrk < p.brk
  · -- the break was moved before, so it is below the stack
    have hhigh : p.brk ≤ userStackBase := h.high.resolve_right (by omega)
    have hmono := vmPageAlignUp_mono (Nat.le_of_lt hshrink) hhigh
    rw [alignUp_u32 (by omega : newBrk ≤ userStackBase), alignUp_u32 hhigh]
    split
    · next hgt =>
      have hdvd := Nat.dvd_sub (vmPageAlignUp_dvd p.brk) (vmPageAlignUp_dvd newBrk)
      have hle : vmPageAlignUp p.brk - vmPageAlignUp newBrk ≤ 0xC0000000 := by
        have := alignUp_le hhigh
        omega
      have hup := vmPageAlignUp_of_dvd hdvd (by omega)
      have hrel : 4096 * (vmCommitRelease p1 (vmPageAlignUp p.brk - vmPageAlignUp newBrk)).committedPages +
          vmPageAlignUp (vmPageAlignUp p.brk - vmPageAlignUp newBrk) = 4096 * p1.committedPages :=
        vmCommitRelease_charge (by omega) (by omega)
      exact hset _ (by rw [vmCommitRelease_vmas, hv]) (by omega)
    · next hle => exact hset _ hv (by omega)
  · rw [if_neg (fun hc => hshrink hc.1)]
    refine hset _ hv ?_
    rcases hcases with hc | ⟨hle, hc⟩
    · have hmono := vmPageAlignUp_mono (Nat.le_of_not_lt hshrink) (by omega)
      have hlow' := vmPageAlignUp_mono hlow (by omega)
      omega
    · have heq : p.brk = newBrk := by omega
      rw [heq] at hcharge
      omega

/-- A mapping that is not charged, or none. -/
theorem Charged.uncharged {vmas : VmTable} {addr : Option Nat}
    (hflags : flags.anon = false) (hm : Mapped length flags p.vmas (addr, vmas)) :
    Charged base { p with vmas } := by
  rcases hm with ⟨start, area, -, hins, hstart, hstop, hf, hkind, -⟩ | ⟨-, hsame⟩
  · exact h.mapped hins hstart hstop hf hkind rfl (by simp [requiresCommit, committable, hflags])
  · exact h.congr hsame rfl rfl

/-- The device mmaps; where they are taken back, only their own area is in the range. -/
theorem mmapDevice_charged (env : MmapEnv) {prot : Nat} (hdvd : 4096 ∣ len)
    (hlen : len ≤ 0xFFFFF000) (mapOne : Nat → Nat → Phys → Bool × Phys) :
    Charged base (mmapDevice env s p hint len prot mapOne).2.2 := by
  unfold mmapDevice
  dsimp only
  have hm := vmaMapAnonymous_mapped env.kmalloc p.brk hint len
    { protToVmaFlags prot with anon := false } h.tidy
  split
  · next vmas he =>
    rw [he] at hm
    exact h.uncharged rfl hm
  next addr vmas he =>
  rw [he] at hm
  split
  · exact h.uncharged rfl hm
  rcases hm with ⟨start, area, haddr, hins, hstart, hstop, hf, hkind, hgood, hlt⟩ | ⟨hnone, -⟩
  · obtain rfl : addr = start := Option.some.inj haddr
    dsimp only at hins
    rw [vmPageAlignUp_of_dvd hdvd hlen] at hstop
    have hend : u32 (addr + len) = area.stop := by
      rw [hstop]
      exact Nat.mod_eq_of_lt (hstop ▸ hlt)
    rw [hend, ← hstart]
    have huncounted : ∀ start stop, overlap requiresCommit start stop area = 0 ∧
        countedSize requiresCommit area = 0 := by
      intro start stop
      simp [overlap, countedSize, requiresCommit, committable, hf]
    have hzero : overlapOf requiresCommit area.start area.stop vmas.areas = 0 := by
      rw [hins.overlaps, overlapOf_eq_zero hins.apart, (huncounted _ _).1]
    have hbytes := hins.bytes requiresCommit
    rw [(huncounted 0 0).2] at hbytes
    have hheap : heapStart vmas.areas = heapStart p.vmas.areas := by
      rw [hins.heap, h.heap]
      rfl
    have hrest : ∀ t : VmTable, Tidy t.areas → heapStart t.areas = heapStart vmas.areas →
        bytesOf requiresCommit t.areas = bytesOf requiresCommit vmas.areas →
        Charged base { p with vmas := t } := by
      intro t ht hh hb
      refine ⟨ht, (hh.trans hheap).trans h.heap, h.low, h.high, ?_⟩
      have := h.charge
      dsimp only
      omega
    rcases (vmaUnmapRange_rebuilds env.kmallocUndo _ _ _).spec id hins.tidy
      (hgood.start (.inl hkind)) (hgood.stop hkind) with ⟨-, ht, hb, hh⟩ | ⟨-, hsame⟩
    · have hb := hb requiresCommit
      exact hrest _ ht hh (by dsimp only [newOverlap] at hb; omega)
    · exact hrest _ (hsame ▸ hins.tidy) (by rw [hsame]) (by rw [hsame])
  · cases hnone

/-- `syscall_case_mmap` and `syscall_case_mmap2`. -/
theorem mmapRequest_charged (env : MmapEnv) (addr length prot flags fd : Nat)
    (offset : Option Nat) :
    Charged base (mmapRequest env s p addr length prot flags fd offset).2.2 ∧
    (flags.testBit 5 = true →
      (mmapRequest env s p addr length prot flags fd offset).1 = errRet ∨
        (mmapRequest env s p addr length prot flags fd offset).1 = einvalRet →
      Kept p (mmapRequest env s p addr length prot flags fd offset).2.2) := by
  refine ⟨mmapRequest_rule h (fun _ _ _ => (mmapAnonymous_charged h env _ _ _).1)
    (fun _ _ _ _ => mmapDevice_charged h _ (mapLen_dvd _) (mapLen_le _) _)
    (fun _ _ _ _ _ _ _ hflags => h.uncharged hflags (vmaMapFilePrivate_mapped _ _ _ _ _ _ _ _ _ h.tidy))
    .., fun hanon => ?_⟩
  unfold mmapRequest
  rw [if_pos hanon]
  split
  · exact fun _ => ⟨rfl, rfl⟩
  split
  · exact fun _ => ⟨rfl, rfl⟩
  have hret := (mmapAnonymous_charged (s := s) h env addr length prot).2
  generalize syscallMmapAnonymousPrivate env s p addr length prot = out at hret ⊢
  rcases hret with ⟨start, hsome, hdvd⟩ | ⟨-, hkept⟩
  · -- an address is the start of a page, and no error
    intro (hfail : out.1.getD errRet = errRet ∨ out.1.getD errRet = einvalRet)
    rw [hsome, Option.getD_some, errRet, einvalRet] at hfail
    omega
  · exact fun _ => hkept

end Calls

/-! ## Runs -/

/-- Adding an area that is no mapping. -/
theorem vmaAdd_other (k : Kmalloc) (flags : VmaFlags) (hkind : kind ≠ .generic) (hstack : kind = .stack → 4096 ∣ start)
    (ht : Tidy t.areas) (hbytes : bytesOf requiresCommit t.areas = 0)
    (hone : kind = .heap → heapStart t.areas = none)
    (hbefore : ∀ v ∈ t.areas, v.start ≤ start → vmaOverlaps v start stop = false →
      v.stop ≤ start) (hrc : (vmaAdd k t start stop flags kind).1 = 0) :
    Tidy (vmaAdd k t start stop flags kind).2.areas ∧
      bytesOf requiresCommit (vmaAdd k t start stop flags kind).2.areas = 0 ∧
      heapStart (vmaAdd k t start stop flags kind).2.areas =
        (heapStart t.areas).or (if kind = .heap then some start else none) := by
  unfold vmaAdd at hrc ⊢
  have hgood : start ≤ stop → Good { start, stop, flags, kind } := fun hle =>
    ⟨hle, fun hk => hstack (hk.resolve_left hkind), fun hk => absurd hk hkind⟩
  rcases @vmaInsertArea_inserted k t { start, stop, flags, kind } ht hgood hone
    (fun _ => hbefore) with ⟨-, -, hins⟩ | ⟨hne, -⟩
  · refine ⟨hins.tidy, ?_, hins.heap⟩
    rw [hins.bytes, hbytes]
    simp [countedSize, requiresCommit, committable, hkind]
  · exact absurd hrc hne

/-- A fresh process has nothing charged, and no mapping. -/
theorem processCreateVmas_charged {pd imageStart imageEnd : Nat} {p : Proc}
    (h : processCreateVmas pd imageStart imageEnd = some p) : Charged imageEnd p := by
  unfold processCreateVmas at h
  dsimp only at h
  obtain ⟨t1, ht1⟩ : ∃ t1, (if imageStart < imageEnd
      then vmaAdd { grow := true, rebuild := true } { areas := [], capacity := 16, dynamic := false }
        imageStart imageEnd { read := true, write := true, exec := true, priv := true } .image
      else ((0 : Int), { areas := [], capacity := 16, dynamic := false })) = t1 := ⟨_, rfl⟩
  rw [ht1] at h
  split at h
  · cases h
  next hrc =>
  -- the table with the image in it
  have himage : Tidy t1.2.areas ∧ bytesOf requiresCommit t1.2.areas = 0 ∧
      heapStart t1.2.areas = none ∧ ∀ v ∈ t1.2.areas, v.stop = imageEnd := by
    rw [← ht1] at hrc ⊢
    split at hrc
    · next hlt =>
      rw [if_pos hlt]
      obtain ⟨h1, h2, h3⟩ := vmaAdd_other _ _ (by decide) (by simp) Tidy.nil rfl (by simp)
        (by simp) (not_ne_iff.mp hrc)
      exact ⟨h1, h2, h3, fun v hv => by rw [vmaInsertArea_nil rfl v hv]⟩
    · next hlt =>
      rw [if_neg hlt]
      exact ⟨Tidy.nil, rfl, rfl, by simp⟩
  obtain ⟨hi1, hi2, hi3, hi4⟩ := himage
  split at h
  · cases h
  next hrc2 =>
  obtain ⟨hh1, hh2, hh3⟩ := vmaAdd_other _ _ (by decide) (by simp) hi1 hi2 (fun _ => hi3)
    (fun v hv _ _ => Nat.le_of_eq (hi4 v hv)) (not_ne_iff.mp hrc2)
  split at h
  · cases h
  next hrc3 =>
  have hbelow : ∀ v : VmArea, v.start ≤ userStackBase →
      vmaOverlaps v userStackBase userStackTop = false → v.stop ≤ userStackBase := by
    intro v hv hno
    have hno := of_decide_eq_false hno
    unfold userStackBase userStackTop at *
    omega
  obtain ⟨hs1, hs2, hs3⟩ := vmaAdd_other _ _ (by decide) (by decide) hh1 hh2 (by simp)
    (fun v _ => hbelow v) (not_ne_iff.mp hrc3)
  rw [← Option.some.inj h]
  refine ⟨hs1, ?_, Nat.le_refl _, .inr rfl, ?_⟩
  · rw [hs3, hh3, hi3]
    rfl
  · dsimp only
    rw [hs2]
    omega

/-- Does the call fail: brk by not returning the break it was asked for. For mmap, only
anonymous mappings. -/
def MemFails (w : Phys × Proc) : MemOp → Prop
  | .brk newBrk => (syscallCaseBrk w.1 w.2 newBrk).1 ≠ newBrk
  | .mmap env args => (∀ a, args = some a → a.flags.testBit 5 = true) ∧
    ((syscallCaseMmap env w.1 w.2 args).1 = errRet ∨ (syscallCaseMmap env w.1 w.2 args).1 = einvalRet)
  | .mmap2 env addr length prot flags fd pgoff => flags.testBit 5 = true ∧
    ((syscallCaseMmap2 env w.1 w.2 addr length prot flags fd pgoff).1 = errRet ∨
      (syscallCaseMmap2 env w.1 w.2 addr length prot flags fd pgoff).1 = einvalRet)
  | .munmap k addr len => (syscallCaseMunmap k w.1 w.2 addr len).1 ≠ 0
  | .mprotect k addr len prot => (syscallCaseMprotect k w.1 w.2 addr len prot).1 ≠ 0
  | .other _ => False

theorem memStep_charged {base : Nat} (h : Charged base w.2) (op : MemOp) :
    Charged base (memStep w op).2 ∧ (MemFails w op → Kept w.2 (memStep w op).2) := by
  cases op with
  | brk newBrk => exact brk_charged h newBrk
  | mmap env args =>
    cases args with
    | none => exact ⟨h, fun _ => ⟨rfl, rfl⟩⟩
    | some a =>
      obtain ⟨hc, hkept⟩ := mmapRequest_charged h env _ _ _ _ _ _
      exact ⟨hc, fun hfail => hkept (hfail.1 a rfl) hfail.2⟩
  | mmap2 env addr length prot flags fd pgoff =>
    obtain ⟨hc, hkept⟩ := mmapRequest_charged h env _ _ _ _ _ _
    exact ⟨hc, fun hfail => hkept hfail.1 hfail.2⟩
  | munmap k addr len => exact munmap_charged h k addr len
  | mprotect k addr len prot => exact mprotect_charged h k addr len prot
  | other s => exact ⟨h, nofun⟩

/-- The charge of a process in every state it reaches, and what a call that fails leaves. -/
theorem commit_charge_run (pd imageStart imageEnd : Nat) (p₀ : Proc)
    (hp : processCreateVmas pd imageStart imageEnd = some p₀) (s₀ : Phys) (w : Phys × Proc)
    (hr : Reach memStep (fun _ _ => True) (s₀, p₀) w) :
    (∃ heap, vmaFindKind w.2.vmas .heap = some heap ∧
      w.2.committedPages = chargedPages w.2.vmas.areas +
        (vmPageAlignUp w.2.brk - vmPageAlignUp heap.start) / 4096) ∧
    ∀ op, MemFails w op →
      (memStep w op).2.committedPages = w.2.committedPages ∧
      (memStep w op).2.vmas.areas = w.2.vmas.areas := by
  have h : Charged imageEnd w.2 :=
    hr.inv (fun w => Charged imageEnd w.2) (processCreateVmas_charged hp)
      fun w op h _ => (memStep_charged h op).1
  refine ⟨?_, fun op => (memStep_charged h op).2⟩
  have hheap := h.heap
  rw [heapStart_eq] at hheap
  obtain ⟨heap, hfind, hstart⟩ := Option.map_eq_some_iff.mp hheap
  refine ⟨heap, hfind, ?_⟩
  have hcharge := h.charge
  rw [bytesOf_requiresCommit h.tidy] at hcharge
  rw [hstart]
  omega

/-- A writable page mapped, and the heap grown by a page. -/
def chargedRun : Phys × Proc :=
  [.mmap2 plainEnv 0 4096 3 0x22 0 0, .brk 0x804A000].foldl memStep
    (freePhys, freshProc 0x8048000 0x8049000)

theorem commit_charge_two_pages :
    chargedRun.2.committedPages = 2 ∧ ∃ heap, vmaFindKind chargedRun.2.vmas .heap = some heap ∧
      chargedRun.2.committedPages = chargedPages chargedRun.2.vmas.areas +
        (vmPageAlignUp chargedRun.2.brk - vmPageAlignUp heap.start) / 4096 := by
  refine ⟨by decide, (commit_charge_run 0x1000 0x8048000 0x8049000 (freshProc 0x8048000 0x8049000)
    rfl freePhys chargedRun ?_).1⟩
  exact Reach.step (MemOp.brk 0x804A000)
    (Reach.step (MemOp.mmap2 plainEnv 0 4096 3 0x22 0 0) Reach.start trivial) trivial

end Drunix.Mm
