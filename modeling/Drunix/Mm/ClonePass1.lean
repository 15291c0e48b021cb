import Drunix.Mm.PagingOps

/-!
# `paging_clone_user_space`, pass 1

Fork's copy of an address space starts by allocating a page table for every
parent table with a user PTE, and rolls back when the frame allocator runs dry.
`clonePass1_spec` says what either outcome leaves behind.

Everything here is under the hypothesis `hshare`: each parent table behind a
`PG_USER` PDE has a present user PTE. Where it fails, pass 1 lets the child point
at the parent's own table.
-/

namespace Drunix.Mm

open Lib Function

section Clone

variable {K live : Finset Nat} {X Y : Nat → Nat} {s : Phys}

/-! ## Pass 1 and its roll-back -/

/-- The roll-back frees the child's own page tables, whatever the order. -/
theorem PagingInv.rollback (src new : Nat) (l : List Nat) (hl : l.Nodup) {s : Phys}
    (h : PagingInv K live (fun f => Y f + count l.toFinset fun i => tableAt s f (new, i)) s)
    (hown : ∀ i ∈ l, (s.mem new i).userPresent = true → (s.mem new i).addr % pageSize = 0 ∧
      (s.mem new i).addr ≠ (s.mem src i).addr)
    (hkern : ∀ i ∈ l, (s.mem new i).userPresent = false → (s.mem new i).present = true →
      (s.mem new i).addr = (s.mem src i).addr) :
    PagingInv K live Y (l.foldl (cloneRollback src new) s) ∧
      (l.foldl (cloneRollback src new) s).mem = s.mem := by
  induction l generalizing s with
  | nil => exact ⟨h.mono fun f => by simp, rfl⟩
  | cons i l ih =>
    obtain ⟨hi, hl⟩ := List.nodup_cons.mp hl
    rw [List.foldl_cons]
    have hcount : ∀ f, count (i :: l).toFinset (fun k => tableAt s f (new, k))
        = count l.toFinset (fun k => tableAt s f (new, k))
          + if tableAt s f (new, i) then 1 else 0 := by
      intro f
      rw [List.toFinset_cons, count_insert (by simpa using hi)]
    -- one round keeps memory, and the invariant without index `i`
    have hround : PagingInv K live
          (fun f => Y f + count l.toFinset fun k => tableAt s f (new, k)) (cloneRollback src new s i) ∧
        (cloneRollback src new s i).mem = s.mem := by
      have hweak : PagingInv K live
          (fun f => Y f + count l.toFinset fun k => tableAt s f (new, k)) s :=
        h.mono fun f => by simp only [hcount f]; omega
      unfold cloneRollback
      cases hu : (s.mem new i).userPresent with
      | true =>
        obtain ⟨hal, hne⟩ := hown i (by simp) hu
        have hpres := (Bool.and_eq_true_iff.mp hu).1
        rw [if_neg (by simp [hpres]), if_pos hne]
        refine ⟨h.decref hal fun f => ?_, rfl⟩
        have ht : tableAt s f (new, i) = decide (f = (s.mem new i).addr) := by
          simp [tableAt, hu, eq_comm]
        simp only [hcount f, ht, bump, decide_eq_true_eq]
        omega
      | false =>
        split
        · exact ⟨hweak, rfl⟩
        next hp =>
          rw [if_neg (by simpa using hkern i (by simp) hu (by simpa using hp))]
          exact ⟨hweak, rfl⟩
    obtain ⟨hinv, hmem⟩ := hround
    have htab : ∀ f k, tableAt (cloneRollback src new s i) f (new, k) = tableAt s f (new, k) := by
      intro f k; unfold tableAt; rw [hmem]
    obtain ⟨h1, h2⟩ := ih hl (s := cloneRollback src new s i) (by simpa only [htab] using hinv)
      (fun k hk => by rw [hmem]; exact hown k (by simp [hk]))
      (fun k hk => by rw [hmem]; exact hkern k (by simp [hk]))
    exact ⟨h1, by rw [h2, hmem]⟩

/-- The state of pass 1 before index `k`, started from `s₀`. -/
structure Pass1 (K live : Finset Nat) (X : Nat → Nat) (s₀ : Phys) (src new k : Nat) (s : Phys) :
    Prop where
  inv : PagingInv K live
    (fun f => X f + (if f = new then 1 else 0) + count idx fun i => tableAt s f (new, i)) s
  mem : ∀ a, a ≠ new → s.mem a = s₀.mem a
  page : IsPage s new
  rc : rcOf s new = 1
  user : ∀ i < k, (s₀.mem src i).userPresent = true →
    s.mem new i = { s₀.mem src i with addr := (s.mem new i).addr } ∧
      IsPage s (s.mem new i).addr ∧ rcOf s (s.mem new i).addr = 1
  kern : ∀ i < k, (s₀.mem src i).userPresent = false →
    s.mem new i = {} ∨ s.mem new i = s₀.mem src i
  rest : ∀ i, k ≤ i → s.mem new i = {}

variable {s₀ : Phys} {src new k : Nat}

section

variable (h : Pass1 K live X s₀ src new k s)

include h

/-- The child's directory page is nobody's yet. -/
theorem Pass1.new_unused : uses K live s new = 0 :=
  (h.inv.held_sole h.page.1 h.rc (by simp only [if_true]; omega)).1

theorem Pass1.src_ne (hsrc : src ∈ live) : src ≠ new :=
  fun he => (uses_zero h.new_unused).1 (he ▸ hsrc)

section

variable {i : Nat} (hi : i < k) (hk : k ≤ 1024) (hu : (s₀.mem src i).userPresent = true)

include hi hk hu

/-- The child's directory has the page tables allocated so far. -/
theorem Pass1.table_held : 0 < count idx fun l => tableAt s (s.mem new i).addr (new, l) := by
  have hnu : (s.mem new i).userPresent = true := by
    rw [(h.user i hi hu).1]
    exact hu
  exact count_pos (x := i) (by simp [idx]; omega) (by simp [tableAt, hnu])

/-- Nobody else has them yet. -/
theorem Pass1.table_unused : uses K live s (s.mem new i).addr = 0 := by
  obtain ⟨-, hpage, hrc⟩ := h.user i hi hu
  have hpos := h.table_held hi hk hu
  exact (h.inv.held_sole hpage.1 hrc (by omega)).1

end

/-- Leaving an index with an entry that is not a user table. -/
theorem Pass1.skip (hu : (s₀.mem src k).userPresent = false) :
    Pass1 K live X s₀ src new (k + 1) s where
  inv := h.inv
  mem := h.mem
  page := h.page
  rc := h.rc
  user i hi hui := by
    rcases Nat.lt_succ_iff_lt_or_eq.mp hi with hi | rfl
    · exact h.user i hi hui
    · rw [hu] at hui; cases hui
  kern i hi hui := by
    rcases Nat.lt_succ_iff_lt_or_eq.mp hi with hi | rfl
    · exact h.kern i hi hui
    · exact .inl (h.rest i (Nat.le_refl i))
  rest i hi := h.rest i (by omega)

/-- Storing the PDE of index `k` keeps all but the entry at `k`. -/
theorem Pass1.store {e : Entry}
    (hinv : PagingInv K live (fun f => X f + (if f = new then 1 else 0) +
      count idx fun i => tableAt (s.setEntry new k e) f (new, i)) (s.setEntry new k e))
    (huser : (s₀.mem src k).userPresent = true → e = { s₀.mem src k with addr := e.addr } ∧
      IsPage s e.addr ∧ rcOf s e.addr = 1)
    (hkern : (s₀.mem src k).userPresent = false → e = s₀.mem src k) :
    Pass1 K live X s₀ src new (k + 1) (s.setEntry new k e) := by
  have hat : (s.setEntry new k e).mem new k = e := by
    rw [Phys.setEntry_mem, if_pos ⟨rfl, rfl⟩]
  have hoff : ∀ i, i ≠ k → (s.setEntry new k e).mem new i = s.mem new i := by
    intro i hi
    rw [Phys.setEntry_mem, if_neg (fun hc => hi hc.2)]
  refine
    { inv := hinv, mem := ?_, page := h.page, rc := h.rc, user := ?_, kern := ?_, rest := ?_ }
  · intro a ha
    rw [Phys.setEntry_mem_page e ha]
    exact h.mem a ha
  · intro i hi hui
    rcases Nat.lt_succ_iff_lt_or_eq.mp hi with hi | rfl
    · rw [hoff i (by omega)]
      exact h.user i hi hui
    · rw [hat]
      exact huser hui
  · intro i hi hui
    rcases Nat.lt_succ_iff_lt_or_eq.mp hi with hi | rfl
    · rw [hoff i (by omega)]
      exact h.kern i hi hui
    · rw [hat]
      exact .inr (hkern hui)
  · intro i hi
    rw [hoff i (by omega)]
    exact h.rest i (by omega)

/-- The child's tables after storing the PDE of index `k`, which was empty. -/
theorem Pass1.count_store (hk : k < 1024) (e : Entry) (f : Nat) :
    (count idx fun i => tableAt (s.setEntry new k e) f (new, i))
      = (count idx fun i => tableAt s f (new, i)) + if e.userPresent && decide (e.addr = f) then 1 else 0 := by
  have hcount := count_update (S := idx) (p := fun i => tableAt s f (new, i))
    (q := fun i => tableAt (s.setEntry new k e) f (new, i)) (x := k) (by simp [idx, hk])
    (by
      intro i _ hne
      unfold tableAt
      simp only [Phys.setEntry_mem, hne, and_false, if_false])
  have hold : tableAt s f (new, k) = false := by
    unfold tableAt
    simp only [h.rest k (Nat.le_refl k)]
    rfl
  have hnew : tableAt (s.setEntry new k e) f (new, k) = (e.userPresent && decide (e.addr = f)) := by
    unfold tableAt
    simp only [Phys.setEntry_mem, and_self, if_true]
  rw [hold, hnew] at hcount
  simpa using hcount

/-- Sharing a kernel PDE. -/
theorem Pass1.share (hk : k < 1024) (hu : (s₀.mem src k).userPresent = false) :
    Pass1 K live X s₀ src new (k + 1) (s.setEntry new k (s₀.mem src k)) := by
  refine h.store ?_ (fun hc => absurd hc (by simp [hu])) (fun _ => rfl)
  have hset := (h.inv.setUnused h.new_unused (update (s.mem new) k (s₀.mem src k))).1
  have hc : ∀ f, (count idx fun i => tableAt (s.setEntry new k (s₀.mem src k)) f (new, i))
      = count idx fun i => tableAt s f (new, i) := by
    intro f
    rw [h.count_store hk, hu]
    simp
  simp only [hc]
  exact hset

/-- Pointing a PDE of the child at a freshly allocated table. -/
theorem Pass1.table (hk : k < 1024)
    (hu : (s₀.mem src k).userPresent = true) {t : Nat} {s1 : Phys} (halloc : pmmAllocPage s = (t, s1))
    (ht : t ≠ 0) :
    Pass1 K live X s₀ src new (k + 1)
      (s1.setEntry new k { s₀.mem src k with addr := pageDown t }) := by
  rcases h.inv.alloc with ha | ⟨t', s1', ha, -, htp, huses, hXt, hrc, hmem, -, hinv, hrcs, hmax⟩
  · rw [halloc] at ha
    exact absurd (congrArg Prod.fst ha) ht
  · rw [halloc] at ha
    cases ha
    have htn : new ≠ t := by
      rintro rfl
      simp only [if_true] at hXt
      omega
    have hold : ∀ i < k, (s₀.mem src i).userPresent = true → (s.mem new i).addr ≠ t := by
      rintro i hi hui rfl
      have hpos := h.table_held hi (by omega) hui
      omega
    have hkeep : ∀ f, IsPage s f → f ≠ t → IsPage s1 f ∧ rcOf s1 f = rcOf s f :=
      fun f hf hne => ⟨⟨hf.1, by rw [hmax]; exact hf.2⟩, hrcs f hf.1 hne⟩
    -- the same pass, with the fresh frame in hand
    have hnext : Pass1 K live (bump X t) s₀ src new k s1 := by
      have htab : ∀ f i, tableAt s1 f (new, i) = tableAt s f (new, i) := by
        intro f i; unfold tableAt; rw [hmem]
      refine
        { inv := ?_, mem := ?_, page := (hkeep new h.page htn).1, rc := ?_, user := ?_, kern := ?_,
          rest := ?_ }
      · refine hinv.mono fun f => ?_
        simp only [htab, bump]
        omega
      · intro a ha'; rw [hmem]; exact h.mem a ha'
      · rw [(hkeep new h.page htn).2]; exact h.rc
      · intro i hi hui
        obtain ⟨he, hp, hr⟩ := h.user i hi hui
        obtain ⟨hp', hr'⟩ := hkeep _ hp (hold i hi hui)
        rw [hmem]
        exact ⟨he, hp', by rw [hr', hr]⟩
      · rw [hmem]; exact h.kern
      · rw [hmem]; exact h.rest
    have hdown : pageDown t = t := pageDown_of_aligned htp.1
    have hup : ({ s₀.mem src k with addr := pageDown t } : Entry).userPresent = true := hu
    have hset := (hnext.inv.setUnused hnext.new_unused
      (update (s1.mem new) k { s₀.mem src k with addr := pageDown t })).1
    refine Pass1.store ?_ ?_ ?_ ?_
    · exact { hnext with inv := hnext.inv.mono fun f => by simp only [bump]; omega }
    · refine PagingInv.mono hset fun f => ?_
      rw [hnext.count_store hk, hup, hdown]
      simp only [bump, Bool.true_and, decide_eq_true_eq, eq_comm (a := t)]
      omega
    · intro _
      refine ⟨rfl, ?_, ?_⟩
      · rw [hdown]; exact htp
      · rw [hdown]; exact hrc
    · intro hc
      rw [hu] at hc
      cases hc

/-- The roll-back of pass 1 gives every frame back. -/
theorem Pass1.fail (hk : k < 1024) (hsrc : src ∈ live) :
    PagingInv K live X (pmmFreePage ((List.range k).foldl (cloneRollback src new) s) new) ∧
      ∀ a, a ≠ new → (pmmFreePage ((List.range k).foldl (cloneRollback src new) s) new).mem a
        = s₀.mem a := by
  have hsn : s.mem src = s₀.mem src := h.mem src (h.src_ne hsrc)
  have huser : ∀ i < k, (s.mem new i).userPresent = true → (s₀.mem src i).userPresent = true := by
    intro i hi hnu
    by_contra hc
    rcases h.kern i hi (by simpa using hc) with he | he
    · rw [he] at hnu; cases hnu
    · rw [he] at hnu; exact hc hnu
  have hsub : (List.range k).toFinset ⊆ idx := by
    intro i hi
    simp only [List.mem_toFinset, List.mem_range] at hi
    simp only [idx, Finset.mem_range]
    omega
  have hcount : ∀ f, (count (List.range k).toFinset fun i => tableAt s f (new, i))
      = count idx fun i => tableAt s f (new, i) := by
    intro f
    refine count_subset hsub fun i _ hi => ?_
    simp only [List.mem_toFinset, List.mem_range, Nat.not_lt] at hi
    simp only [tableAt, h.rest i hi]
    rfl
  obtain ⟨hinv, hmem⟩ := PagingInv.rollback (s := s)
    src new (List.range k) List.nodup_range
    (by simp only [hcount]; exact h.inv)
    (by
      intro i hi hnu
      have hik := List.mem_range.mp hi
      have hu := huser i hik hnu
      refine ⟨(h.user i hik hu).2.1.1, fun he => ?_⟩
      have hsu : (s.mem src i).userPresent = true := by rw [hsn]; exact hu
      exact uses_pos_of_table hsrc (by omega) hsu (he ▸ h.table_unused hik (by omega) hu))
    (by
      intro i hi hnu hpres
      have hik := List.mem_range.mp hi
      have hu : (s₀.mem src i).userPresent = false := by
        by_contra hc
        obtain ⟨he, -, -⟩ := h.user i hik (by simpa using hc)
        rw [he] at hnu
        exact hc hnu
      rcases h.kern i hik hu with he | he
      · rw [he] at hpres; cases hpres
      · rw [he, hsn])
  refine ⟨hinv.release h.page.1, fun a ha => ?_⟩
  rw [pmmFreePage_mem, hmem]
  exact h.mem a ha

end

theorem hasUserPte_eq_true {s : Phys} {t : Nat} :
    hasUserPte s t = true ↔ ∃ j < 1024, (s.mem t j).userPresent = true := by
  unfold hasUserPte
  simp only [List.any_eq_true, List.mem_range]

/-- Pass 1 from index `k` on: every table allocated, or everything given back. -/
theorem clonePass1_spec (hsrc : src ∈ live)
    (hshare : ∀ i < 1024, (s₀.mem src i).userPresent = true →
      hasUserPte s₀ (s₀.mem src i).addr = true) (m : Nat) {k : Nat} {s : Phys} (hkm : k + m = 1024)
    (h : Pass1 K live X s₀ src new k s) :
    ((clonePass1 src new (List.range' k m) s).1 = true ∧
      Pass1 K live X s₀ src new 1024 (clonePass1 src new (List.range' k m) s).2) ∨
    ((clonePass1 src new (List.range' k m) s).1 = false ∧
      PagingInv K live X (clonePass1 src new (List.range' k m) s).2 ∧
      ∀ a, a ≠ new → (clonePass1 src new (List.range' k m) s).2.mem a = s₀.mem a) := by
  induction m generalizing k s with
  | zero =>
    obtain rfl : k = 1024 := by omega
    exact .inl ⟨rfl, h⟩
  | succ m ih =>
    have hk : k < 1024 := by omega
    have hsn : s.mem src = s₀.mem src := h.mem src (h.src_ne hsrc)
    have hpde : s.mem src k = s₀.mem src k := by rw [hsn]
    rw [List.range'_succ]
    unfold clonePass1
    dsimp only
    rw [hpde]
    cases hu : (s₀.mem src k).userPresent with
    | false =>
      split
      · exact ih (by omega) (h.skip hu)
      next hp =>
      split
      · exact ih (by omega) (h.skip hu)
      -- a kernel table has no user PTE, so it is shared
      have hkern : hasUserPte s (s₀.mem src k).addr = false := by
        by_contra hc
        have hpres : (s.mem src k).present = true := by rw [hpde]; simpa using hp
        have hnu : (s.mem src k).user = false := by
          rw [hpde] at hpres ⊢
          simpa [Entry.userPresent, hpres] using hu
        have hK := h.inv.kernPde src hsrc k hk hpres hnu
        rw [hpde] at hK
        obtain ⟨j, hj, hju⟩ := hasUserPte_eq_true.mp (by simpa using hc)
        rw [h.inv.kern _ hK j hj] at hju
        cases hju
      rw [if_pos (by simp [hkern])]
      exact ih (by omega) (h.share hk hu)
    | true =>
      have hsu : (s.mem src k).userPresent = true := by rw [hpde]; exact hu
      have hpres := (Bool.and_eq_true_iff.mp hu).1
      have hpage := (h.inv.userPde src hsrc k hk hsu).1
      rw [hpde] at hpage
      have hne : (s₀.mem src k).addr ≠ new := by
        intro he
        have := uses_pos_of_table (K := K) hsrc hk hsu
        rw [hpde, he] at this
        exact this h.new_unused
      have hhas : hasUserPte s (s₀.mem src k).addr = true := by
        have := hshare k hk hu
        unfold hasUserPte at this ⊢
        rw [h.mem _ hne]
        exact this
      rw [if_neg (by simp [hpres]), if_neg (by simp [h.inv.live_physPtr hpage]),
        if_neg (by simp [hhas])]
      rcases h.inv.alloc with ha | ⟨t, s1, ha, ht, htp, -, -, -, -, -, hinv, -⟩
      · rw [ha]
        exact .inr ⟨rfl, h.fail hk hsrc⟩
      · rw [ha]
        rw [if_neg ht, if_neg (by simp [hinv.live_physPtr htp])]
        exact ih (by omega) (h.table hk hu ha ht)

end Clone

end Drunix.Mm
