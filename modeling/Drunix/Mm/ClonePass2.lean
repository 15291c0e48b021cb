import Drunix.Mm.ClonePass1

/-!
# `paging_clone_user_space`, pass 2

Pass 2 copies the PTEs, marks private writable pages copy-on-write on both sides
and takes a reference on every frame. Both sides then hold `cloneEntry` of what
the parent had. `PagingInv.clone` is the spec of the whole function: it puts the
child into use with exactly the references the two passes collected.
-/

namespace Drunix.Mm

open Lib

variable {i j : Nat} {s' : Phys}

section Clone

variable {K live : Finset Nat} {X Y : Nat → Nat} {s s0 : Phys} {src new k : Nat}

/-! ## Pass 2: the PTEs of one table -/

/-- What both sides of a fork hold where the parent had `e`. -/
def cloneEntry (e : Entry) : Entry :=
  if e.userPresent && !e.io && !e.shared && e.writable then { e with writable := false, cow := true }
  else e

theorem cloneEntry_userPresent (e : Entry) : (cloneEntry e).userPresent = e.userPresent := by
  unfold cloneEntry; split <;> rfl

theorem cloneEntry_holds (e : Entry) (f : Nat) : (cloneEntry e).holds f = e.holds f := by
  unfold cloneEntry; split <;> rfl

theorem cloneEntry_view (e : Entry) : (cloneEntry e).view = e.view.map cloneEntry := by
  unfold Entry.view
  rw [cloneEntry_userPresent]
  cases e.userPresent <;> rfl

/-- One PTE: the same entry on both sides, and a reference for the child's. -/
theorem clonePte_eq {s : Phys} {srcPt newPt : Nat} (h : s.mem newPt j = s.mem srcPt j) :
    clonePte srcPt newPt s j =
      { (s.setEntry srcPt j (cloneEntry (s.mem srcPt j))).setEntry newPt j (cloneEntry (s.mem srcPt j))
        with pmm := if (s.mem srcPt j).userPresent && !(s.mem srcPt j).io
          then pmmCoreIncref s.pmm (s.mem srcPt j).addr else s.pmm } := by
  have hself : (s.setEntry srcPt j (s.mem srcPt j)).setEntry newPt j (s.mem srcPt j) = s := by
    rw [Phys.setEntry_self, ← h, Phys.setEntry_self]
  have hself' : s.setEntry newPt j (s.mem srcPt j) = s := by rw [← h, Phys.setEntry_self]
  unfold clonePte cloneEntry
  dsimp only
  cases hu : (s.mem srcPt j).userPresent with
  | false => simp [hself]
  | true =>
    cases hio : (s.mem srcPt j).io with
    | true => simp [hself, hself']
    | false =>
      cases hsh : (s.mem srcPt j).shared with
      | true => simp [hself, hself', pmmIncref]
      | false =>
        cases hw : (s.mem srcPt j).writable with
        | false => simp [hself, hself', pmmIncref]
        | true => simp [pmmIncref]

/-- Copy-on-write marks do not change who uses a frame. -/
theorem uses_cloned (hpd : ∀ q ∈ live, s'.mem q = s.mem q) (hpt : ∀ a, uses K live s a ≠ 0 → ∀ j,
      s'.mem a j = s.mem a j ∨ s'.mem a j = cloneEntry (s.mem a j)) (f : Nat) :
    uses K live s' f = uses K live s f := by
  refine uses_congr (fun q hq k _ => by rw [hpd q hq]) ?_ f
  intro q hq k hk hu j _ g
  rcases hpt _ (uses_pos_of_table hq hk hu) j with he | he
  · rw [he]
  · rw [he, cloneEntry_holds]

/-- The invariant across one PTE. -/
theorem PagingInv.clonePte_spec (h : PagingInv K live X s) {p t : Nat} (hp : p ∈ live)
    (hi : i < 1024) (hj : j < 1024) (hu : (s.mem p i).userPresent = true)
    (ht : uses K live s t = 0) (hcopy : s.mem t j = s.mem (s.mem p i).addr j) :
    PagingInv K live (fun f => X f + if (s.mem (s.mem p i).addr j).holds f then 1 else 0)
        (clonePte (s.mem p i).addr t s j) ∧
      (∀ a b, (clonePte (s.mem p i).addr t s j).mem a b =
        if (a = (s.mem p i).addr ∨ a = t) ∧ b = j then cloneEntry (s.mem (s.mem p i).addr j)
        else s.mem a b) ∧
      (clonePte (s.mem p i).addr t s j).pmm.maxPages = s.pmm.maxPages ∧
      ∀ g, g % pageSize = 0 → (s.mem (s.mem p i).addr j).holds g = false →
        rcOf (clonePte (s.mem p i).addr t s j) g = rcOf s g := by
  rw [clonePte_eq hcopy]
  obtain ⟨e, he⟩ : ∃ e, s.mem (s.mem p i).addr j = e := ⟨_, rfl⟩
  rw [he]
  have hslot : (p, i, j) ∈ slots live := mem_slots.mpr ⟨hp, hi, hj⟩
  have hmaps : ∀ f, mapsAt s f (p, i, j) = e.holds f := by
    intro f; simp [mapsAt, hu, he]
  -- the two stores, before the reference is taken
  have hstore : PagingInv K live X (s.setEntry (s.mem p i).addr j (cloneEntry e)) :=
    h.storeSame hp hi hj hu fun f => by rw [cloneEntry_holds, he]
  have huses : uses K live (s.setEntry (s.mem p i).addr j (cloneEntry e)) t = 0 := by
    rw [← ht]
    refine uses_cloned (fun q hq => ?_) (fun a _ k => ?_) t
    · exact Phys.setEntry_mem_page _ fun hc => (h.table_sole hp hi hu).1 (hc ▸ hq)
    · rw [Phys.setEntry_mem]
      split
      next hc => exact .inr (by rw [hc.1, hc.2, he])
      · exact .inl rfl
  obtain ⟨htwo, hview⟩ := hstore.setUnused huses (Function.update
    ((s.setEntry (s.mem p i).addr j (cloneEntry e)).mem t) j (cloneEntry e))
  refine ⟨?_, ?_, ?_, ?_⟩
  · cases hheld : e.userPresent && !e.io with
    | false =>
      have hnone : ∀ f, e.holds f = false := by
        intro f
        simp only [Entry.holds, ← Bool.and_assoc, hheld, Bool.false_and]
      simp only [hnone, Bool.false_eq_true, if_false, Nat.add_zero]
      exact htwo
    | true =>
      simp only [Bool.and_eq_true, Bool.not_eq_true'] at hheld
      have hholds : ∀ f, e.holds f = decide (f = e.addr) := by
        intro f
        simp [Entry.holds, hheld.1, hheld.2, eq_comm]
      refine PagingInv.mono (htwo.incref_mapped hslot ?_) fun f => ?_
      · rw [mapsAt_eq (hview _ hslot), h.mapsAt_store hp hi hu _ _ hslot, if_pos rfl,
          cloneEntry_holds, hholds, decide_eq_true rfl]
      · simp only [hholds, bump, decide_eq_true_eq]
        exact Nat.le_refl _
  · intro a b
    rw [Phys.setEntry_mem, Phys.setEntry_mem]
    by_cases hb : b = j
    · by_cases hat : a = t <;> by_cases has : a = (s.mem p i).addr <;> simp [hb, hat, has]
    · simp [hb]
  · dsimp only
    split
    · rw [pmmCoreIncref_maxPages]
    · rfl
  · intro g hg hnot
    split
    next hheld =>
      simp only [Bool.and_eq_true, Bool.not_eq_true'] at hheld
      have hge : g ≠ e.addr := by
        rintro rfl
        simp [Entry.holds, hheld.1, hheld.2] at hnot
      have hal : e.addr % pageSize = 0 := (h.frame _ _ hslot (by
        rw [hmaps]; simp [Entry.holds, hheld.1, hheld.2])).1
      exact rcOf_incref hal hg hge
    · rfl

/-- The inner loop of pass 2 before index `k`: what the table `pt` had is on both sides. -/
structure TableCloned (K live : Finset Nat) (X : Nat → Nat) (s : Phys) (pt t k : Nat) (s' : Phys) :
    Prop where
  inv : PagingInv K live (fun f => X f + count (Finset.range k) fun j => (s.mem pt j).holds f) s'
  off : ∀ a, a ≠ pt → a ≠ t → s'.mem a = s.mem a
  rows : ∀ a, a = pt ∨ a = t → ∀ j,
    s'.mem a j = if j < k then cloneEntry (s.mem pt j) else s.mem pt j
  maxPages : s'.pmm.maxPages = s.pmm.maxPages
  rcs : ∀ g, g % pageSize = 0 → (∀ j < 1024, (s.mem pt j).holds g = false) → rcOf s' g = rcOf s g

/-- The inner loop of pass 2: the whole table on both sides. -/
theorem PagingInv.clonePtes (h : PagingInv K live X s) {p t : Nat} (hp : p ∈ live)
    (hi : i < 1024) (hu : (s.mem p i).userPresent = true) (ht : uses K live s t = 0) :
    TableCloned K live X s (s.mem p i).addr t 1024
      ((List.range 1024).foldl (clonePte (s.mem p i).addr t)
        (s.setTable t (s.mem (s.mem p i).addr))) := by
  have hnl := (h.table_sole hp hi hu).1
  have hne : (s.mem p i).addr ≠ t := fun he => uses_pos_of_table hp hi hu (he ▸ ht)
  refine foldl_range_inv (fun k s' => TableCloned K live X s (s.mem p i).addr t k s')
    ⟨?_, fun a _ hat => ?_, ?_, rfl, fun _ _ _ => rfl⟩ fun k hk s' hc => ?_
  · simpa [count] using (h.setUnused ht (s.mem (s.mem p i).addr)).1
  · rw [Phys.setTable_mem, if_neg hat]
  · rintro a (rfl | rfl) j
    · rw [Phys.setTable_mem, if_neg hne]; simp
    · rw [Phys.setTable_mem, if_pos rfl]; simp
  have hdirs : ∀ q ∈ live, s'.mem q = s.mem q := fun q hq =>
    hc.off q (fun hc => hnl (hc ▸ hq)) (fun hc => (uses_zero ht).1 (hc ▸ hq))
  have hpde : s'.mem p i = s.mem p i := by rw [hdirs p hp]
  have huses : uses K live s' t = 0 := by
    rw [← ht]
    refine uses_cloned hdirs (fun a ha j => ?_) t
    by_cases has : a = (s.mem p i).addr
    · rw [hc.rows a (.inl has) j, has]
      split
      · exact .inr rfl
      · exact .inl rfl
    · exact .inl (by rw [hc.off a has (fun hc => ha (hc ▸ ht))])
  have hold : s'.mem (s.mem p i).addr k = s.mem (s.mem p i).addr k := by
    rw [hc.rows _ (.inl rfl) k, if_neg (Nat.lt_irrefl k)]
  obtain ⟨h1, h2, h3, h4⟩ := hc.inv.clonePte_spec hp hi hk
    (by rw [hpde]; exact hu) huses (by rw [hpde, hold, hc.rows t (.inr rfl) k]; simp)
  rw [hpde, hold] at h1 h2 h4
  rw [hpde] at h3
  refine ⟨h1.mono fun f => ?_, fun a has hat => ?_, fun a ha j => ?_, by rw [h3, hc.maxPages],
    fun g hg hnot => ?_⟩
  · rw [Finset.range_add_one, count_insert (by simp)]
    omega
  · funext b
    rw [h2 a b, if_neg (by simp [has, hat]), hc.off a has hat]
  · rw [h2 a j]
    by_cases hjk : j = k
    · subst hjk
      simp [ha]
    · rw [if_neg (fun hc => hjk hc.2), hc.rows a ha j]
      simp only [Nat.lt_succ_iff_lt_or_eq, hjk, or_false]
  · rw [h4 g hg (hnot k hk), hc.rcs g hg hnot]

/-! ## Pass 2: the whole directory -/

/-- The page tables of the child: fresh, its own, and different from each other. -/
theorem Pass1.table_sole (h : Pass1 K live X s0 src new 1024 s) (hi : i < 1024)
    (hu : (s0.mem src i).userPresent = true) :
    uses K live s (s.mem new i).addr = 0 ∧ (s.mem new i).addr ≠ new ∧
      ∀ l < 1024, (s0.mem src l).userPresent = true → (s.mem new l).addr = (s.mem new i).addr →
        l = i := by
  obtain ⟨he, hpage, hrc⟩ := h.user i hi hu
  have huser : ∀ l < 1024, (s0.mem src l).userPresent = true → (s.mem new l).userPresent = true := by
    intro l hl hlu
    rw [(h.user l hl hlu).1]
    exact hlu
  have hpos := h.table_held hi le_rfl hu
  obtain ⟨huses, hX⟩ := h.inv.held_sole hpage.1 hrc (by omega)
  refine ⟨huses, ?_, fun l hl hlu hla => ?_⟩
  · intro hc
    rw [if_pos hc] at hX
    omega
  · have hle : (count idx fun l => tableAt s (s.mem new i).addr (new, l)) ≤ 1 := by omega
    exact count_le_one hle (by simp [idx, hl]) (by simp [idx, hi])
      (by simp [tableAt, huser l hl hlu, hla]) (by simp [tableAt, huser i hi hu])

/-- The state of pass 2 before index `k`, started from `s₁`. -/
structure Pass2 (K live : Finset Nat) (X : Nat → Nat) (s₁ : Phys) (src new k : Nat) (s : Phys) :
    Prop where
  inv : PagingInv K live
    (fun f => X f + count (Finset.range k ×ˢ idx) fun x => mapsAt s₁ f (src, x)) s
  dirs : ∀ q ∈ live, s.mem q = s₁.mem q
  child : s.mem new = s₁.mem new
  parentTable : ∀ i < 1024, (s₁.mem src i).userPresent = true → ∀ j < 1024,
    s.mem (s₁.mem src i).addr j = if i < k then cloneEntry (s₁.mem (s₁.mem src i).addr j)
      else s₁.mem (s₁.mem src i).addr j
  childTable : ∀ i < k, (s₁.mem src i).userPresent = true → ∀ j < 1024,
    s.mem (s₁.mem new i).addr j = cloneEntry (s₁.mem (s₁.mem src i).addr j)
  other : ∀ a, (∀ i < 1024, (s₁.mem src i).userPresent = true →
    a ≠ (s₁.mem src i).addr ∧ a ≠ (s₁.mem new i).addr) → s.mem a = s₁.mem a
  maxPages : s.pmm.maxPages = s₁.pmm.maxPages
  rcs : ∀ g, g % pageSize = 0 → (∀ x ∈ idx ×ˢ idx, mapsAt s₁ g (src, x) = false) →
    rcOf s g = rcOf s₁ g

/-- What was unused before pass 2 still is. -/
theorem Pass2.unused {s₁ : Phys} (hP : Pass1 K live X s0 src new 1024 s₁)
    (h : Pass2 K live Y s₁ src new k s) (hsrc : src ∈ live) {f : Nat} (hf : uses K live s₁ f = 0) :
    uses K live s f = 0 := by
  have hsn : s₁.mem src = s0.mem src := hP.mem src (hP.src_ne hsrc)
  rw [← hf]
  refine uses_congr (fun q hq i _ => by rw [h.dirs q hq]) ?_ f
  intro q hq i hi hu j hj g
  by_cases hmine : ∃ l < 1024, (s₁.mem src l).userPresent = true ∧ (s₁.mem q i).addr = (s₁.mem src l).addr
  · obtain ⟨l, hl, hlu, hla⟩ := hmine
    rw [hla, h.parentTable l hl hlu j hj]
    split
    · rw [cloneEntry_holds]
    · rfl
  · rw [h.other]
    intro l hl hlu
    refine ⟨fun hc => hmine ⟨l, hl, hlu, hc⟩, fun hc => ?_⟩
    have hunused := (hP.table_sole hl (by rw [← hsn]; exact hlu)).1
    exact uses_pos_of_table hq hi hu (hc ▸ hunused)

/-- One round of pass 2. -/
theorem Pass2.step {s₁ : Phys} (hP : Pass1 K live X s0 src new 1024 s₁) (hsrc : src ∈ live)
    (hk : k < 1024) (h : Pass2 K live Y s₁ src new k s) :
    Pass2 K live Y s₁ src new (k + 1) (clonePde src new s k) := by
  have hsn : s₁.mem src = s0.mem src := hP.mem src (hP.src_ne hsrc)
  have hrow : ∀ f, (count (Finset.range (k + 1) ×ˢ idx) fun x => mapsAt s₁ f (src, x))
      = (count (Finset.range k ×ˢ idx) fun x => mapsAt s₁ f (src, x))
        + count idx fun j => mapsAt s₁ f (src, k, j) := by
    intro f
    rw [Finset.range_add_one, count_insert_product (by simp)]
  unfold clonePde
  dsimp only
  rw [h.child, h.dirs src hsrc]
  cases hu : (s₁.mem src k).userPresent with
  | false =>
    -- a kernel or absent PDE: the loop passes over it
    have hskip : Pass2 K live Y s₁ src new (k + 1) s := by
      have hzero : ∀ f, (count idx fun j => mapsAt s₁ f (src, k, j)) = 0 := by
        intro f
        refine count_eq_zero.mpr fun j _ => ?_
        simp [mapsAt, hu]
      have hik : ∀ i, (s₁.mem src i).userPresent = true → i ≠ k := by
        rintro i hiu rfl
        exact Bool.noConfusion (hu.symm.trans hiu)
      refine { h with inv := ?_, parentTable := fun i hi hiu j hj => ?_, childTable := fun i hi hiu => ?_ }
      · simp only [hrow, hzero, Nat.add_zero]
        exact h.inv
      · simp only [h.parentTable i hi hiu j hj, Nat.lt_succ_iff_lt_or_eq, hik i hiu, or_false]
      · exact h.childTable i (by have := hik i hiu; omega) hiu
    split
    · exact hskip
    next hp =>
      rcases hP.kern k hk (by rw [← hsn]; exact hu) with he | he
      · rw [he] at hp; exact absurd rfl hp
      · rw [if_pos (by rw [he, hsn])]
        exact hskip
  | true =>
    have hu0 : (s0.mem src k).userPresent = true := by rw [← hsn]; exact hu
    obtain ⟨he, htp, -⟩ := hP.user k hk hu0
    obtain ⟨htu, htn, hinj⟩ := hP.table_sole hk hu0
    have hpres : (s₁.mem new k).present = true := by
      rw [he]
      exact (Bool.and_eq_true_iff.mp hu0).1
    have hused := uses_pos_of_table (K := K) hsrc hk hu
    have hne : (s₁.mem new k).addr ≠ (s₁.mem src k).addr := fun hc => hused (hc ▸ htu)
    have hsp := (hP.inv.userPde src hsrc k hk hu).1
    rw [if_neg (by simp [hpres]), if_neg hne,
      if_neg (by simp [hP.inv.live_physPtr hsp, hP.inv.live_physPtr htp])]
    have hpde : s.mem src k = s₁.mem src k := by rw [h.dirs src hsrc]
    have hT := h.inv.clonePtes hsrc hk (by rw [hpde]; exact hu) (h.unused hP hsrc htu)
    rw [hpde] at hT
    revert hT
    generalize (List.range 1024).foldl _ _ = s'
    intro hT
    have hold : ∀ j < 1024, s.mem (s₁.mem src k).addr j = s₁.mem (s₁.mem src k).addr j := by
      intro j hj
      rw [h.parentTable k hk hu j hj, if_neg (Nat.lt_irrefl k)]
    have hmaps : ∀ g, ∀ j < 1024,
        (s.mem (s₁.mem src k).addr j).holds g = mapsAt s₁ g (src, k, j) := by
      intro g j hj
      rw [hold j hj]
      simp [mapsAt, hu]
    have hlive : ∀ q ∈ live, s'.mem q = s.mem q := by
      intro q hq
      refine hT.off q (fun hc => ?_) (fun hc => (uses_zero htu).1 (hc ▸ hq))
      exact (hP.inv.live_sole hq).2.2.2 src hsrc k hk hu hc.symm
    refine
      { inv := ?_, dirs := fun q hq => by rw [hlive q hq, h.dirs q hq], child := ?_,
        parentTable := ?_, childTable := ?_, other := ?_, maxPages := by rw [hT.maxPages, h.maxPages],
        rcs := ?_ }
    · refine hT.inv.mono fun f => ?_
      rw [hrow f]
      have : (count (Finset.range 1024) fun j => (s.mem (s₁.mem src k).addr j).holds f)
          = count idx fun j => mapsAt s₁ f (src, k, j) := by
        unfold idx
        exact count_congr fun j hj => hmaps f j (Finset.mem_range.mp hj)
      omega
    · rw [hT.off new (fun hc => ?_) (fun hc => htn hc.symm), h.child]
      exact uses_pos_of_table hsrc hk hu (hc ▸ hP.new_unused)
    · intro i hi hiu j hj
      by_cases hik : i = k
      · subst hik
        rw [hT.rows _ (.inl rfl) j, if_pos hj, hold j hj, if_pos (Nat.lt_succ_self i)]
      · have hane : (s₁.mem src i).addr ≠ (s₁.mem src k).addr := fun hc =>
          hik ((hP.inv.table_sole hsrc hk hu).2.2.2.2 src hsrc i hi hiu hc).2
        have hant : (s₁.mem src i).addr ≠ (s₁.mem new k).addr := fun hc =>
          uses_pos_of_table hsrc hi hiu (hc ▸ htu)
        rw [hT.off _ hane hant, h.parentTable i hi hiu j hj]
        simp only [Nat.lt_succ_iff_lt_or_eq, hik, or_false]
    · intro i hi hiu j hj
      by_cases hik : i = k
      · subst hik
        rw [hT.rows _ (.inr rfl) j, if_pos hj, hold j hj]
      · have hiu0 : (s0.mem src i).userPresent = true := by rw [← hsn]; exact hiu
        have hane : (s₁.mem new i).addr ≠ (s₁.mem src k).addr := fun hc =>
          hused (hc ▸ (hP.table_sole (by omega) hiu0).1)
        have hant : (s₁.mem new i).addr ≠ (s₁.mem new k).addr := fun hc =>
          hik (hinj i (by omega) hiu0 hc)
        rw [hT.off _ hane hant]
        exact h.childTable i (by omega) hiu j hj
    · intro a ha
      rw [hT.off a (ha k hk hu).1 (ha k hk hu).2, h.other a ha]
    · intro g hg hnot
      rw [hT.rcs g hg, h.rcs g hg hnot]
      intro j hj
      rw [hmaps g j hj]
      exact hnot (k, j) (by simp [idx, hk, hj])

section Result

variable {s₁ : Phys} (hP : Pass1 K live X s0 src new 1024 s₁)
  (h : Pass2 K live Y s₁ src new 1024 s) (hsrc : src ∈ live)

include hP hsrc in
/-- The child has a user table exactly where the parent has one. -/
theorem Pass1.child_user (hi : i < 1024) :
    (s₁.mem new i).userPresent = (s₁.mem src i).userPresent := by
  have hsn : s₁.mem src = s0.mem src := hP.mem src (hP.src_ne hsrc)
  cases hu : (s0.mem src i).userPresent with
  | true =>
    rw [(hP.user i hi hu).1, hsn, hu]
    exact hu
  | false =>
    rw [hsn, hu]
    rcases hP.kern i hi hu with he | he
    · rw [he]; rfl
    · rw [he]; exact hu

include h hsrc

/-- The parent still shows what it showed, with copy-on-write marks. -/
theorem Pass2.parent_view (hi : i < 1024) (hj : j < 1024) :
    userPte s (src, i, j) = (userPte s₁ (src, i, j)).map cloneEntry := by
  unfold userPte
  simp only [h.dirs src hsrc]
  cases hu : (s₁.mem src i).userPresent with
  | false => rfl
  | true =>
    simp only [if_true]
    rw [h.parentTable i hi hu j hj, if_pos hi, cloneEntry_view]

/-- Pass 2 did not touch the count of a frame that was unused before it. -/
theorem Pass2.rc_unused {g : Nat} (hg : g % pageSize = 0) (hu : uses K live s₁ g = 0) :
    rcOf s g = rcOf s₁ g := by
  refine h.rcs g hg ?_
  rintro ⟨i, j⟩ hx
  simp only [Finset.mem_product, idx, Finset.mem_range] at hx
  exact (uses_zero hu).2.2.1 _ (mem_slots.mpr ⟨hsrc, hx.1, hx.2⟩)

include hP

/-- So does the child. -/
theorem Pass2.child_view (hi : i < 1024) (hj : j < 1024) :
    userPte s (new, i, j) = (userPte s₁ (src, i, j)).map cloneEntry := by
  unfold userPte
  simp only [h.child, hP.child_user hsrc hi]
  cases hu : (s₁.mem src i).userPresent with
  | false => rfl
  | true =>
    simp only [if_true]
    rw [h.childTable i hi hu j hj, cloneEntry_view]

/-- The child goes into use with the references both passes collected. -/
theorem Pass2.inv_child (hY : ∀ f, Y f =
      X f + (if f = new then 1 else 0) + count idx fun i => tableAt s₁ f (new, i)) :
    PagingInv K (insert new live) X s := by
  have hsn : s₁.mem src = s0.mem src := hP.mem src (hP.src_ne hsrc)
  have hpage : ∀ f, IsPage s₁ f → IsPage s f := fun f hf => ⟨hf.1, by rw [h.maxPages]; exact hf.2⟩
  have hmaps : ∀ f, ∀ i < 1024, ∀ j < 1024, mapsAt s f (new, i, j) = mapsAt s₁ f (src, i, j) := by
    intro f i hi j hj
    rw [mapsAt_eq_any, h.child_view hP hsrc hi hj, mapsAt_eq_any, Option.any_map]
    congr 1
    funext e
    exact cloneEntry_holds e f
  refine h.inv.addPd (uses_zero hP.new_unused).1 (hpage _ hP.page) ?_ ?_ ?_ ?_ ?_
  · rw [h.rc_unused hsrc hP.page.1 hP.new_unused, hP.rc]
  · intro i hi hu
    rw [h.child] at hu ⊢
    rw [hP.child_user hsrc hi, hsn] at hu
    obtain ⟨-, htp, hrc⟩ := hP.user i hi hu
    refine ⟨hpage _ htp, ?_⟩
    rw [h.rc_unused hsrc htp.1 (hP.table_sole hi hu).1, hrc]
  · intro i hi hpres hnu
    rw [h.child] at hpres hnu ⊢
    have hu : (s0.mem src i).userPresent = false := by
      rw [← hsn, ← hP.child_user hsrc hi]
      simp [Entry.userPresent, hnu]
    rcases hP.kern i hi hu with he | he
    · rw [he] at hpres; cases hpres
    · rw [he] at hpres hnu ⊢
      rw [← hsn] at hpres hnu ⊢
      exact hP.inv.kernPde src hsrc i hi hpres hnu
  · intro f i hi j hj hm
    rw [hmaps f i hi j hj] at hm
    exact hpage _ (hP.inv.frame f _ (mem_slots.mpr ⟨hsrc, hi, hj⟩) hm)
  · intro f _
    have hrows : (count (idx ×ˢ idx) fun x => mapsAt s f (new, x))
        = count (Finset.range 1024 ×ˢ idx) fun x => mapsAt s₁ f (src, x) := by
      rw [show Finset.range 1024 = idx by simp [idx]]
      refine count_congr ?_
      rintro ⟨i, j⟩ hx
      simp only [Finset.mem_product, idx, Finset.mem_range] at hx
      exact hmaps f i hx.1 j hx.2
    have htabs : (count idx fun i => tableAt s f (new, i))
        = count idx fun i => tableAt s₁ f (new, i) := by
      refine count_congr fun i _ => ?_
      unfold tableAt
      rw [h.child]
    unfold pdUses
    rw [hY f, hrows, htabs]
    omega

end Result

/-- `paging_clone_user_space`: no child and no trace, or a child that shows what
the parent showed, both now with the copy-on-write marks. -/
theorem PagingInv.clone (h : PagingInv K live X s) (hsrc : src ∈ live)
    (hshare : ∀ i < 1024, (s.mem src i).userPresent = true →
      hasUserPte s (s.mem src i).addr = true) {n : Nat}
    (hc : pagingCloneUserSpace s src = (n, s')) :
    (n = 0 ∧ PagingInv K live X s' ∧ ∀ a, uses K live s a ≠ 0 → s'.mem a = s.mem a) ∨
    (n ≠ 0 ∧ n ∉ live ∧ PagingInv K (insert n live) X s' ∧ OnlyTouches K live s s' src ∧
      (∀ y ∈ slots live, y.1 = src → userPte s' y = (userPte s y).map cloneEntry) ∧
      ∀ i < 1024, ∀ j < 1024, userPte s' (n, i, j) = (userPte s (src, i, j)).map cloneEntry) := by
  unfold pagingCloneUserSpace at hc
  rcases h.alloc with ha | ⟨m, sa, ha, hm0, hmp, hmu, -, hrc, hmem, -, hinv, -⟩
  · rw [ha] at hc
    cases hc
    exact .inl ⟨rfl, h, fun _ _ => rfl⟩
  rw [ha] at hc
  dsimp only at hc
  rw [if_neg hm0, if_neg (by simp [hinv.live_physPtr hmp, h.live_physPtr (h.pd src hsrc).1])] at hc
  have hmu' : uses K live sa m = 0 := by rw [uses_of_mem_eq hmem, hmu]
  obtain ⟨hml, -, -, -⟩ := uses_zero hmu
  have hsm : src ≠ m := fun he => hml (he ▸ hsrc)
  obtain ⟨s0, hs0⟩ : ∃ s0, s0 = sa.setTable m fun _ => {} := ⟨_, rfl⟩
  have hoff : ∀ a, a ≠ m → s0.mem a = s.mem a := by
    intro a ham
    rw [hs0, Phys.setTable_mem, if_neg ham, hmem]
  have hempty : ∀ i, s0.mem m i = {} := by
    intro i; rw [hs0, Phys.setTable_mem, if_pos rfl]
  have hP : Pass1 K live X s0 src m 0 s0 := by
    refine
      { inv := ?_, mem := fun _ _ => rfl, page := by rw [hs0]; exact hmp, rc := by rw [hs0]; exact hrc,
        user := fun i hi => absurd hi (Nat.not_lt_zero i),
        kern := fun i hi => absurd hi (Nat.not_lt_zero i), rest := fun i _ => hempty i }
    have hset := (hinv.setUnused hmu' fun _ => {}).1
    rw [← hs0] at hset
    refine hset.mono fun f => ?_
    have : (count idx fun i => tableAt s0 f (m, i)) = 0 := by
      refine count_eq_zero.mpr fun i _ => ?_
      simp only [tableAt, hempty i]
      rfl
    simp only [this, bump]
    omega
  have hsrc0 : s0.mem src = s.mem src := hoff src hsm
  have hshare0 : ∀ i < 1024, (s0.mem src i).userPresent = true →
      hasUserPte s0 (s0.mem src i).addr = true := by
    intro i hi hu
    rw [hsrc0] at hu ⊢
    have hne : (s.mem src i).addr ≠ m := fun he => uses_pos_of_table hsrc hi hu (he ▸ hmu)
    have := hshare i hi hu
    unfold hasUserPte at this ⊢
    rw [hoff _ hne]
    exact this
  rw [← hs0, List.range_eq_range'] at hc
  obtain ⟨ok, s₁, hr⟩ : ∃ ok s₁, clonePass1 src m (List.range' 0 1024) s0 = (ok, s₁) := ⟨_, _, rfl⟩
  have hspec := clonePass1_spec hsrc hshare0 1024 (by omega) hP
  rw [hr] at hspec hc
  rcases hspec with ⟨rfl, hP1⟩ | ⟨rfl, hfail, hfmem⟩
  · dsimp only at hc
    rw [← List.range_eq_range'] at hc
    obtain ⟨rfl, hs'⟩ := Prod.mk.inj hc
    obtain ⟨Y, hY⟩ : ∃ Y : Nat → Nat, Y = fun f =>
      X f + (if f = m then 1 else 0) + count idx fun i => tableAt s₁ f (m, i) := ⟨_, rfl⟩
    have hP2 : Pass2 K live Y s₁ src m 1024 s' := by
      rw [← hs']
      refine foldl_range_inv (fun k s => Pass2 K live Y s₁ src m k s) ?_
        (fun k hk s hk' => hk'.step hP1 hsrc hk)
      refine
        { inv := ?_, dirs := fun _ _ => rfl, child := rfl,
          parentTable := fun i _ _ j _ => by simp, childTable := fun i hi => absurd hi (by omega),
          other := fun _ _ => rfl, maxPages := rfl, rcs := fun _ _ _ => rfl }
      refine hP1.inv.mono fun f => ?_
      rw [hY]
      simp [count]
    have hoff1 : ∀ a, a ≠ m → s₁.mem a = s.mem a := fun a ham => by rw [hP1.mem a ham, hoff a ham]
    obtain ⟨huses1, hview⟩ := same_off_unused hmu hoff1
    refine .inr ⟨hm0, hml, hP2.inv_child hP1 hsrc (fun f => by rw [hY]), ?_, ?_, ?_⟩
    · intro a hown hau
      rw [hP2.other a, hoff1 a fun he => hau (he ▸ hmu)]
      intro i hi hu
      rw [hoff1 src hsm] at hu ⊢
      refine ⟨fun he => hown (.inr ⟨i, hi, hu, he.symm⟩), fun he => hau ?_⟩
      rw [he, ← huses1]
      exact (hP1.table_sole hi (by rw [hsrc0]; exact hu)).1
    · rintro ⟨q, i, j⟩ hy rfl
      obtain ⟨-, hi, hj⟩ := mem_slots.mp hy
      rw [hP2.parent_view hsrc hi hj, hview _ hy]
    · intro i hi j hj
      rw [hP2.child_view hP1 hsrc hi hj, hview _ (mem_slots.mpr ⟨hsrc, hi, hj⟩)]
  · cases hc
    refine .inl ⟨rfl, hfail, fun a hau => ?_⟩
    have ham : a ≠ m := fun he => hau (he ▸ hmu)
    rw [hfmem a ham, hoff a ham]

end Clone

end Drunix.Mm
