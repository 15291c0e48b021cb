import Drunix.Mm.PagingInv

/-!
# Edits of the page tables

One lemma per kind of store the paging functions make, each from `PagingInv` to
`PagingInv`: storing a PTE, installing or removing a page table, adding or
removing a page directory, scribbling on a page nobody uses. The references in
flight (the argument `X`) say what the edit consumes and what it leaves in the
hands of the code that made it.
-/

namespace Drunix.Mm

open Lib

variable {i p j : Nat} {X' : Nat → Nat}

variable {e : Entry} {t : Nat}

section Edits

variable {K live : Finset Nat} {X : Nat → Nat} {s : Phys}

/-- A change of the memory that leaves the kernel's pages. A PDE is as before or points to a page
with one reference, or to a page of the kernel. -/
theorem PagingInv.setMem (h : PagingInv K live X s) {mem : Nat → Nat → Entry}
    (hkern : ∀ k ∈ K, mem k = s.mem k)
    (hpde : ∀ q ∈ live, ∀ k < 1024, mem q k = s.mem q k ∨ ∃ e, mem q k = e ∧
      (e.userPresent = true → IsPage s e.addr ∧ rcOf s e.addr = 1) ∧
      (e.present = true → e.user = false → e.addr ∈ K))
    (hframe : ∀ f, ∀ y ∈ slots live, mapsAt { s with mem } f y = true → IsPage s f)
    (hacct : ∀ f, f % pageSize = 0 → uses K live { s with mem } f + X' f ≤ rcOf s f ∨
      rcOf s f = 255) : PagingInv K live X' { s with mem } where
  pmm := h.pmm
  max := h.max
  zero := h.zero
  kdir := h.kdir
  kpde k hk := by
    simp only [hkern _ h.kdir]
    exact h.kpde k hk
  kern k hk := by
    simp only [hkern k hk]
    exact h.kern k hk
  pd := h.pd
  userPde q hq k hk := by
    rcases hpde q hq k hk with he | ⟨e, he, hnew, -⟩ <;> simp only [he]
    · exact h.userPde q hq k hk
    · exact hnew
  kernPde q hq k hk := by
    rcases hpde q hq k hk with he | ⟨e, he, -, hnew⟩ <;> simp only [he]
    · exact h.kernPde q hq k hk
    · exact hnew
  frame := hframe
  acct := hacct

section

variable (h : PagingInv K live X s) (hp : p ∈ live) (hi : i < 1024)

include h hp hi

/-- Storing a PTE changes what the user sees at its own slot and nowhere else. -/
theorem PagingInv.userPte_store (hu : (s.mem p i).userPresent = true) (e : Entry)
    {y : Nat × Nat × Nat} (hy : y ∈ slots live) :
    userPte (s.setEntry (s.mem p i).addr j e) y
      = if y = (p, i, j) then e.view else userPte s y := by
  obtain ⟨hnl, -, -, -, huniq⟩ := h.table_sole hp hi hu
  obtain ⟨q, k, l⟩ := y
  obtain ⟨hq, hk, -⟩ := mem_slots.mp hy
  simp only at hq hk
  have hpage : (s.setEntry (s.mem p i).addr j e).mem q = s.mem q :=
    Phys.setEntry_mem_page e (fun he => hnl (he ▸ hq))
  unfold userPte
  simp only [hpage]
  by_cases hqu : (s.mem q k).userPresent = true
  · by_cases hsame : (s.mem q k).addr = (s.mem p i).addr
    · obtain ⟨rfl, rfl⟩ := huniq q hq k hk hqu hsame
      by_cases hl : l = j
      · subst hl; simp [hqu, Phys.setEntry_mem]
      · simp [hl, Phys.setEntry_mem]
    · have hne : ¬ (q, k, l) = (p, i, j) := by
        intro he
        obtain ⟨rfl, rfl, rfl⟩ := he
        exact hsame rfl
      rw [Phys.setEntry_mem_page e hsame, if_neg hne]
  · have hne : ¬ (q, k, l) = (p, i, j) := by
      intro he
      obtain ⟨rfl, rfl, rfl⟩ := he
      exact hqu hu
    rw [if_neg hne]
    simp [hqu]

theorem PagingInv.mapsAt_store (hu : (s.mem p i).userPresent = true) (e : Entry) (f : Nat)
    {y : Nat × Nat × Nat} (hy : y ∈ slots live) :
    mapsAt (s.setEntry (s.mem p i).addr j e) f y
      = if y = (p, i, j) then e.holds f else mapsAt s f y := by
  rw [mapsAt_eq_any, h.userPte_store hp hi hu e hy, mapsAt_eq_any]
  split
  · cases he : e.userPresent with
    | false => simp [Entry.view, Entry.holds, he]
    | true => simp [Entry.view, he]
  · rfl

/-- Storing one PTE of a user page table. The counts must cover the new
mapping; the old one no longer needs its reference. -/
theorem PagingInv.storePte (hj : j < 1024) (hu : (s.mem p i).userPresent = true) (e : Entry) (he : ∀ f, e.holds f = true → IsPage s f)
    (hacct : ∀ f, f % pageSize = 0 → rcOf s f = 255 ∨
      uses K live s f + X' f + (if e.holds f then 1 else 0)
        ≤ rcOf s f + (if (s.mem (s.mem p i).addr j).holds f then 1 else 0)) :
    PagingInv K live X' (s.setEntry (s.mem p i).addr j e) := by
  obtain ⟨hnl, hnk, -, -, -⟩ := h.table_sole hp hi hu
  have hmaps := fun f y hy => h.mapsAt_store (j := j) hp hi hu e f (y := y) hy
  have hx : (p, i, j) ∈ slots live := mem_slots.mpr ⟨hp, hi, hj⟩
  have hpage : ∀ q, q ≠ (s.mem p i).addr →
      (s.setEntry (s.mem p i).addr j e).mem q = s.mem q :=
    fun q hq => Phys.setEntry_mem_page e hq
  have hlive : ∀ q ∈ live, (s.setEntry (s.mem p i).addr j e).mem q = s.mem q :=
    fun q hq => hpage q (fun hc => hnl (hc ▸ hq))
  refine h.setMem (fun k hk => hpage k (fun hc => hnk (hc ▸ hk)))
    (fun q hq k _ => .inl (congrFun (hlive q hq) k)) (fun f y hy hm => ?_) fun f hf => ?_
  · replace hm : mapsAt (s.setEntry (s.mem p i).addr j e) f y = true := hm
    rw [hmaps f y hy] at hm
    split at hm
    · exact he f hm
    · exact h.frame f y hy hm
  · have hcount := count_update
      (q := mapsAt (s.setEntry (s.mem p i).addr j e) f) hx
      (fun y hy hne => by rw [hmaps f y hy, if_neg hne])
    have htab : count (live ×ˢ idx) (tableAt (s.setEntry (s.mem p i).addr j e) f)
        = count (live ×ˢ idx) (tableAt s f) := by
      apply count_congr
      rintro ⟨q, k⟩ hqk
      simp only [Finset.mem_product] at hqk
      unfold tableAt
      simp only [hlive q hqk.1]
    rw [hmaps f _ hx, if_pos rfl] at hcount
    have hold : mapsAt s f (p, i, j) = (s.mem (s.mem p i).addr j).holds f := by
      simp [mapsAt, hu]
    rw [hold] at hcount
    rcases hacct f hf with ha | ha
    · exact .inr ha
    · left
      show uses K live (s.setEntry (s.mem p i).addr j e) f + X' f ≤ rcOf s f
      unfold uses at ha ⊢
      rw [htab]
      omega

/-- Storing a PTE for a frame whose reference is in hand: it goes to the PTE. -/
theorem PagingInv.storeHeld (hj : j < 1024) (hu : (s.mem p i).userPresent = true) (he : ∀ f, e.holds f = true → IsPage s f)
    (hX : ∀ f, X' f + (if e.holds f then 1 else 0) ≤ X f) :
    PagingInv K live X' (s.setEntry (s.mem p i).addr j e) := by
  refine h.storePte hp hi hj hu e he fun f hf => ?_
  have hXf := hX f
  exact (h.acct f hf).symm.imp_right fun ha => by omega

/-- Storing a PTE that holds what the old one held. -/
theorem PagingInv.storeSame (hj : j < 1024) (hu : (s.mem p i).userPresent = true)
    (he : ∀ f, e.holds f = (s.mem (s.mem p i).addr j).holds f) :
    PagingInv K live X (s.setEntry (s.mem p i).addr j e) := by
  refine h.storePte hp hi hj hu e (fun f hf => ?_) fun f hf => ?_
  · rw [he] at hf
    exact h.frame f (p, i, j) (mem_slots.mpr ⟨hp, hi, hj⟩) (by simp [mapsAt, hu, hf])
  · rw [he]
    exact (h.acct f hf).symm.imp_right fun ha => by omega

/-- Storing a PDE such that every user PTE stays. The counts must cover the new page table; the
old one no longer needs its reference. -/
theorem PagingInv.storePde {mem : Nat → Nat → Entry} (hkern : ∀ k ∈ K, mem k = s.mem k)
    (hpd : ∀ q ∈ live, ∀ k, mem q k = if q = p ∧ k = i then e else s.mem q k)
    (he : (e.userPresent = true → IsPage s e.addr ∧ rcOf s e.addr = 1) ∧
      (e.present = true → e.user = false → e.addr ∈ K))
    (hview : ∀ y ∈ slots live, userPte { s with mem } y = userPte s y)
    (hX : ∀ f, X' f + (if e.userPresent && e.addr = f then 1 else 0)
      ≤ X f + if (s.mem p i).userPresent && (s.mem p i).addr = f then 1 else 0) :
    PagingInv K live X' { s with mem } := by
  have hmaps : ∀ f, ∀ y ∈ slots live, mapsAt { s with mem } f y = mapsAt s f y :=
    fun f y hy => mapsAt_eq (hview y hy) f
  refine h.setMem hkern (fun q hq k _ => ?_)
    (fun f y hy hm => h.frame f y hy ((hmaps f y hy).symm.trans hm)) fun f hf => ?_
  · have hqk := hpd q hq k
    split at hqk
    · exact .inr ⟨e, hqk, he⟩
    · exact .inl hqk
  · have hcount := count_update (S := live ×ˢ idx) (p := tableAt s f)
      (q := tableAt { s with mem } f) (x := (p, i)) (by simp [hp, idx, hi])
      (by
        rintro ⟨q, k⟩ hqk hne
        simp only [Finset.mem_product] at hqk
        unfold tableAt
        simp only [hpd q hqk.1 k]
        rw [if_neg (fun hc => hne (by rw [hc.1, hc.2]))])
    have hnew : tableAt { s with mem } f (p, i) = (e.userPresent && decide (e.addr = f)) := by
      simp only [tableAt, hpd p hp i, and_self, if_true]
    rw [hnew, tableAt] at hcount
    dsimp only at hcount
    have hXf := hX f
    refine (h.acct f hf).imp_left fun ha => ?_
    unfold uses at ha ⊢
    rw [count_congr (hmaps f)]
    omega

/-- Installing a page table without user PTEs behind a PDE that had none. -/
theorem PagingInv.installTable (hu : (s.mem p i).userPresent = false) (ht : IsPage s t)
    (hrc : rcOf s t = 1) (huses : uses K live s t = 0) {g : Nat → Entry}
    (hg : ∀ j < 1024, (g j).userPresent = false) (heu : e.userPresent = true)
    (hea : e.addr = t) (hX : X = bump X' t) :
    PagingInv K live X' ((s.setTable t g).setEntry p i e) ∧
      ∀ y ∈ slots live, userPte ((s.setTable t g).setEntry p i e) y = userPte s y := by
  obtain ⟨hnl, hnk, hnm, hnt⟩ := uses_zero huses
  obtain ⟨hpk, -, -, hpt⟩ := h.live_sole hp
  have hpt' : p ≠ t := fun he => hnl (he ▸ hp)
  have hpd : ∀ q ∈ live, ∀ k, ((s.setTable t g).setEntry p i e).mem q k
      = if q = p ∧ k = i then e else s.mem q k := by
    intro q hq k
    have hqt : q ≠ t := fun he => hnl (he ▸ hq)
    rw [Phys.setEntry_mem, Phys.setTable_mem, if_neg hqt]
  have hother : ∀ q, q ≠ t → q ≠ p → ((s.setTable t g).setEntry p i e).mem q = s.mem q := by
    intro q hqt hqp
    rw [Phys.setEntry_mem_page e hqp, Phys.setTable_mem, if_neg hqt]
  have htab : ((s.setTable t g).setEntry p i e).mem t = g := by
    rw [Phys.setEntry_mem_page e (Ne.symm hpt'), Phys.setTable_mem, if_pos rfl]
  have hview : ∀ y ∈ slots live,
      userPte ((s.setTable t g).setEntry p i e) y = userPte s y := by
    rintro ⟨q, k, l⟩ hy
    obtain ⟨hq, hk, hl⟩ := mem_slots.mp hy
    simp only at hq hk hl
    by_cases hqk : q = p ∧ k = i
    · obtain ⟨rfl, rfl⟩ := hqk
      unfold userPte
      simp [hpd q hq k, hea, htab, Entry.view, hg l hl, hu]
    · exact userPte_eq ((hpd q hq k).trans (if_neg hqk)) fun hqu =>
        hother _ (hnt q hq k hk hqu) (hpt q hq k hk hqu)
  refine ⟨h.storePde hp hi (fun k hk => hother k (fun he => hnk (he ▸ hk)) fun he => hpk (he ▸ hk))
    hpd ⟨fun _ => hea ▸ ⟨ht, hrc⟩, fun _ hnu => ?_⟩ hview fun f => ?_, hview⟩
  · simp [Entry.userPresent, hnu] at heu
  · simp [hX, bump, hu, heu, hea, eq_comm]

/-- Removing a page table without user PTEs: its frame is held by the remover. -/
theorem PagingInv.removeTable (hu : (s.mem p i).userPresent = true)
    (hg : ∀ j < 1024, (s.mem (s.mem p i).addr j).userPresent = false) :
    PagingInv K live (bump X (s.mem p i).addr) (s.setEntry p i {}) := by
  obtain ⟨hpk, -, -, hpt⟩ := h.live_sole hp
  have hpd : ∀ q k, (s.setEntry p i {}).mem q k = if q = p ∧ k = i then {} else s.mem q k :=
    fun q k => Phys.setEntry_mem s p i q k {}
  have hother : ∀ q, q ≠ p → (s.setEntry p i {}).mem q = s.mem q :=
    fun q hq => Phys.setEntry_mem_page {} hq
  have hup : ({} : Entry).userPresent = false := rfl
  refine h.storePde hp hi (fun k hk => hother k fun he => hpk (he ▸ hk)) (fun q _ => hpd q)
    ⟨nofun, nofun⟩ ?_ fun f => ?_
  · rintro ⟨q, k, l⟩ hy
    obtain ⟨hq, hk, hl⟩ := mem_slots.mp hy
    simp only at hq hk hl
    by_cases hqk : q = p ∧ k = i
    · obtain ⟨rfl, rfl⟩ := hqk
      show userPte (s.setEntry q k {}) _ = _
      unfold userPte
      simp [hpd q k, hup, hu, Entry.view, hg l hl]
    · exact userPte_eq ((hpd q k).trans (if_neg hqk)) fun hqu => hother _ (hpt q hq k hk hqu)
  · simp [bump, hu, hup, eq_comm]

end

/-- A frame held by code in flight, with count one, is used nowhere. -/
theorem PagingInv.held_sole (h : PagingInv K live X s) (ht : t % pageSize = 0)
    (hrc : rcOf s t = 1) (hX : 1 ≤ X t) : uses K live s t = 0 ∧ X t = 1 := by
  rcases h.acct t ht with ha | ha <;> omega

/-- A change of an unused page changes no use and no view. -/
theorem same_off_unused {s' : Phys} (ht : uses K live s t = 0)
    (hmem : ∀ a, a ≠ t → s'.mem a = s.mem a) :
    (∀ f, uses K live s' f = uses K live s f) ∧ ∀ y ∈ slots live, userPte s' y = userPte s y := by
  obtain ⟨hnl, -, -, hnt⟩ := uses_zero ht
  have hlive : ∀ q ∈ live, s'.mem q = s.mem q := fun q hq => hmem q (fun he => hnl (he ▸ hq))
  refine ⟨uses_congr (fun q hq k _ => by rw [hlive q hq]) fun q hq k hk hu j _ f => ?_, ?_⟩
  · rw [hmem _ (hnt q hq k hk hu)]
  · rintro ⟨q, k, l⟩ hy
    obtain ⟨hq, hk, -⟩ := mem_slots.mp hy
    exact userPte_eq (congrFun (hlive q hq) k) fun hqu => hmem _ (hnt q hq k hk hqu)

/-- The contents of a page nobody uses do not matter. -/
theorem PagingInv.setUnused (h : PagingInv K live X s) (ht : uses K live s t = 0)
    (g : Nat → Entry) : PagingInv K live X (s.setTable t g) ∧
      ∀ y ∈ slots live, userPte (s.setTable t g) y = userPte s y := by
  obtain ⟨hnl, hnk, -, -⟩ := uses_zero ht
  have hpage : ∀ q, q ≠ t → (s.setTable t g).mem q = s.mem q := by
    intro q hq
    rw [Phys.setTable_mem, if_neg hq]
  obtain ⟨huses, hview⟩ := same_off_unused ht hpage
  refine ⟨h.setMem (fun k hk => hpage k (fun he => hnk (he ▸ hk)))
    (fun q hq k _ => .inl (congrFun (hpage q fun he => hnl (he ▸ hq)) k))
    (fun f y hy hm => h.frame f y hy ((mapsAt_eq (hview y hy) f).symm.trans hm)) fun f hf => ?_, hview⟩
  exact (huses f).symm ▸ h.acct f hf

/-- What the directory `p` alone uses of frame `f`. -/
def pdUses (s : Phys) (p f : Nat) : Nat :=
  count (idx ×ˢ idx) (fun x => mapsAt s f (p, x)) + count idx (fun i => tableAt s f (p, i))
    + (if f = p then 1 else 0)

theorem uses_insert (hp : p ∉ live) (f : Nat) :
    uses K (insert p live) s f = uses K live s f + pdUses s p f := by
  unfold uses pdUses slots
  rw [count_insert_product hp, count_insert_product hp]
  by_cases hfp : f = p
  · subst hfp; simp only [Finset.mem_insert_self, if_true, hp, if_false]; omega
  · simp only [Finset.mem_insert, hfp, false_or, if_false]; omega

/-- Putting a page directory into use, with every reference it needs in hand. -/
theorem PagingInv.addPd (h : PagingInv K live X s) {n : Nat} (hn : n ∉ live) (hpage : IsPage s n)
    (hrc : rcOf s n = 1) (huser : ∀ i < 1024, (s.mem n i).userPresent = true →
      IsPage s (s.mem n i).addr ∧ rcOf s (s.mem n i).addr = 1)
    (hkern : ∀ i < 1024, (s.mem n i).present = true → (s.mem n i).user = false →
      (s.mem n i).addr ∈ K)
    (hframe : ∀ f, ∀ i < 1024, ∀ j < 1024, mapsAt s f (n, i, j) = true → IsPage s f) (hX : ∀ f, f % pageSize = 0 → X' f + pdUses s n f ≤ X f) :
    PagingInv K (insert n live) X' s := by
  refine
    { pmm := h.pmm, max := h.max, zero := h.zero, kdir := h.kdir, kpde := h.kpde, kern := h.kern,
      pd := ?_, userPde := ?_, kernPde := ?_, frame := ?_, acct := ?_ }
  · intro q hq
    rcases Finset.mem_insert.mp hq with rfl | hq
    · exact ⟨hpage, hrc⟩
    · exact h.pd q hq
  · intro q hq
    rcases Finset.mem_insert.mp hq with rfl | hq
    · exact huser
    · exact h.userPde q hq
  · intro q hq
    rcases Finset.mem_insert.mp hq with rfl | hq
    · exact hkern
    · exact h.kernPde q hq
  · rintro f ⟨q, k, l⟩ hy hm
    obtain ⟨hq, hk, hl⟩ := mem_slots.mp hy
    simp only at hq hk hl
    rcases Finset.mem_insert.mp hq with rfl | hq
    · exact hframe f k hk l hl hm
    · exact h.frame f (q, k, l) (mem_slots.mpr ⟨hq, hk, hl⟩) hm
  · intro f hf
    rw [uses_insert hn]
    have hXf := hX f hf
    exact (h.acct f hf).imp_left fun ha => by omega

/-- Taking a page directory out of use: the remover holds what it used. -/
theorem PagingInv.removePd (h : PagingInv K live X s) (hp : p ∈ live) :
    PagingInv K (live.erase p) (fun f => X f + pdUses s p f) s := by
  have hsub : ∀ q, q ∈ live.erase p → q ∈ live := fun q hq => Finset.mem_of_mem_erase hq
  refine
    { pmm := h.pmm, max := h.max, zero := h.zero, kdir := h.kdir, kpde := h.kpde, kern := h.kern,
      pd := fun q hq => h.pd q (hsub q hq), userPde := fun q hq => h.userPde q (hsub q hq),
      kernPde := fun q hq => h.kernPde q (hsub q hq), frame := ?_, acct := ?_ }
  · intro f x hx hm
    obtain ⟨hq, hk, hl⟩ := mem_slots.mp hx
    exact h.frame f x (mem_slots.mpr ⟨hsub _ hq, hk, hl⟩) hm
  · intro f hf
    have huses := uses_insert (K := K) (s := s) (Finset.notMem_erase p live) f
    rw [Finset.insert_erase hp] at huses
    exact (h.acct f hf).imp_left fun ha => by omega

end Edits

end Drunix.Mm
