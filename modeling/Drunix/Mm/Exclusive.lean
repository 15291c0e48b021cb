import Drunix.Mm.CowOps
import Drunix.Mm.ClonePass2

/-!
# A shared private frame is nobody's to write

`Exclusive` speaks of the user's view of all address spaces only: where two of them
map one frame privately (neither `PG_IO` nor `PG_SHARED`), neither can write to it.
The first part says which changes of the view keep it: taking rights away, a frame
nobody else maps, and fork's marking of both sides. The second part is one lemma
per call of `fault.c` and `uaccess.c`, assembled from these and from the page-level
specs of `CowOps`.
-/

namespace Drunix.Mm

open Lib

/-- The user's view: what each PTE slot shows. -/
abbrev View := Nat × Nat × Nat → Option Entry

/-- Neither device memory nor a shared mapping. -/
def Entry.isPrivate (e : Entry) : Bool := !e.io && !e.shared

/-- Where two address spaces map one frame privately, the first cannot write to it
(and, the two being interchangeable, neither can). -/
def Exclusive (live : Finset Nat) (v : View) : Prop :=
  ∀ x ∈ slots live, ∀ y ∈ slots live, x.1 ≠ y.1 → ∀ e f, v x = some e → v y = some f →
    e.isPrivate = true → f.isPrivate = true → e.addr = f.addr → e.writable = false

/-- No slot other than `x` maps the frame `a` privately. -/
def SoleAt (live : Finset Nat) (v : View) (x : Nat × Nat × Nat) (a : Nat) : Prop :=
  ∀ y ∈ slots live, y.1 ≠ x.1 → ∀ f, v y = some f → f.isPrivate = true → f.addr ≠ a

/-- Copy-on-write pages are frames, not device memory. -/
def CowFrames (live : Finset Nat) (v : View) : Prop :=
  ∀ x ∈ slots live, ∀ e, v x = some e → e.cow = true → e.io = false

variable {e : Entry} {p : Proc}

section Views

variable {live : Finset Nat} {v v' : View}

theorem Exclusive.congr (h : Exclusive live v) (hv : ∀ y ∈ slots live, v' y = v y) :
    Exclusive live v' := by
  intro x hx y hy hxy e f he hf
  rw [hv x hx] at he
  rw [hv y hy] at hf
  exact h x hx y hy hxy e f he hf

theorem CowFrames.congr (h : CowFrames live v) (hv : ∀ y ∈ slots live, v' y = v y) :
    CowFrames live v' := by
  intro x hx e he
  rw [hv x hx] at he
  exact h x hx e he

/-- Pages that go or lose write access; write access is given (where `g`) only to a
page no other address space maps. -/
theorem Exclusive.adjust (h : Exclusive live v) {g : Nat × Nat × Nat → Prop}
    (hadj : ∀ y ∈ slots live, Adjusted (g y) (v y) (v' y))
    (hg : ∀ x ∈ slots live, g x → ∀ e, v x = some e → e.isPrivate = true → e.cow = false →
      e.writable = false → SoleAt live v x e.addr) : Exclusive live v' := by
  intro x hx y hy hxy e' f' he' hf' hep hfp haddr
  obtain ⟨e, w, he, rfl, hw⟩ := hadj x hx e' he'
  obtain ⟨f, w', hf, rfl, -⟩ := hadj y hy f' hf'
  have hnow : e.writable = false := h x hx y hy hxy e f he hf hep hfp haddr
  cases w with
  | false => rfl
  | true =>
    rcases hw rfl with hc | ⟨hgx, hcow⟩
    · rw [hnow] at hc
      cases hc
    · exact absurd haddr.symm (hg x hx hgx e he hep hcow hnow y hy (Ne.symm hxy) f hf hfp)

theorem CowFrames.adjust (h : CowFrames live v) {g : Nat × Nat × Nat → Prop}
    (hadj : ∀ y ∈ slots live, Adjusted (g y) (v y) (v' y)) : CowFrames live v' := by
  intro x hx e' he' hcow
  obtain ⟨e, w, he, rfl, -⟩ := hadj x hx e' he'
  exact h x hx e he hcow

/-- A slot filled with a frame no other address space maps. -/
theorem Exclusive.set (h : Exclusive live v) {x : Nat × Nat × Nat}
    (hv : ∀ y ∈ slots live, v' y = if y = x then some e else v y) (hs : SoleAt live v x e.addr) :
    Exclusive live v' := by
  intro y hy z hz hyz d f hd hf hdp hfp haddr
  rw [hv y hy] at hd
  rw [hv z hz] at hf
  split at hd
  next hyx =>
    cases hd
    subst hyx
    rw [if_neg (fun hc => hyz (by rw [hc]))] at hf
    exact absurd haddr.symm (hs z hz (Ne.symm hyz) f hf hfp)
  split at hf
  next hzx =>
    cases hf
    subst hzx
    exact absurd haddr (hs y hy hyz d hd hdp)
  · exact h y hy z hz hyz d f hd hf hdp hfp haddr

theorem CowFrames.set (h : CowFrames live v) {x : Nat × Nat × Nat}
    (hv : ∀ y ∈ slots live, v' y = if y = x then some e else v y) (hcow : e.cow = false) :
    CowFrames live v' := by
  intro y hy d hd hc
  rw [hv y hy] at hd
  split at hd
  · cases hd
    rw [hcow] at hc
    cases hc
  · exact h y hy d hd hc

theorem cloneEntry_private (hu : e.userPresent = true)
    (hp : (cloneEntry e).isPrivate = true) : (cloneEntry e).writable = false := by
  unfold cloneEntry at hp ⊢
  split at hp
  next hc =>
    rw [if_pos hc]
  next hc =>
    rw [if_neg hc]
    simp only [Entry.isPrivate, Bool.and_eq_true, Bool.not_eq_true'] at hp
    simpa [hu, hp.1, hp.2] using hc

theorem cloneEntry_isPrivate (e : Entry) : (cloneEntry e).isPrivate = e.isPrivate := by
  unfold cloneEntry; split <;> rfl

theorem cloneEntry_addr (e : Entry) : (cloneEntry e).addr = e.addr := by
  unfold cloneEntry; split <;> rfl

/-- Fork: both sides see the parent's pages, marked. -/
theorem Exclusive.fork (h : Exclusive live v) {src n : Nat} (hsrc : src ∈ live) (hn : n ∉ live)
    (hup : ∀ y e, v y = some e → e.userPresent = true)
    (hparent : ∀ y ∈ slots live, y.1 = src → v' y = (v y).map cloneEntry)
    (hchild : ∀ i < 1024, ∀ j < 1024, v' (n, i, j) = (v (src, i, j)).map cloneEntry)
    (hother : ∀ y ∈ slots live, y.1 ≠ src → v' y = v y) : Exclusive (insert n live) v' := by
  -- a slot after the fork and the slot before it whose entry it shows
  have hback : ∀ x ∈ slots (insert n live), ∃ x0 ∈ slots live,
      (v' x = (v x0).map cloneEntry ∧ x0.1 = src ∧ (x.1 = src ∨ x.1 = n)) ∨
      (v' x = v x0 ∧ x0.1 = x.1 ∧ x.1 ≠ src ∧ x.1 ≠ n) := by
    rintro ⟨p, i, j⟩ hx
    obtain ⟨hp, hi, hj⟩ := mem_slots.mp hx
    simp only at hp hi hj
    rcases Finset.mem_insert.mp hp with rfl | hp
    · exact ⟨(src, i, j), mem_slots.mpr ⟨hsrc, hi, hj⟩, .inl ⟨hchild i hi j hj, rfl, .inr rfl⟩⟩
    · have hx0 : (p, i, j) ∈ slots live := mem_slots.mpr ⟨hp, hi, hj⟩
      by_cases hps : p = src
      · exact ⟨_, hx0, .inl ⟨hparent _ hx0 hps, hps, .inl hps⟩⟩
      · exact ⟨_, hx0, .inr ⟨hother _ hx0 hps, rfl, hps, fun hc => hn (hc ▸ hp)⟩⟩
  intro x hx y hy hxy e f he hf hep hfp haddr
  obtain ⟨x0, hx0, ⟨hvx, -, -⟩ | ⟨hvx, hx1, hxs, hxn⟩⟩ := hback x hx
  · rw [hvx] at he
    obtain ⟨e0, he0, rfl⟩ := Option.map_eq_some_iff.mp he
    exact cloneEntry_private (hup _ _ he0) hep
  rw [hvx] at he
  obtain ⟨y0, hy0, ⟨hvy, hy1, -⟩ | ⟨hvy, hy1, -, -⟩⟩ := hback y hy
  · rw [hvy] at hf
    obtain ⟨f0, hf0, rfl⟩ := Option.map_eq_some_iff.mp hf
    rw [cloneEntry_isPrivate] at hfp
    rw [cloneEntry_addr] at haddr
    exact h x0 hx0 y0 hy0 (by rw [hx1, hy1]; exact hxs) e f0 he hf0 hep hfp haddr
  · rw [hvy] at hf
    exact h x0 hx0 y0 hy0 (by rw [hx1, hy1]; exact hxy) e f he hf hep hfp haddr

theorem cloneEntry_cow_io (h : e.cow = true → e.io = false)
    (hc : (cloneEntry e).cow = true) : (cloneEntry e).io = false := by
  unfold cloneEntry at hc ⊢
  split at hc
  next hp =>
    rw [if_pos hp]
    simp only [Bool.and_eq_true, Bool.not_eq_true'] at hp
    exact hp.1.1.2
  next hp =>
    rw [if_neg hp]
    exact h hc

end Views

/-! ## The calls -/

/-- What holds of the memory between calls. -/
structure CowOk (K live : Finset Nat) (s : Phys) : Prop where
  own : PagingInv K live (fun _ => 0) s
  excl : Exclusive live (userPte s)
  frames : CowFrames live (userPte s)

/-- The part of it that does not depend on who may write. -/
structure MemOk (K live : Finset Nat) (s : Phys) : Prop where
  own : PagingInv K live (fun _ => 0) s
  frames : CowFrames live (userPte s)

section Calls

variable {K live : Finset Nat} {s s' : Phys}

theorem CowOk.memOk (h : CowOk K live s) : MemOk K live s := ⟨h.own, h.frames⟩

theorem userPte_userPresent {y : Nat × Nat × Nat} (h : userPte s y = some e) :
    e.userPresent = true := by
  unfold userPte Entry.view at h
  split at h
  · split at h
    next hu =>
      cases h
      exact hu
    · cases h
  · cases h

/-- A private user page is a use of its frame. -/
theorem mapsAt_of_private {y : Nat × Nat × Nat} {f : Entry} (h : userPte s y = some f)
    (hp : f.isPrivate = true) : mapsAt s f.addr y = true := by
  simp only [Entry.isPrivate, Bool.and_eq_true, Bool.not_eq_true'] at hp
  rw [mapsAt_eq_any, h]
  simp [Entry.holds, userPte_userPresent h, hp.1]

/-- A frame nobody uses is mapped nowhere. -/
theorem soleAt_of_unused {a : Nat} (h : uses K live s a = 0) (x : Nat × Nat × Nat) :
    SoleAt live (userPte s) x a := by
  intro y hy _ f hf hp he
  have := (uses_zero h).2.2.1 y hy
  rw [← he, mapsAt_of_private hf hp] at this
  cases this

/-- A frame with one use is mapped at the slot that has it, if there is one. -/
theorem soleAt_of_single {a : Nat} (h : uses K live s a ≤ 1) {x : Nat × Nat × Nat}
    (hx : x ∈ slots live) (hm : mapsAt s a x = true) : SoleAt live (userPte s) x a := by
  intro y hy hne f hf hp he
  have hcount : count (slots live) (mapsAt s a) ≤ 1 := by
    unfold uses at h
    omega
  have hy' : mapsAt s a y = true := by rw [← he]; exact mapsAt_of_private hf hp
  exact hne (by rw [count_le_one hcount hy hx hy' hm])

theorem CowOk.same (h : CowOk K live s) (hinv : PagingInv K live (fun _ => 0) s')
    (hv : ∀ y ∈ slots live, userPte s' y = userPte s y) : CowOk K live s' :=
  ⟨hinv, h.excl.congr hv, h.frames.congr hv⟩

theorem CowOk.fresh (h : CowOk K live s) {p : Nat} (hp : p ∈ live) (page : Nat)
    {flags : MapFlags} (hown : flags.Own) (hcow : flags.cow = false) :
    CowOk K live (mapFresh s p page flags).2 := by
  obtain ⟨hinv, ⟨-, hm⟩ | ⟨-, a, -, -, -, -, huses, hset, -⟩⟩ := h.own.mapFresh_cases hp page hown
  · exact h.same hinv fun y _ => userPte_of_mem_eq hm y
  · exact ⟨hinv, h.excl.set hset (soleAt_of_unused huses _), h.frames.set hset hcow⟩

/-- A break of copy-on-write on a page the user can reach. -/
theorem CowOk.broken (h : CowOk K live s) {p : Nat} (hp : p ∈ live) (page : Nat)
    (hcu : ∀ m, pagingQueryPage s p page = some m → m.flags.cow = true → m.flags.user = true) :
    CowOk K live (breakCow s p page).2 := by
  obtain ⟨hinv, hb⟩ := h.own.breakCow_spec hp page hcu
    (fun e he hc => h.frames _ (slotOf_mem hp page) e he hc)
  cases hb with
  | same hv => exact h.same hinv hv
  | copied e hfresh hcow hset =>
    exact ⟨hinv, h.excl.set hset (soleAt_of_unused hfresh _), h.frames.set hset hcow⟩
  | taken e hold hio hsole hset =>
    have hm : mapsAt s e.addr (slotOf p page) = true := by
      rw [mapsAt_eq_any, hold]
      simp [Entry.holds, userPte_userPresent hold, hio]
    exact ⟨hinv, h.excl.set hset (soleAt_of_single hsole (slotOf_mem hp page) hm),
      h.frames.set hset rfl⟩

/-- A property of the memory that survives where pages go or lose rights, where a frame
nobody uses appears, and where copy-on-write is broken on a page the user can reach. The
calls below do nothing else. -/
structure PagesKeep (K live : Finset Nat) (I : Phys → Prop) : Prop where
  own : ∀ {s}, I s → PagingInv K live (fun _ => 0) s
  adjust : ∀ {s s'}, I s → PagingInv K live (fun _ => 0) s' →
    (∀ y ∈ slots live, Adjusted False (userPte s y) (userPte s' y)) → I s'
  fresh : ∀ {s p}, I s → p ∈ live → ∀ (page : Nat) {flags : MapFlags}, flags.Own →
    flags.cow = false → I (mapFresh s p page flags).2
  broken : ∀ {s p}, I s → p ∈ live → ∀ page,
    (∀ m, pagingQueryPage s p page = some m → m.flags.cow = true → m.flags.user = true) →
    I (breakCow s p page).2

theorem CowOk.pagesKeep : PagesKeep K live (CowOk K live) where
  own h := h.own
  adjust h hinv hadj := ⟨hinv, h.excl.adjust hadj fun _ _ hf => hf.elim, h.frames.adjust hadj⟩
  fresh h hp page _ hown hcow := h.fresh hp page hown hcow
  broken h hp page hcu := h.broken hp page hcu

theorem MemOk.pagesKeep : PagesKeep K live (MemOk K live) where
  own h := h.own
  adjust h hinv hadj := ⟨hinv, h.frames.adjust hadj⟩
  fresh h hp page _ hown hcow := by
    obtain ⟨hinv, ⟨-, hm⟩ | ⟨-, a, -, -, -, -, -, hset, -⟩⟩ := h.own.mapFresh_cases hp page hown
    · exact ⟨hinv, h.frames.congr fun y _ => userPte_of_mem_eq hm y⟩
    · exact ⟨hinv, h.frames.set hset hcow⟩
  broken h hp page hcu := by
    obtain ⟨hinv, hb⟩ := h.own.breakCow_spec hp page hcu
      (fun e he hc => h.frames _ (slotOf_mem hp page) e he hc)
    cases hb with
    | same hv => exact ⟨hinv, h.frames.congr hv⟩
    | copied e hfresh hcow hset => exact ⟨hinv, h.frames.set hset hcow⟩
    | taken e hold hio hsole hset => exact ⟨hinv, h.frames.set hset rfl⟩

variable {I : Phys → Prop}

theorem PagesKeep.same (k : PagesKeep K live I) (h : I s) (hinv : PagingInv K live (fun _ => 0) s')
    (hv : ∀ y ∈ slots live, userPte s' y = userPte s y) : I s' :=
  k.adjust h hinv fun y hy => by rw [hv y hy]; exact Adjusted.refl _ _

/-- A lazy page of an area. -/
theorem PagesKeep.lazyPage (k : PagesKeep K live I) (h : I s) {p : Nat} (hp : p ∈ live) (page : Nat) (v : VmArea) :
    I (mapFresh s p page (lazyFlags v)).2 :=
  k.fresh h hp page ⟨rfl, rfl, rfl, rfl⟩ rfl

theorem PagesKeep.stackPages (k : PagesKeep K live I) {p : Nat} (hp : p ∈ live) (v : VmArea) :
    ∀ (pages : List Nat) {s : Phys} (low : Nat), I s →
      I (growStack p (lazyFlags v) pages s low).2.1
  | [], _, _, h => h
  | page :: pages, s, low, h => by
    have hmap := k.lazyPage h hp page v
    unfold growStack
    split
    next s1 he =>
      rw [he] at hmap
      exact k.stackPages hp v pages page hmap
    next s1 _ he =>
      rw [he] at hmap
      exact hmap

section

variable (k : PagesKeep K live I) (h : I s) (hp : p.pdPhys ∈ live)

include k h hp

theorem PagesKeep.lazyAnonFault (v : VmArea)
    (cr2 userEsp : Nat) : I (faultHandleLazyAnonFault s p v cr2 userEsp).2.1 := by
  unfold faultHandleLazyAnonFault
  dsimp only
  generalize (if userEsp > 32 then userEsp - 32 else 0) = slack
  split
  · exact h
  split
  · exact k.lazyPage h hp _ v
  split
  · exact k.stackPages hp v _ _ h
  · exact h

omit k h hp

theorem PagesKeep.lazyFileFault (k : PagesKeep K live I) (h : I s) {p : Nat} (hp : p ∈ live) (readOk : Bool)
    (page : Nat) (v : VmArea) :
    I (faultHandleLazyFilePrivateFault readOk s p page v).2 := by
  unfold faultHandleLazyFilePrivateFault
  dsimp only
  split
  · exact h
  split
  · exact h
  split
  · -- the read fails: the frame comes and goes
    rcases (k.own h).alloc with ha | ⟨a, s1, ha, ha0, hap, huses, -, -, hmem, -, hinv, -⟩
    · rw [ha]; exact h
    · rw [ha]
      rw [if_neg ha0]
      exact k.same h (hinv.release hap.1)
        fun y _ => userPte_of_mem_eq hmem y
  · exact k.lazyPage h hp _ v

include k h hp

/-- `paging_handle_fault`, when the page that faults is not a copy-on-write page
hidden from the user. -/
theorem PagesKeep.fault (readOk : Bool) (cr2 : Nat) (err : PfErr) (userEsp : Nat)
    (hcu : ∀ m, pagingQueryPage s p.pdPhys (cr2 / 4096 * 4096) = some m → m.flags.cow = true →
      m.flags.user = true) :
    I (pagingHandleFault readOk s p cr2 err userEsp).2.1 := by
  unfold pagingHandleFault
  dsimp only
  split
  · exact h
  split
  · exact h
  next v _ =>
  split
  · exact h
  split
  · split
    · exact k.lazyFileFault h hp readOk _ v
    · exact k.lazyAnonFault h hp v cr2 userEsp
  split
  · exact k.lazyFileFault h hp readOk _ v
  split
  · exact k.lazyAnonFault h hp v cr2 userEsp
  split
  · exact h
  · exact k.broken h hp _ hcu

/-! ## `uaccess_copy_to_user` -/

theorem PagesKeep.uaccessLazy (readOk : Bool)
    (page : Nat) (v : VmArea) : I (uaccessMapLazy readOk s p page v).2 := by
  unfold uaccessMapLazy uaccessMapLazyAnon
  split
  · exact k.lazyFileFault h hp readOk page v
  split
  · exact h
  split
  · exact h
  · exact k.lazyPage h hp page v

/-- The mapping reported is the one in place afterwards. -/
theorem PagesKeep.uaccessEnsure_ok
    (missing : Option Mapping → Bool) (readOk : Bool) (page : Nat) (v : VmArea) :
    I (uaccessEnsure missing readOk s p page v).2 ∧
      ∀ m, (uaccessEnsure missing readOk s p page v).1 = some m →
        pagingQueryPage (uaccessEnsure missing readOk s p page v).2 p.pdPhys page = some m := by
  have hlazy := k.uaccessLazy h hp readOk page v
  unfold uaccessEnsure
  split
  · split
    next s1 he =>
      rw [he] at hlazy
      exact ⟨hlazy, fun m hm => hm⟩
    next s1 _ he =>
      rw [he] at hlazy
      exact ⟨hlazy, nofun⟩
  · exact ⟨h, fun m hm => hm⟩

theorem PagesKeep.translate (readOk : Bool)
    (addr : Nat) (write : Bool) : I (uaccessTranslate readOk s p addr write).2 := by
  unfold uaccessTranslate
  dsimp only
  split
  · exact h
  split
  · exact h
  next v _ =>
  split
  · exact h
  have h1 := (k.uaccessEnsure_ok h hp (fun m => m.isNone) readOk (addr / 4096 * 4096) v).1
  split
  next s1 he =>
    rw [he] at h1
    exact h1
  next _ s1 he =>
  rw [he] at h1
  obtain ⟨h2, hq⟩ := k.uaccessEnsure_ok h1 hp
    (fun m => m.any fun m => !m.flags.user && !m.flags.cow) readOk (addr / 4096 * 4096) v
  split
  next s2 he2 =>
    rw [he2] at h2
    exact h2
  next m s2 he2 =>
  rw [he2] at h2 hq
  split
  · exact h2
  next hu =>
  split
  · split
    · exact h2
    · -- the page is the user's, so copy-on-write is broken under the invariant
      have h3 := k.broken h2 hp (addr / 4096 * 4096) fun m' hm' _ => by
        rw [hq m rfl] at hm'
        cases hm'
        simpa using hu
      split
      next s3 he3 =>
        unfold uaccessBreakCow at he3
        rw [he3] at h3
        split
        · exact h3
        · exact h3
      next s3 _ he3 =>
        unfold uaccessBreakCow at he3
        rw [he3] at h3
        exact h3
  · exact h2

omit k h hp

theorem PagesKeep.translateEach_ok (k : PagesKeep K live I) (hp : p.pdPhys ∈ live)
    (readOk : Nat → Bool) : ∀ (addrs : List Nat) {s : Phys}, I s →
      I (translateEach (fun addr s => uaccessTranslate (readOk addr) s p addr true) addrs s).2
  | [], _, h => h
  | addr :: addrs, s, h => by
    have h1 := k.translate h hp (readOk addr) addr true
    unfold translateEach
    split
    next s1 he =>
      rw [he] at h1
      exact k.translateEach_ok hp readOk addrs h1
    next s1 _ he =>
      rw [he] at h1
      exact h1

include k h hp

theorem PagesKeep.copyToUser (readOk : Nat → Bool) (dst len : Nat) :
    I (uaccessCopyToUser readOk s p dst len).2 := by
  have h1 : I (uaccessPrepare (fun addr s => uaccessTranslate (readOk addr) s p addr true)
      dst len s).2 := by
    unfold uaccessPrepare
    split
    · exact h
    · exact k.translateEach_ok hp readOk _ h
  unfold uaccessCopyToUser
  dsimp only
  split
  next s1 he =>
    rw [he] at h1
    exact k.translateEach_ok hp readOk _ h1
  next s1 _ he =>
    rw [he] at h1
    exact h1

end

end Calls

end Drunix.Mm
