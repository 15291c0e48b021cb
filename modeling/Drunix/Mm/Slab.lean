import Drunix.Lib.Loop
import Drunix.Lib.SList
import Drunix.Mm.Pmm

/-!
# Slab caches

`mm/slab.c` on x86: pages of equal objects with a header, a free list threaded
through the free objects, and two lists of pages. `slab_cache`: for every size that
`kmem_cache_create` takes and every sequence of `kmem_cache_alloc` and `kmem_cache_free`,
the lists and counts agree, objects in use do not overlap, and `kmem_cache_destroy` returns
the pages that are still held. Creating a cache fails or gives objects of the size asked
for exactly if that is at most `0xFFFFFFFC`: above, rounding up to four wraps to zero, and
the division traps (`create_divides_by_zero`).

Mirroring notes:
- Memory is seen through the fields of `slab_hdr_t` at the start of a page and the word at
  the address of an object. Whoever holds an object may write there (`SlabOp.scribble`).
- `pmm_alloc_page` is an argument of `kmem_cache_alloc`: the page, or 0. It gives no page
  that the cache still has (`Mm.PmmRun` is about that).
- The walks along lists of pages get fuel for all pages there are.
-/

namespace Drunix.Mm

open Lib Function

/-! ## slab.c -/

/-- `SLAB_HDR_SZ`. -/
def slabHdrSz : Nat := 12

/-- `kmem_cache_t`, without the name. -/
structure KmemCache where
  objSize : Nat
  objsPerSlab : Nat
  partialHead : Nat
  fullHead : Nat

/-- `slab_hdr_t` at each page, and the first word of each object. -/
structure SlabMem where
  next : Nat → Nat
  nFree : Nat → Nat
  freeHead : Nat → Nat
  slot : Nat → Nat

/-- The object at index `i` of a page. -/
def objAt (objSize page i : Nat) : Nat := page + slabHdrSz + i * objSize

/-- `slab_format`. -/
def slabFormat (c : KmemCache) (m : SlabMem) (page : Nat) : SlabMem :=
  let slot := (List.range c.objsPerSlab).foldl
    (fun slot i => update slot (objAt c.objSize page i)
      (if i + 1 < c.objsPerSlab then objAt c.objSize page (i + 1) else 0)) m.slot
  { next := update m.next page 0
    nFree := update m.nFree page c.objsPerSlab
    freeHead := update m.freeHead page (page + slabHdrSz)
    slot := slot }

/-- `slab_grow`, with the answer of `pmm_alloc_page`. -/
def slabGrow (c : KmemCache) (m : SlabMem) (page : Nat) : Nat × KmemCache × SlabMem :=
  if page = 0 then (0, c, m)
  else
    let m := slabFormat c m page
    (page, { c with partialHead := page },
      { m with next := update m.next page c.partialHead })

/-- The loop of `list_remove`, past its first node. -/
def listRemoveFrom (target : Nat) : Nat → (Nat → Nat) → Nat → Nat → Nat
  | 0, next, _ => next
  | fuel + 1, next, p =>
    if next p = 0 then next
    else if next p = target then update next p (next target)
    else listRemoveFrom target fuel next (next p)

/-- As many pages as there are. -/
def slabFuel : Nat := 1048576

/-- `list_remove`: the head and the links after it. -/
def listRemove (next : Nat → Nat) (head target : Nat) : Nat × (Nat → Nat) :=
  if head = 0 then (head, next)
  else if head = target then (next target, next)
  else (head, listRemoveFrom target slabFuel next head)

/-- What `kmem_cache_create` does: a trap, null, or a cache. -/
inductive Created where
  | divideError
  | null
  | cache (c : KmemCache)

/-- `kmem_cache_create`; `mem` is whether `kmalloc` succeeds. -/
def kmemCacheCreate (objSize : Nat) (mem : Bool) : Created :=
  let objSize := if objSize < 4 then 4 else objSize
  let objSize := u32 (objSize + 3) / 4 * 4
  if objSize = 0 then .divideError
  else
    let objs := (pageSize - slabHdrSz) / objSize
    if objs = 0 then .null
    else if mem = false then .null
    else .cache { objSize := objSize, objsPerSlab := objs, partialHead := 0, fullHead := 0 }

/-- `kmem_cache_alloc` once it has a slab. -/
def allocFrom (c : KmemCache) (m : SlabMem) (slab : Nat) : Nat × KmemCache × SlabMem :=
  let obj := m.freeHead slab
  let m :=
    { m with
      freeHead := update m.freeHead slab (m.slot obj)
      nFree := update m.nFree slab (m.nFree slab - 1) }
  if m.nFree slab = 0 then
    (obj, { c with partialHead := m.next slab, fullHead := slab },
      { m with next := update m.next slab c.fullHead })
  else (obj, c, m)

/-- `kmem_cache_alloc`. -/
def kmemCacheAlloc (c : KmemCache) (m : SlabMem) (page : Nat) : Nat × KmemCache × SlabMem :=
  if c.partialHead = 0 then
    let (slab, c, m) := slabGrow c m page
    if slab = 0 then (0, c, m) else allocFrom c m slab
  else allocFrom c m c.partialHead

/-- The page of an address. -/
def pageOf (addr : Nat) : Nat := addr / pageSize * pageSize

/-- `kmem_cache_free`: also the page that goes back, if one does. -/
def kmemCacheFree (c : KmemCache) (m : SlabMem) (obj : Nat) : Option Nat × KmemCache × SlabMem :=
  let slab := pageOf obj
  let wasFull := m.nFree slab = 0
  let m :=
    { m with
      slot := update m.slot obj (m.freeHead slab)
      freeHead := update m.freeHead slab obj
      nFree := update m.nFree slab (m.nFree slab + 1) }
  if wasFull then
    let (full, next) := listRemove m.next c.fullHead slab
    (none, { c with partialHead := slab, fullHead := full },
      { m with next := update next slab c.partialHead })
  else if m.nFree slab = c.objsPerSlab then
    let (head, next) := listRemove m.next c.partialHead slab
    (some slab, { c with partialHead := head }, { m with next := next })
  else (none, c, m)

/-- A loop of `kmem_cache_destroy`: the pages it returns. -/
def destroyLoop (next : Nat → Nat) : Nat → Nat → List Nat
  | 0, _ => []
  | fuel + 1, s => if s = 0 then [] else s :: destroyLoop next fuel (next s)

/-- `kmem_cache_destroy`. -/
def kmemCacheDestroy (c : KmemCache) (m : SlabMem) : List Nat :=
  destroyLoop m.next slabFuel c.partialHead ++ destroyLoop m.next slabFuel c.fullHead

/-! ## The lists of pages -/

variable {l live : List Nat} {next : Nat → Nat}

variable {j head fuel objSize : Nat}

theorem listRemoveFrom_spec {target p : Nat}
    (h : Linked next p (p :: l)) (hfuel : l.length < fuel) :
    Linked (listRemoveFrom target fuel next p) p (p :: l.erase target) ∧
      ∀ b, b ∉ p :: l → listRemoveFrom target fuel next p b = next b := by
  induction fuel generalizing p l with
  | zero => omega
  | succ fuel ih =>
    unfold listRemoveFrom
    cases l with
    | nil =>
      rw [if_pos (show next p = 0 from h.2.2)]
      exact ⟨h, fun _ _ => rfl⟩
    | cons c l =>
      obtain ⟨-, hp, hpc, hc, hrest⟩ := id h
      rw [if_neg (hpc ▸ hc), hpc]
      by_cases htarget : c = target
      · rw [if_pos htarget, ← htarget, List.erase_cons_head]
        refine ⟨⟨rfl, hp, ?_⟩, fun b hb => update_of_ne ?_ _ _⟩
        · rw [update_self]
          exact hrest.update (fun hl => h.not_mem (List.mem_cons_of_mem c hl)) _
        · rintro rfl
          exact hb List.mem_cons_self
      · rw [if_neg htarget, List.erase_cons_tail (by simpa using htarget)]
        obtain ⟨hlinked, hother⟩ := ih ⟨rfl, hc, hrest⟩ (by simpa using hfuel)
        refine ⟨⟨rfl, hp, ?_⟩, fun b hb => hother b fun hmem => hb (List.mem_cons_of_mem p hmem)⟩
        rw [hother p h.not_mem, hpc]
        exact hlinked

theorem listRemove_spec (target : Nat) (h : Linked next head l) (hfuel : l.length ≤ slabFuel) :
    Linked (listRemove next head target).2 (listRemove next head target).1 (l.erase target) ∧
      ∀ b, b ∉ l → (listRemove next head target).2 b = next b := by
  unfold listRemove
  cases l with
  | nil =>
    rw [if_pos (show head = 0 from h)]
    exact ⟨h, fun _ _ => rfl⟩
  | cons c l =>
    obtain ⟨rfl, hc, hrest⟩ := id h
    rw [if_neg hc]
    by_cases htarget : head = target
    · rw [if_pos htarget, ← htarget, List.erase_cons_head]
      exact ⟨hrest, fun _ _ => rfl⟩
    · rw [if_neg htarget, List.erase_cons_tail (by simpa using htarget)]
      exact listRemoveFrom_spec h hfuel

theorem destroyLoop_eq
    (h : Linked next head l) (hfuel : l.length ≤ fuel) : destroyLoop next fuel head = l := by
  induction l generalizing fuel head with
  | nil =>
    cases fuel with
    | zero => rfl
    | succ fuel => rw [destroyLoop, if_pos (show head = 0 from h)]
  | cons b l ih =>
    obtain ⟨rfl, hne, hrest⟩ := h
    cases fuel with
    | zero => cases hfuel
    | succ fuel => rw [destroyLoop, if_neg hne, ih hrest (by simpa using hfuel)]

/-! ## Objects in a page -/

/-- Object size and number of objects of a cache: they fit behind the header. -/
structure Layout (size n : Nat) : Prop where
  pos : 0 < size
  some : 0 < n
  fits : slabHdrSz + n * size ≤ pageSize

variable {c : KmemCache} {i o n page obj size page' : Nat} {m : SlabMem}

theorem objAt_add_le (size page : Nat) (hij : i < j) :
    objAt size page i + size ≤ objAt size page j := by
  have hmul := Nat.mul_le_mul_right size (Nat.succ_le_of_lt hij)
  rw [Nat.succ_mul] at hmul
  unfold objAt
  omega

theorem Layout.bounds (h : Layout size n) (page : Nat) (hi : i < n) :
    page + slabHdrSz ≤ objAt size page i ∧ objAt size page i + size ≤ page + pageSize := by
  have hlast := objAt_add_le size page hi
  have hfits := h.fits
  unfold objAt at *
  omega

theorem Layout.pageOf_objAt (h : Layout size n)
    (hpage : pageSize ∣ page) (hi : i < n) : pageOf (objAt size page i) = page := by
  have hbounds := h.bounds page hi
  have hpos := h.pos
  unfold pageOf pageSize slabHdrSz at *
  omega

/-- Two objects do not overlap. -/
theorem Layout.apart (h : Layout size n)
    (hpage : pageSize ∣ page) (hpage' : pageSize ∣ page') (hi : i < n) (hj : j < n)
    (hne : objAt size page i ≠ objAt size page' j) :
    objAt size page i + size ≤ objAt size page' j ∨
      objAt size page' j + size ≤ objAt size page i := by
  have hbi := h.bounds page hi
  have hbj := h.bounds page' hj
  by_cases hp : page = page'
  · subst hp
    rcases Nat.lt_trichotomy i j with hij | rfl | hij
    · exact .inl (objAt_add_le size page hij)
    · exact absurd rfl hne
    · exact .inr (objAt_add_le size page hij)
  · unfold pageSize slabHdrSz at *
    omega

theorem Layout.objAt_inj (h : Layout size n)
    (heq : objAt size page i = objAt size page j) : i = j := by
  unfold objAt at heq
  exact Nat.eq_of_mul_eq_mul_right h.pos (by omega)

/-- The objects of a page in order. -/
def objects (size n page : Nat) : List Nat := (List.range n).map (objAt size page)

theorem mem_objects : o ∈ objects size n page ↔ ∃ i < n, o = objAt size page i := by
  simp only [objects, List.mem_map, List.mem_range, eq_comm]

theorem objects_length (size n page : Nat) : (objects size n page).length = n := by
  rw [objects, List.length_map, List.length_range]

/-- An object belongs to one page. -/
theorem Layout.same_page (h : Layout size n)
    (hpage : pageSize ∣ page) (hpage' : pageSize ∣ page') (ho : o ∈ objects size n page)
    (ho' : o ∈ objects size n page') : page = page' := by
  obtain ⟨i, hi, rfl⟩ := mem_objects.mp ho
  obtain ⟨j, hj, heq⟩ := mem_objects.mp ho'
  rw [← h.pageOf_objAt hpage hi, heq, h.pageOf_objAt hpage' hj]

/-! ## slab_format -/

/-- The words that `slab_format` writes. -/
theorem slabFormat_slot (h : Layout c.objSize c.objsPerSlab) (m : SlabMem) (page : Nat) :
    (∀ i < c.objsPerSlab, (slabFormat c m page).slot (objAt c.objSize page i) =
      if i + 1 < c.objsPerSlab then objAt c.objSize page (i + 1) else 0) ∧
      ∀ a, a ∉ objects c.objSize c.objsPerSlab page →
        (slabFormat c m page).slot a = m.slot a := by
  refine foldl_range_inv (fun k (slot : Nat → Nat) => (∀ i < k, slot (objAt c.objSize page i) =
    if i + 1 < c.objsPerSlab then objAt c.objSize page (i + 1) else 0) ∧
      ∀ a, a ∉ objects c.objSize c.objsPerSlab page → slot a = m.slot a) ⟨by simp, by simp⟩ ?_
  intro k hk slot hslot
  refine ⟨fun i hi => ?_, fun a ha => ?_⟩
  · by_cases hik : i = k
    · rw [hik, update_self]
    · rw [update_of_ne fun heq => hik (h.objAt_inj heq)]
      exact hslot.1 i (by omega)
  · rw [update_of_ne fun heq => ha (mem_objects.mpr ⟨k, hk, heq⟩)]
    exact hslot.2 a ha

theorem slabFormat_linked (h : Layout c.objSize c.objsPerSlab) (m : SlabMem) (page : Nat) :
    Linked (slabFormat c m page).slot (page + slabHdrSz)
      (objects c.objSize c.objsPerSlab page) := by
  have hslot := (slabFormat_slot h m page).1
  -- from object `k` on, by induction on how many follow
  have hfrom : ∀ d k, k + d = c.objsPerSlab →
      Linked (slabFormat c m page).slot
        (if k < c.objsPerSlab then objAt c.objSize page k else 0)
        ((List.range' k d).map (objAt c.objSize page)) := by
    intro d
    induction d with
    | zero =>
      intro k hk
      rw [if_neg (by omega)]
      rfl
    | succ d ih =>
      intro k hk
      rw [if_pos (by omega), List.range'_succ, List.map_cons]
      refine ⟨rfl, by unfold objAt slabHdrSz; omega, ?_⟩
      rw [hslot k (by omega)]
      exact ih (k + 1) (by omega)
  have hall := hfrom c.objsPerSlab 0 (Nat.zero_add _)
  rw [if_pos h.some, ← List.range_eq_range'] at hall
  rw [objAt, Nat.zero_mul, Nat.add_zero] at hall
  exact hall

/-! ## The invariant -/

/-- A page of a cache and its free list. -/
structure PageOk (size n : Nat) (m : SlabMem) (live : List Nat) (page : Nat) (free : List Nat) :
    Prop where
  aligned : pageSize ∣ page
  top : page + pageSize ≤ 4294967296
  linked : Linked m.slot (m.freeHead page) free
  count : m.nFree page = free.length
  objs : ∀ o ∈ free, o ∈ objects size n page
  live : ∀ o ∈ objects size n page, o ∈ live ↔ o ∉ free

/-- What happens in other pages is no matter. -/
theorem PageOk.frame {m' : SlabMem} {live' : List Nat}
    {free : List Nat} (h : PageOk size n m live page free)
    (hfree : m'.freeHead page = m.freeHead page) (hcount : m'.nFree page = m.nFree page)
    (hslot : ∀ o ∈ objects size n page, o ∈ free → m'.slot o = m.slot o)
    (hlive : ∀ o ∈ objects size n page, o ∈ live' ↔ o ∈ live) :
    PageOk size n m' live' page free where
  aligned := h.aligned
  top := h.top
  linked := by
    rw [hfree]
    exact h.linked.congr fun o ho => hslot o (h.objs o ho) ho
  count := hcount.trans h.count
  objs := h.objs
  live := fun o ho => (hlive o ho).trans (h.live o ho)

/-- Nor are the links between the pages. -/
theorem PageOk.relink {free : List Nat} (h : PageOk size n m live page free) (next : Nat → Nat) :
    PageOk size n { m with next := next } live page free :=
  h.frame rfl rfl (fun _ _ _ => rfl) fun _ _ => Iff.rfl

/-- The cache, its memory, the objects in use, and the pages taken and returned so far. -/
structure SlabState where
  cache : KmemCache
  mem : SlabMem
  live : List Nat
  taken : List Nat
  returned : List Nat

/-- The objects of a page of the cache. -/
abbrev SlabState.objects (s : SlabState) (page : Nat) : List Nat :=
  Mm.objects s.cache.objSize s.cache.objsPerSlab page

/-- The pages with free objects are on the partial list, the others on the full list. -/
structure SlabInv (s : SlabState) (ps fs : List Nat) (free : Nat → List Nat) : Prop where
  layout : Layout s.cache.objSize s.cache.objsPerSlab
  partialList : Linked s.mem.next s.cache.partialHead ps
  fullList : Linked s.mem.next s.cache.fullHead fs
  apart : ∀ page ∈ ps, page ∉ fs
  pages : ∀ page ∈ ps ++ fs,
    PageOk s.cache.objSize s.cache.objsPerSlab s.mem s.live page (free page)
  partialFree : ∀ page ∈ ps, free page ≠ []
  fullFree : ∀ page ∈ fs, free page = []
  liveIn : ∀ o ∈ s.live, ∃ page ∈ ps ++ fs, o ∈ s.objects page
  once : s.live.Nodup
  held : s.taken.Perm (s.returned ++ (ps ++ fs))

inductive SlabOp where
  | alloc (page : Nat)
  | free (obj : Nat)
  | scribble (slot : Nat → Nat)

def slabStep (s : SlabState) : SlabOp → SlabState
  | .alloc page =>
    let (obj, c, m) := kmemCacheAlloc s.cache s.mem page
    { s with
      cache := c
      mem := m
      live := if obj = 0 then s.live else obj :: s.live
      taken := if s.cache.partialHead = 0 ∧ page ≠ 0 then s.taken ++ [page] else s.taken }
  | .free obj =>
    let (page, c, m) := kmemCacheFree s.cache s.mem obj
    { s with
      cache := c
      mem := m
      live := s.live.erase obj
      returned := s.returned ++ page.toList }
  | .scribble slot => { s with mem := { s.mem with slot := slot } }

/-- `pmm_alloc_page` gives a page that is not out, objects in use are freed, and writes go to
objects in use. -/
def SlabOp.Allowed (s : SlabState) : SlabOp → Prop
  | .alloc page => page = 0 ∨ (pageSize ∣ page ∧ page + pageSize ≤ 4294967296 ∧
      s.taken.count page = s.returned.count page)
  | .free obj => obj ∈ s.live
  | .scribble slot => ∀ a, (∀ o ∈ s.live, a < o ∨ o + s.cache.objSize ≤ a) →
      slot a = s.mem.slot a

def slabStart (c : KmemCache) (m : SlabMem) : SlabState := ⟨c, m, [], [], []⟩

variable {s : SlabState} {ps fs : List Nat} {free : Nat → List Nat}

section

variable (h : SlabInv s ps fs free)

include h

theorem SlabInv.nodup : (ps ++ fs).Nodup :=
  List.nodup_append'.mpr ⟨h.partialList.nodup, h.fullList.nodup, fun page hp hf => h.apart page hp hf⟩

theorem SlabInv.same_page (hpage : page ∈ ps ++ fs)
    (hpage' : page' ∈ ps ++ fs) (ho : o ∈ s.objects page) (ho' : o ∈ s.objects page') :
    page = page' :=
  h.layout.same_page (h.pages page hpage).aligned (h.pages page' hpage').aligned ho ho'

/-- There are no more pages than fuel. -/
theorem SlabInv.length_le : (ps ++ fs).length ≤ slabFuel := by
  have hsub : (ps ++ fs).map (· / pageSize) ⊆ List.range slabFuel := fun x hx => by
    obtain ⟨page, hpage, rfl⟩ := List.mem_map.mp hx
    have htop := (h.pages page hpage).top
    rw [List.mem_range]
    unfold pageSize slabFuel at *
    omega
  have hnodup : ((ps ++ fs).map (· / pageSize)).Nodup := by
    refine List.Nodup.map_on (fun p hp q hq heq => ?_) h.nodup
    have hpa := (h.pages p hp).aligned
    have hqa := (h.pages q hq).aligned
    unfold pageSize at *
    omega
  have := (hnodup.subperm hsub).length_le
  rwa [List.length_map, List.length_range] at this

omit h

theorem SlabInv.start (hlayout : Layout c.objSize c.objsPerSlab)
    (hpart : c.partialHead = 0) (hfull : c.fullHead = 0) (m : SlabMem) :
    SlabInv (slabStart c m) [] [] fun _ => [] := by
  refine ⟨hlayout, hpart, hfull, ?_, ?_, ?_, ?_, ?_, List.nodup_nil, List.Perm.refl _⟩ <;>
    simp [slabStart]

/-! ## kmem_cache_alloc -/

/-- Memory after the first free object of a page was taken. -/
def SlabMem.pop (m : SlabMem) (page : Nat) : SlabMem :=
  { m with
    freeHead := update m.freeHead page (m.slot (m.freeHead page))
    nFree := update m.nFree page (m.nFree page - 1) }

theorem SlabMem.pop_nFree (m : SlabMem) (page : Nat) : (m.pop page).nFree page = m.nFree page - 1 :=
  update_self ..

theorem SlabMem.pop_freeHead (m : SlabMem) (page : Nat) :
    (m.pop page).freeHead page = m.slot (m.freeHead page) :=
  update_self ..

include h

theorem SlabInv.pop_pages {rest : List Nat}
    (hpage : page ∈ ps ++ fs) (hfree : free page = obj :: rest) :
    s.mem.freeHead page = obj ∧ obj ∉ s.live ∧ obj ≠ 0 ∧ obj ∈ s.objects page ∧
      (s.mem.pop page).nFree page = rest.length ∧
      ∀ q ∈ ps ++ fs, PageOk s.cache.objSize s.cache.objsPerSlab (s.mem.pop page) (obj :: s.live) q
        (update free page rest q) := by
  have hok := h.pages page hpage
  rw [hfree] at hok
  have hhead := hok.linked.1
  have hobj := hok.objs obj List.mem_cons_self
  refine ⟨hhead, ?_, hok.linked.2.1, hobj, ?_, fun q hq => ?_⟩
  · exact fun hlive => (hok.live obj hobj).mp hlive List.mem_cons_self
  · rw [SlabMem.pop_nFree, hok.count]
    rfl
  · by_cases hqp : q = page
    · subst hqp
      rw [update_self]
      refine ⟨hok.aligned, hok.top, ?_, ?_, fun o ho => hok.objs o (List.mem_cons_of_mem obj ho),
        fun o ho => ?_⟩
      · rw [SlabMem.pop_freeHead, hhead]
        exact hok.linked.2.2
      · rw [SlabMem.pop_nFree, hok.count]
        rfl
      · rw [List.mem_cons, hok.live o ho, List.mem_cons]
        have hnot := hok.linked.not_mem
        constructor
        · rintro (rfl | ho)
          · exact hnot
          · exact fun hmem => ho (.inr hmem)
        · intro hmem
          by_cases hoo : o = obj
          · exact .inl hoo
          · exact .inr (by simp [hoo, hmem])
    · rw [update_of_ne hqp]
      refine (h.pages q hq).frame ?_ ?_ (fun _ _ _ => rfl) fun o ho => ?_
      · exact update_of_ne hqp _ _
      · exact update_of_ne hqp _ _
      · rw [List.mem_cons, or_iff_right]
        rintro rfl
        exact hqp (h.same_page hq hpage ho hobj)

omit h

/-- The free lists of the pages on a list, when one page gets another one. -/
theorem free_update {P : List Nat → Prop} {new : List Nat} (hnew : page ∈ l → P new)
    (hold : ∀ q ∈ l, q ≠ page → P (free q)) : ∀ q ∈ l, P (update free page new q) :=
  (forall_update_iff free fun q f => q ∈ l → P f).mpr ⟨hnew, fun q hne hq => hold q hq hne⟩

/-- Taking an object from the first page of the partial list. -/
theorem SlabInv.allocFrom (h : SlabInv s (page :: ps) fs free) :
    ∃ obj c m, Mm.allocFrom s.cache s.mem page = (obj, c, m) ∧ obj ≠ 0 ∧
      ∃ ps' fs' free', SlabInv { s with cache := c, mem := m, live := obj :: s.live } ps' fs' free' := by
  obtain ⟨obj, rest, hfree⟩ := List.exists_cons_of_ne_nil (h.partialFree page List.mem_cons_self)
  obtain ⟨hhead, hfresh, hne, hobj, hcount, hpages⟩ :=
    h.pop_pages (List.mem_append_left fs List.mem_cons_self) hfree
  have hnotfs : page ∉ fs := h.apart page List.mem_cons_self
  have hnotps : page ∉ ps := h.partialList.not_mem
  have hcase : Mm.allocFrom s.cache s.mem page =
      if (s.mem.pop page).nFree page = 0 then
        (obj, { s.cache with partialHead := s.mem.next page, fullHead := page },
          { s.mem.pop page with next := update s.mem.next page s.cache.fullHead })
      else (obj, s.cache, s.mem.pop page) := by
    rw [← hhead]
    rfl
  rw [hcase, hcount]
  have hlive : ∀ o ∈ obj :: s.live, ∃ q ∈ page :: ps ++ fs, o ∈ s.objects q := by
    intro o ho
    rcases List.mem_cons.mp ho with rfl | ho
    · exact ⟨page, List.mem_append_left fs List.mem_cons_self, hobj⟩
    · exact h.liveIn o ho
  have honce := List.nodup_cons.mpr ⟨hfresh, h.once⟩
  by_cases hempty : rest.length = 0
  · -- the page goes to the full list
    rw [if_pos hempty]
    obtain rfl := List.length_eq_zero_iff.mp hempty
    have hperm : (ps ++ page :: fs).Perm (page :: ps ++ fs) := List.perm_middle
    refine ⟨obj, _, _, rfl, hne, ps, page :: fs, update free page [], h.layout, ?_, ?_, ?_,
      fun q hq => (hpages q (hperm.mem_iff.mp hq)).relink _, ?_, ?_, ?_, honce,
      h.held.trans (List.Perm.append_left _ hperm.symm)⟩
    · exact h.partialList.2.2.update hnotps _
    · exact h.fullList.push h.partialList.2.1 hnotfs
    · intro q hq hmem
      rcases List.mem_cons.mp hmem with rfl | hmem
      · exact hnotps hq
      · exact h.apart q (List.mem_cons_of_mem page hq) hmem
    · exact free_update (P := (· ≠ [])) (absurd · hnotps)
        fun q hq _ => h.partialFree q (List.mem_cons_of_mem page hq)
    · exact free_update (P := (· = [])) (fun _ => rfl)
        fun q hq hne => h.fullFree q ((List.mem_cons.mp hq).resolve_left hne)
    · intro o ho
      obtain ⟨q, hq, hoq⟩ := hlive o ho
      exact ⟨q, hperm.mem_iff.mpr hq, hoq⟩
  · rw [if_neg hempty]
    refine ⟨obj, _, _, rfl, hne, page :: ps, fs, update free page rest, h.layout,
      h.partialList, h.fullList, h.apart, hpages, ?_, ?_, hlive, honce, h.held⟩
    · exact free_update (P := (· ≠ [])) (fun _ hnil => hempty (by rw [hnil]; rfl))
        fun q hq _ => h.partialFree q hq
    · exact free_update (P := (· = [])) (absurd · hnotfs) fun q hq _ => h.fullFree q hq

include h

/-- A page that is not out is on no list. -/
theorem SlabInv.not_held (hout : s.taken.count page = s.returned.count page) : page ∉ ps ++ fs := by
  have hcount := h.held.count_eq page
  rw [List.count_append, hout] at hcount
  exact List.count_eq_zero.mp (by omega)

omit h

/-- A new page on an empty partial list. -/
theorem SlabInv.grow (h : SlabInv s [] fs free) (hne : page ≠ 0)
    (haligned : pageSize ∣ page) (htop : page + pageSize ≤ 4294967296)
    (hout : s.taken.count page = s.returned.count page) :
    ∃ c m, slabGrow s.cache s.mem page = (page, c, m) ∧
      SlabInv { s with cache := c, mem := m, taken := s.taken ++ [page] } [page] fs
        (update free page (s.objects page)) := by
  have hnew : page ∉ fs := h.not_held hout
  have hneq : ∀ q ∈ fs, q ≠ page := fun q hq hqp => hnew (hqp ▸ hq)
  have hempty : s.cache.partialHead = 0 := h.partialList
  unfold slabGrow
  rw [if_neg hne]
  refine ⟨_, _, rfl, h.layout, ⟨rfl, hne, ?_⟩, (h.fullList.update hnew _).update hnew _, ?_, ?_, ?_,
    ?_, ?_, h.once, ?_⟩
  · show update _ page _ page = 0
    rw [update_self, hempty]
  · intro q hq
    rw [List.mem_singleton.mp hq]
    exact hnew
  · intro q hq
    refine PageOk.relink ?_ _
    rcases List.mem_append.mp hq with hq | hq
    · rw [List.mem_singleton.mp hq, update_self]
      refine ⟨haligned, htop, ?_, ?_, fun o ho => ho, fun o ho => ?_⟩
      · rw [show (slabFormat s.cache s.mem page).freeHead page = page + slabHdrSz from
          update_self ..]
        exact slabFormat_linked h.layout s.mem page
      · rw [show (slabFormat s.cache s.mem page).nFree page = s.cache.objsPerSlab from
          update_self .., objects_length]
      · refine iff_of_false (fun hlive => ?_) fun hnot => hnot ho
        obtain ⟨q, hq, hoq⟩ := h.liveIn o hlive
        have := h.layout.same_page haligned (h.pages q hq).aligned ho hoq
        exact hnew (this ▸ hq)
    · rw [update_of_ne (hneq q hq)]
      refine (h.pages q hq).frame ?_ ?_ (fun o ho _ => ?_) fun _ _ => Iff.rfl
      · exact update_of_ne (hneq q hq) _ _
      · exact update_of_ne (hneq q hq) _ _
      · refine (slabFormat_slot h.layout s.mem page).2 o fun ho' => hneq q hq ?_
        exact h.layout.same_page (h.pages q hq).aligned haligned ho ho'
  · intro q hq
    rw [List.mem_singleton.mp hq, update_self]
    exact List.ne_nil_of_length_pos (by rw [objects_length]; exact h.layout.some)
  · exact free_update (P := (· = [])) (absurd · hnew) fun q hq _ => h.fullFree q hq
  · intro o ho
    obtain ⟨q, hq, hoq⟩ := h.liveIn o ho
    exact ⟨q, List.mem_append_right [page] hq, hoq⟩
  · refine (List.Perm.append_right [page] h.held).trans ?_
    rw [List.append_assoc]
    exact List.Perm.append_left _ List.perm_append_comm

theorem slabStep_alloc (h : kmemCacheAlloc s.cache s.mem page = (obj, c, m)) :
    slabStep s (.alloc page) =
      { s with
        cache := c
        mem := m
        live := if obj = 0 then s.live else obj :: s.live
        taken := if s.cache.partialHead = 0 ∧ page ≠ 0 then s.taken ++ [page] else s.taken } := by
  simp only [slabStep, h]

include h

theorem SlabInv.alloc (hpage : SlabOp.Allowed s (.alloc page)) :
    ∃ ps' fs' free', SlabInv (slabStep s (.alloc page)) ps' fs' free' := by
  cases ps with
  | nil =>
    have hempty : s.cache.partialHead = 0 := h.partialList
    by_cases hne : page = 0
    · have halloc : kmemCacheAlloc s.cache s.mem page = (0, s.cache, s.mem) := by
        unfold kmemCacheAlloc slabGrow
        rw [if_pos hempty, if_pos hne]
        rfl
      rw [slabStep_alloc halloc, if_pos rfl, if_neg fun hc => hc.2 hne]
      exact ⟨[], fs, free, h⟩
    · obtain ⟨haligned, htop, hout⟩ := hpage.resolve_left hne
      obtain ⟨c, m, hgrow, hinv⟩ := h.grow hne haligned htop hout
      obtain ⟨obj, c', m', hfrom, hobj, hinv'⟩ := hinv.allocFrom
      have halloc : kmemCacheAlloc s.cache s.mem page = (obj, c', m') := by
        unfold kmemCacheAlloc
        rw [if_pos hempty, hgrow]
        exact (if_neg hne).trans hfrom
      rw [slabStep_alloc halloc, if_neg hobj, if_pos ⟨hempty, hne⟩]
      exact hinv'
  | cons slab ps =>
    have hhead : s.cache.partialHead = slab := h.partialList.1
    have hne : s.cache.partialHead ≠ 0 := hhead ▸ h.partialList.2.1
    obtain ⟨obj, c', m', hfrom, hobj, hinv'⟩ := h.allocFrom
    have halloc : kmemCacheAlloc s.cache s.mem page = (obj, c', m') := by
      unfold kmemCacheAlloc
      rw [if_neg hne, hhead]
      exact hfrom
    rw [slabStep_alloc halloc, if_neg hobj, if_neg fun hc => hne hc.1]
    exact hinv'

omit h

/-! ## kmem_cache_free -/

/-- Memory after an object was put back on the free list of its page. -/
def SlabMem.push (m : SlabMem) (page obj : Nat) : SlabMem :=
  { m with
    slot := update m.slot obj (m.freeHead page)
    freeHead := update m.freeHead page obj
    nFree := update m.nFree page (m.nFree page + 1) }

include h

theorem SlabInv.push_pages (hpage : page ∈ ps ++ fs)
    (hobj : obj ∈ s.objects page) (hlive : obj ∈ s.live) :
    ∀ q ∈ ps ++ fs, PageOk s.cache.objSize s.cache.objsPerSlab (s.mem.push page obj)
      (s.live.erase obj) q (update free page (obj :: free page) q) := by
  have hok := h.pages page hpage
  have hnot : obj ∉ free page := (hok.live obj hobj).mp hlive
  have hne : obj ≠ 0 := by
    obtain ⟨i, -, rfl⟩ := mem_objects.mp hobj
    unfold objAt slabHdrSz
    omega
  intro q hq
  by_cases hqp : q = page
  · subst hqp
    rw [update_self]
    refine ⟨hok.aligned, hok.top, ?_, ?_, fun o ho => ?_, fun o ho => ?_⟩
    · rw [show (s.mem.push q obj).freeHead q = obj from update_self ..]
      exact hok.linked.push hne hnot
    · rw [show (s.mem.push q obj).nFree q = s.mem.nFree q + 1 from update_self ..,
        hok.count, List.length_cons]
    · rcases List.mem_cons.mp ho with rfl | ho
      · exact hobj
      · exact hok.objs o ho
    · rw [h.once.mem_erase_iff, hok.live o ho, List.mem_cons, not_or]
  · rw [update_of_ne hqp]
    have hother : ∀ o ∈ s.objects q, o ≠ obj := by
      rintro o ho rfl
      exact hqp (h.same_page hq hpage ho hobj)
    refine (h.pages q hq).frame ?_ ?_ (fun o ho _ => ?_) fun o ho => ?_
    · exact update_of_ne hqp _ _
    · exact update_of_ne hqp _ _
    · exact update_of_ne (hother o ho) _ _
    · rw [h.once.mem_erase_iff, and_iff_right (hother o ho)]

omit h

/-- A page with as many free objects as it has objects has none in use. -/
theorem PageOk.all_free
    {free : List Nat} (h : PageOk size n m live page free) (hcount : m.nFree page = n) :
    ∀ o ∈ objects size n page, o ∉ live := by
  have hsub : free.Subperm (objects size n page) := h.linked.nodup.subperm h.objs
  have hperm := hsub.perm_of_length_le
    (by rw [← h.count, hcount, objects_length])
  intro o ho hlive
  exact (h.live o ho).mp hlive (hperm.mem_iff.mpr ho)

theorem slabStep_free {page : Option Nat} (h : kmemCacheFree s.cache s.mem obj = (page, c, m)) :
    slabStep s (.free obj) =
      { s with
        cache := c
        mem := m
        live := s.live.erase obj
        returned := s.returned ++ page.toList } := by
  simp only [slabStep, h]

include h

theorem SlabInv.liveIn_erase (ho : o ∈ s.live.erase obj) : ∃ q ∈ ps ++ fs, o ∈ s.objects q :=
  h.liveIn o (List.mem_of_mem_erase ho)

/-- An object of a full page is freed: the page goes to the partial list. -/
theorem SlabInv.free_full (hpage : page ∈ fs) (hpageOf : pageOf obj = page)
    (hobj : obj ∈ s.objects page) (hlive : obj ∈ s.live) :
    SlabInv (slabStep s (.free obj)) (page :: ps) (fs.erase page)
      (update free page (obj :: free page)) := by
  have hin : page ∈ ps ++ fs := List.mem_append_right ps hpage
  have hcount : s.mem.nFree page = 0 := by
    rw [(h.pages page hin).count, h.fullFree page hpage]
    rfl
  have hnotps : page ∉ ps := fun hp => h.apart page hp hpage
  have hnotfs : page ∉ fs.erase page := fun hmem => (h.fullList.nodup.mem_erase_iff.mp hmem).1 rfl
  have hpages := h.push_pages hin hobj hlive
  obtain ⟨hremoved, hsame⟩ := listRemove_spec page h.fullList
    (Nat.le_trans (List.length_append ▸ Nat.le_add_left _ _) h.length_le)
  have hstep : kmemCacheFree s.cache s.mem obj =
      (none, { s.cache with partialHead := page
                            fullHead := (listRemove s.mem.next s.cache.fullHead page).1 },
        { s.mem.push page obj with
          next := update (listRemove s.mem.next s.cache.fullHead page).2 page
            s.cache.partialHead }) := by
    unfold kmemCacheFree
    simp only [hpageOf, if_pos hcount]
    rfl
  rw [slabStep_free hstep]
  have hperm : (page :: ps ++ fs.erase page).Perm (ps ++ fs) := by
    have hmiddle : (ps ++ page :: fs.erase page).Perm (page :: ps ++ fs.erase page) :=
      List.perm_middle
    exact hmiddle.symm.trans (List.Perm.append_left ps (List.perm_cons_erase hpage).symm)
  refine ⟨h.layout, ?_, hremoved.update hnotfs _, ?_,
    fun q hq => (hpages q (hperm.mem_iff.mp hq)).relink _, ?_, ?_, ?_, h.once.erase obj, ?_⟩
  · have hps := h.partialList.congr fun q hq => hsame q (h.apart q hq)
    exact hps.push (h.fullList.ne_zero hpage) hnotps
  · intro q hq hmem
    rcases List.mem_cons.mp hq with rfl | hq
    · exact hnotfs hmem
    · exact h.apart q hq (List.mem_of_mem_erase hmem)
  · exact free_update (P := (· ≠ [])) (fun _ => List.cons_ne_nil _ _)
      fun q hq hne => h.partialFree q ((List.mem_cons.mp hq).resolve_left hne)
  · exact free_update (P := (· = [])) (absurd · hnotfs)
      fun q hq _ => h.fullFree q (List.mem_of_mem_erase hq)
  · intro o ho
    obtain ⟨q, hq, hoq⟩ := h.liveIn_erase ho
    exact ⟨q, hperm.mem_iff.mpr hq, hoq⟩
  · rw [Option.toList_none, List.append_nil]
    exact h.held.trans (List.Perm.append_left _ hperm.symm)

/-- An object of a partial page is freed: the page goes back if it was the last one in use. -/
theorem SlabInv.free_partial (hpage : page ∈ ps) (hpageOf : pageOf obj = page)
    (hobj : obj ∈ s.objects page) (hlive : obj ∈ s.live) :
    ∃ ps', SlabInv (slabStep s (.free obj)) ps' fs
      (update free page (obj :: free page)) := by
  have hin : page ∈ ps ++ fs := List.mem_append_left fs hpage
  have hcount : s.mem.nFree page ≠ 0 := by
    rw [(h.pages page hin).count]
    exact fun h0 => h.partialFree page hpage (List.length_eq_zero_iff.mp h0)
  have hnotfs : page ∉ fs := h.apart page hpage
  have hpages := h.push_pages hin hobj hlive
  have hpartFree : ∀ q ∈ ps, update free page (obj :: free page) q ≠ [] :=
    free_update (P := (· ≠ [])) (fun _ => List.cons_ne_nil _ _) fun q hq _ => h.partialFree q hq
  have hfullFree : ∀ q ∈ fs, update free page (obj :: free page) q = [] :=
    free_update (P := (· = [])) (absurd · hnotfs) fun q hq _ => h.fullFree q hq
  by_cases hlast : (s.mem.push page obj).nFree page = s.cache.objsPerSlab
  · have hnotps : page ∉ ps.erase page :=
      fun hmem => (h.partialList.nodup.mem_erase_iff.mp hmem).1 rfl
    obtain ⟨hremoved, hsame⟩ := listRemove_spec page h.partialList
      (Nat.le_trans (List.length_append ▸ Nat.le_add_right _ _) h.length_le)
    have hstep : kmemCacheFree s.cache s.mem obj =
        (some page, { s.cache with partialHead := (listRemove s.mem.next s.cache.partialHead page).1 },
          { s.mem.push page obj with
            next := (listRemove s.mem.next s.cache.partialHead page).2 }) := by
      unfold kmemCacheFree
      simp only [hpageOf, if_neg hcount]
      exact if_pos hlast
    rw [slabStep_free hstep]
    have hnone := (hpages page hin).all_free hlast
    refine ⟨ps.erase page, h.layout, hremoved, ?_, ?_, fun q hq => ?_, ?_, hfullFree, ?_,
      h.once.erase obj, ?_⟩
    · exact h.fullList.congr fun q hq => hsame q fun hps => h.apart q hps hq
    · exact fun q hq => h.apart q (List.mem_of_mem_erase hq)
    · refine (hpages q ?_).relink _
      exact List.mem_append.mpr ((List.mem_append.mp hq).imp_left List.mem_of_mem_erase)
    · exact fun q hq => hpartFree q (List.mem_of_mem_erase hq)
    · intro o ho
      obtain ⟨q, hq, hoq⟩ := h.liveIn_erase ho
      have hqp : q ≠ page := fun hqp => hnone o (hqp ▸ hoq) ho
      refine ⟨q, List.mem_append.mpr ((List.mem_append.mp hq).imp_left fun hq => ?_), hoq⟩
      exact (List.mem_erase_of_ne hqp).mpr hq
    · refine h.held.trans ?_
      rw [Option.toList_some, List.append_assoc]
      refine List.Perm.append_left _ ?_
      exact List.Perm.append_right fs (List.perm_cons_erase hpage)
  · have hstep : kmemCacheFree s.cache s.mem obj = (none, s.cache, s.mem.push page obj) := by
      unfold kmemCacheFree
      simp only [hpageOf, if_neg hcount]
      exact if_neg hlast
    rw [slabStep_free hstep]
    refine ⟨ps, h.layout, h.partialList, h.fullList, h.apart, hpages, hpartFree, hfullFree,
      fun o ho => h.liveIn_erase ho, h.once.erase obj, ?_⟩
    rw [Option.toList_none, List.append_nil]
    exact h.held

theorem SlabInv.free_obj (hlive : obj ∈ s.live) :
    ∃ ps' fs' free', SlabInv (slabStep s (.free obj)) ps' fs' free' := by
  obtain ⟨page, hpage, hobj⟩ := h.liveIn obj hlive
  have hpageOf : pageOf obj = page := by
    obtain ⟨i, hi, rfl⟩ := mem_objects.mp hobj
    exact h.layout.pageOf_objAt (h.pages page hpage).aligned hi
  rcases List.mem_append.mp hpage with hps | hfs
  · obtain ⟨ps', hinv⟩ := h.free_partial hps hpageOf hobj hlive
    exact ⟨ps', _, _, hinv⟩
  · exact ⟨_, _, _, h.free_full hfs hpageOf hobj hlive⟩

/-- Objects that do not overlap, also across pages. -/
theorem SlabInv.objects_apart {o' : Nat} (hpage : page ∈ ps ++ fs) (hpage' : page' ∈ ps ++ fs)
    (ho : o ∈ s.objects page) (ho' : o' ∈ s.objects page') (hne : o ≠ o') :
    o + s.cache.objSize ≤ o' ∨ o' + s.cache.objSize ≤ o := by
  obtain ⟨i, hi, rfl⟩ := mem_objects.mp ho
  obtain ⟨j, hj, rfl⟩ := mem_objects.mp ho'
  exact h.layout.apart (h.pages page hpage).aligned (h.pages page' hpage').aligned hi hj hne

/-- Writes to objects in use leave the free lists. -/
theorem SlabInv.scribble {slot : Nat → Nat} (hslot : SlabOp.Allowed s (.scribble slot)) :
    SlabInv (slabStep s (.scribble slot)) ps fs free := by
  refine ⟨h.layout, h.partialList, h.fullList, h.apart, fun q hq => ?_, h.partialFree, h.fullFree,
    h.liveIn, h.once, h.held⟩
  refine (h.pages q hq).frame rfl rfl (fun o ho hfree => hslot o fun o' ho' => ?_) fun _ _ => Iff.rfl
  obtain ⟨q', hq', hoq'⟩ := h.liveIn o' ho'
  have hne : o ≠ o' := by
    rintro rfl
    exact ((h.pages q hq).live o ho).mp ho' hfree
  have := h.objects_apart hq hq' ho hoq' hne
  omega

omit h

theorem SlabInv.step {op : SlabOp} (h : ∃ ps fs free, SlabInv s ps fs free) (hop : op.Allowed s) :
    ∃ ps fs free, SlabInv (slabStep s op) ps fs free := by
  obtain ⟨ps, fs, free, h⟩ := h
  cases op with
  | alloc page => exact h.alloc hop
  | free obj => exact h.free_obj hop
  | scribble slot => exact ⟨ps, fs, free, h.scribble hop⟩

/-! ## What the lists mean -/

/-- A cache in order, with the pages of its two lists. -/
structure SlabOrder (s : SlabState) (ps fs : List Nat) : Prop where
  partialList : Linked s.mem.next s.cache.partialHead ps
  fullList : Linked s.mem.next s.cache.fullHead fs
  /-- a page is on one list, once -/
  once : (ps ++ fs).Nodup
  which : ∀ page ∈ ps ++ fs, page ∈ ps ↔ s.mem.nFree page ≠ 0
  /-- the free list of a page has `n_free` objects, none in use -/
  freeList : ∀ page ∈ ps ++ fs, ∃ free, Linked s.mem.slot (s.mem.freeHead page) free ∧
    s.mem.nFree page = free.length ∧ ∀ o ∈ free, pageOf o = page ∧ o ∉ s.live
  /-- the objects in use do not overlap -/
  liveOnce : s.live.Nodup
  liveApart : ∀ o ∈ s.live, ∀ o' ∈ s.live, o ≠ o' →
    o + s.cache.objSize ≤ o' ∨ o' + s.cache.objSize ≤ o
  /-- they are in a page of the cache, behind its header -/
  liveInside : ∀ o ∈ s.live, pageOf o ∈ ps ++ fs ∧ pageOf o + slabHdrSz ≤ o ∧
    o + s.cache.objSize ≤ pageOf o + pageSize
  /-- each page taken was returned once, or is by `kmem_cache_destroy` -/
  destroyed : s.taken.Perm (s.returned ++ kmemCacheDestroy s.cache s.mem)

include h

theorem SlabInv.destroy : kmemCacheDestroy s.cache s.mem = ps ++ fs := by
  have hlen := h.length_le
  rw [List.length_append] at hlen
  unfold kmemCacheDestroy
  rw [destroyLoop_eq h.partialList (by omega), destroyLoop_eq h.fullList (by omega)]

theorem SlabInv.which (hpage : page ∈ ps ++ fs) : page ∈ ps ↔ s.mem.nFree page ≠ 0 := by
  rw [(h.pages page hpage).count, ne_eq, List.length_eq_zero_iff]
  refine ⟨h.partialFree page, fun hne => ?_⟩
  exact (List.mem_append.mp hpage).resolve_right fun hfs => hne (h.fullFree page hfs)

theorem SlabInv.order : SlabOrder s ps fs where
  partialList := h.partialList
  fullList := h.fullList
  once := h.nodup
  which := fun _ hpage => h.which hpage
  freeList := fun page hpage => by
    have hok := h.pages page hpage
    refine ⟨free page, hok.linked, hok.count, fun o ho => ?_⟩
    have hobj := hok.objs o ho
    refine ⟨?_, fun hlive => (hok.live o hobj).mp hlive ho⟩
    obtain ⟨i, hi, rfl⟩ := mem_objects.mp hobj
    exact h.layout.pageOf_objAt hok.aligned hi
  liveOnce := h.once
  liveApart := fun o ho o' ho' hne => by
    obtain ⟨page, hpage, hobj⟩ := h.liveIn o ho
    obtain ⟨page', hpage', hobj'⟩ := h.liveIn o' ho'
    exact h.objects_apart hpage hpage' hobj hobj' hne
  liveInside := fun o ho => by
    obtain ⟨page, hpage, hobj⟩ := h.liveIn o ho
    obtain ⟨i, hi, rfl⟩ := mem_objects.mp hobj
    rw [h.layout.pageOf_objAt (h.pages page hpage).aligned hi]
    exact ⟨hpage, h.layout.bounds page hi⟩
  destroyed := by
    rw [h.destroy]
    exact h.held

end

/-- The size of the objects of a cache stays. -/
theorem slabStep_objSize (s : SlabState) (op : SlabOp) :
    (slabStep s op).cache.objSize = s.cache.objSize := by
  have hfrom : ∀ c m page, (allocFrom c m page).2.1.objSize = c.objSize := fun c m page => by
    unfold allocFrom
    dsimp only
    split <;> rfl
  cases op with
  | alloc page =>
    show (kmemCacheAlloc s.cache s.mem page).2.1.objSize = _
    unfold kmemCacheAlloc slabGrow
    split
    · by_cases hpage : page = 0
      · rw [if_pos hpage]
        rfl
      · rw [if_neg hpage]
        dsimp only
        rw [if_neg hpage]
        exact hfrom _ _ _
    · exact hfrom _ _ _
  | free obj =>
    show (kmemCacheFree s.cache s.mem obj).2.1.objSize = _
    unfold kmemCacheFree
    dsimp only
    split
    · rfl
    · split <;> rfl
  | scribble slot => rfl

/-! ## kmem_cache_create -/

theorem kmemCacheCreate_cache {mem : Bool} (h : kmemCacheCreate objSize mem = .cache c) :
    Layout c.objSize c.objsPerSlab ∧ c.partialHead = 0 ∧ c.fullHead = 0 ∧
      c.objSize = u32 ((if objSize < 4 then 4 else objSize) + 3) / 4 * 4 := by
  unfold kmemCacheCreate at h
  dsimp only at h
  generalize u32 ((if objSize < 4 then 4 else objSize) + 3) / 4 * 4 = size at h
  split at h
  · cases h
  · next hsize =>
    split at h
    · cases h
    · next hobjs =>
      split at h
      · cases h
      · cases h
        refine ⟨⟨Nat.pos_of_ne_zero hsize, Nat.pos_of_ne_zero hobjs, ?_⟩, rfl, rfl, rfl⟩
        have := Nat.div_mul_le_self (pageSize - slabHdrSz) size
        unfold pageSize slabHdrSz at *
        dsimp only
        omega

theorem kmemCacheCreate_ok_iff (hword : objSize < 4294967296) :
    (∀ mem, kmemCacheCreate objSize mem ≠ .divideError ∧
      ∀ c, kmemCacheCreate objSize mem = .cache c → objSize ≤ c.objSize) ↔
      objSize ≤ 0xFFFFFFFC := by
  constructor
  · intro h
    by_contra hbig
    refine (h true).1 ?_
    have hzero : u32 ((if objSize < 4 then 4 else objSize) + 3) / 4 * 4 = 0 := by
      rw [if_neg (by omega)]
      unfold u32
      omega
    unfold kmemCacheCreate
    rw [if_pos hzero]
  · intro hle mem
    have hround : objSize ≤ u32 ((if objSize < 4 then 4 else objSize) + 3) / 4 * 4 ∧
        u32 ((if objSize < 4 then 4 else objSize) + 3) / 4 * 4 ≠ 0 := by
      unfold u32
      split <;> omega
    refine ⟨fun h => ?_, fun c hc => ?_⟩
    · unfold kmemCacheCreate at h
      dsimp only at h
      rw [if_neg hround.2] at h
      generalize u32 ((if objSize < 4 then 4 else objSize) + 3) / 4 * 4 = size at h
      split at h
      · cases h
      · split at h <;> cases h
    · rw [(kmemCacheCreate_cache hc).2.2.2]
      exact hround.1

/-- `kmem_cache_create` fails or gives a cache of objects of the size asked for exactly if
that is at most `0xFFFFFFFC`, and each cache that it gives stays in order. -/
theorem slab_cache {objSize : Nat} (hword : objSize < 4294967296) :
    ((∀ mem, kmemCacheCreate objSize mem ≠ .divideError ∧
      ∀ c, kmemCacheCreate objSize mem = .cache c → objSize ≤ c.objSize) ↔
        objSize ≤ 0xFFFFFFFC) ∧
      ∀ mem c, kmemCacheCreate objSize mem = .cache c → ∀ m s,
        Reach slabStep SlabOp.Allowed (slabStart c m) s →
          s.cache.objSize = c.objSize ∧ ∃ ps fs, SlabOrder s ps fs := by
  refine ⟨kmemCacheCreate_ok_iff hword, fun mem c hc m s hs => ⟨?_, ?_⟩⟩
  · exact hs.inv (fun s => s.cache.objSize = c.objSize) rfl
      fun s op h _ => (slabStep_objSize s op).trans h
  · obtain ⟨hlayout, hpart, hfull, -⟩ := kmemCacheCreate_cache hc
    obtain ⟨ps, fs, free, hinv⟩ := hs.inv (fun s => ∃ ps fs free, SlabInv s ps fs free)
      ⟨_, _, _, SlabInv.start hlayout hpart hfull m⟩ fun _ _ h hop => SlabInv.step h hop
    exact ⟨ps, fs, hinv.order⟩

theorem slab_cache_hundred :
    let m : SlabMem := ⟨fun _ => 0, fun _ => 0, fun _ => 0, fun _ => 0⟩
    let s := slabStep (slabStart ⟨100, 40, 0, 0⟩ m) (.alloc 0x1000)
    kmemCacheCreate 100 true = .cache ⟨100, 40, 0, 0⟩ ∧ s.live = [0x100C] ∧
      ∃ ps fs, SlabOrder s ps fs :=
  ⟨rfl, by decide, ((slab_cache (show 100 < 4294967296 by decide)).2 true ⟨100, 40, 0, 0⟩ rfl _ _
    (Reach.step (SlabOp.alloc 0x1000) Reach.start (.inr ⟨by decide, by decide, rfl⟩))).2⟩

/-- Sizes above `0xFFFFFFFC` are rounded up to zero. -/
theorem create_divides_by_zero : kmemCacheCreate 0xFFFFFFFD true = .divideError := by
  rfl

end Drunix.Mm
