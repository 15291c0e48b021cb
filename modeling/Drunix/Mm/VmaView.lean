import Drunix.Mm.VmaInv

/-!
# What the VMA table says of an address

`vma_unmap_range` and `vma_protect_range` (`mm/vma.c`), address by address: `infoAt` is
what the table says of an address, and `unmap_pointwise`, `protect_pointwise` say when the calls
succeed and what the table says then. Both passes agree, so a rebuilt table always has room.

An area of another kind stops `vma_protect_range` even where it is empty, so a range that the
mappings cover may be refused (`empty_heap_refuses`).

Mirroring notes:
- A range overlaps an area as `vma_overlaps` has it: an empty area counts if it lies strictly
  inside.
- A table that is not `dynamic` has the 16 entries of `process_t`.
-/

namespace Drunix.Mm

open Lib

/-- What is known of an address; only areas with a file have a position in it. -/
structure AddrInfo where
  flags : VmaFlags
  kind : VmaKind
  mountId : Nat
  inodeNum : Nat
  fileSize : Nat
  filePos : Option Nat
deriving DecidableEq

def VmArea.Holds (v : VmArea) (addr : Nat) : Prop := v.start ≤ addr ∧ addr < v.stop

instance (v : VmArea) (addr : Nat) : Decidable (v.Holds addr) := inferInstanceAs (Decidable (_ ∧ _))

def VmArea.info (v : VmArea) (addr : Nat) : AddrInfo where
  flags := v.flags
  kind := v.kind
  mountId := v.mountId
  inodeNum := v.inodeNum
  fileSize := v.fileSize
  filePos := if vmaIsFileBacked v then some (u32 (v.fileOffset + (addr - v.start))) else none

def VmArea.look (v : VmArea) (addr : Nat) : Option AddrInfo :=
  if v.Holds addr then some (v.info addr) else none

/-- What the table says of an address: none, where no area has it. -/
def infoAt (l : List VmArea) (addr : Nat) : Option AddrInfo := l.findSome? fun v => v.look addr

/-- The address gets the protection `new`. -/
def AddrInfo.protect (i : AddrInfo) (new : VmaFlags) : AddrInfo :=
  { i with flags := vmaReplaceProtFlags i.flags new }

/-! ## Pieces -/

section Pieces

variable {start stop addr cap : Nat} {new : Option VmaFlags} {vs l l' : List VmArea}
  {v p area : VmArea}

theorem infoAt_cons : infoAt (v :: l) addr = (v.look addr).or (infoAt l addr) := by
  unfold infoAt
  rw [List.findSome?_cons]
  cases v.look addr <;> rfl

theorem infoAt_append : infoAt (l ++ l') addr = (infoAt l addr).or (infoAt l' addr) :=
  List.findSome?_append

theorem infoAt_singleton : infoAt [v] addr = v.look addr := by
  rw [infoAt_cons]
  exact Option.or_none

theorem infoAt_eq_none : infoAt l addr = none ↔ ∀ v ∈ l, ¬ v.Holds addr := by
  unfold infoAt VmArea.look
  rw [List.findSome?_eq_none_iff]
  exact forall₂_congr fun v _ => by simp

theorem look_eq_none (h : ¬ v.Holds addr) : v.look addr = none := if_neg h

theorem infoAt_ite {c : Prop} [Decidable c] (h : ¬ c → p.stop ≤ p.start) :
    infoAt (if c then [p] else []) addr = p.look addr := by
  split
  · exact infoAt_singleton
  next hc =>
    have hempty := h hc
    exact (look_eq_none fun hp => by unfold VmArea.Holds at hp; omega).symm

/-- A slice says of its addresses what the area says. -/
theorem info_slice {s e : Nat} (hs : v.start ≤ s) (ha : s ≤ addr) :
    (vmaSlice v s e).info addr = v.info addr := by
  have hback : vmaIsFileBacked (vmaSlice v s e) = vmaIsFileBacked v := rfl
  unfold VmArea.info
  rw [hback]
  cases hf : vmaIsFileBacked v with
  | false => rfl
  | true =>
    have hpos : u32 ((vmaSlice v s e).fileOffset + (addr - (vmaSlice v s e).start)) =
        u32 (v.fileOffset + (addr - v.start)) := by
      unfold vmaSlice u32
      rw [hf]
      simp only [Bool.true_and, decide_eq_true_eq]
      split <;> omega
    rw [hpos]
    rfl

theorem look_eq {s e : Nat} {i : AddrInfo} (hs : p.start = s) (he : p.stop = e)
    (hi : s ≤ addr → p.info addr = i) :
    p.look addr = if s ≤ addr ∧ addr < e then some i else none := by
  subst hs he
  unfold VmArea.look
  split
  next hin =>
    rw [hi hin.1]
    exact (if_pos hin).symm
  next hin => exact (if_neg hin).symm

/-- The pieces of an area: nothing is said of the range, or that it has the new protection. -/
theorem infoAt_areaPieces (hlt : start < stop) (hv : v.start ≤ v.stop) :
    infoAt (areaPieces start stop new v) addr =
      if start ≤ addr ∧ addr < stop then new.bind fun flags => (v.look addr).map (·.protect flags)
      else v.look addr := by
  rw [look_eq rfl rfl fun _ => rfl]
  unfold areaPieces
  split
  next hov =>
    simp only [vmaOverlaps, decide_eq_true_eq] at hov
    have hleft : infoAt (if v.start < max start v.start then
        [vmaSlice v v.start (max start v.start)] else []) addr =
        if v.start ≤ addr ∧ addr < max start v.start then some (v.info addr) else none := by
      rw [infoAt_ite (by simp only [vmaSlice]; omega)]
      exact look_eq rfl rfl (info_slice le_rfl)
    have hright : infoAt (if min stop v.stop < v.stop then
        [vmaSlice v (min stop v.stop) v.stop] else []) addr =
        if min stop v.stop ≤ addr ∧ addr < v.stop then some (v.info addr) else none := by
      rw [infoAt_ite (by simp only [vmaSlice]; omega)]
      exact look_eq rfl rfl (info_slice (by omega))
    rw [infoAt_append, infoAt_append, hleft, hright]
    cases new with
    | none =>
      split_ifs <;> first | rfl | omega
    | some flags =>
      rw [Option.toList_some, List.map_cons, List.map_nil, infoAt_singleton,
        look_eq (s := max start v.start) (e := min stop v.stop) rfl
          rfl fun ha => congrArg (·.protect flags) (info_slice (by omega) ha)]
      split_ifs <;> first | rfl | omega
  next hov =>
    simp only [vmaOverlaps, decide_eq_true_eq] at hov
    rw [infoAt_singleton, look_eq rfl rfl fun _ => rfl]
    cases new <;> split_ifs <;> first | rfl | omega

theorem infoAt_pieces (hlt : start < stop) (h : ∀ v ∈ vs, v.start ≤ v.stop) :
    infoAt (vs.flatMap (areaPieces start stop new)) addr =
      if start ≤ addr ∧ addr < stop then new.bind fun flags => (infoAt vs addr).map (·.protect flags)
      else infoAt vs addr := by
  induction vs with
  | nil => cases new <;> exact (ite_self _).symm
  | cons v vs ih =>
    rw [List.flatMap_cons, infoAt_append, infoAt_areaPieces hlt (h v List.mem_cons_self),
      ih fun w hw => h w (List.mem_cons_of_mem v hw), infoAt_cons]
    split
    · cases new <;> cases v.look addr <;> rfl
    · rfl

/-! ## The rebuilt table -/

/-- Extending the last entry says the same as the area behind it. -/
theorem look_merge (hl : v.start ≤ v.stop) (ha : area.start ≤ area.stop)
    (hm : vmaCanMerge v area = true) :
    VmArea.look { v with stop := area.stop } addr = (v.look addr).or (area.look addr) := by
  unfold vmaCanMerge at hm
  split at hm
  · cases hm
  next hfile =>
  simp only [Bool.or_eq_true, not_or, Bool.not_eq_true] at hfile
  simp only [decide_eq_true_eq] at hm
  obtain ⟨hstop, hflags, hkind, -, hsize, hmount, hinode⟩ := hm
  have hinfo : VmArea.info { v with stop := area.stop } addr = v.info addr := rfl
  have hsame : area.info addr = v.info addr := by
    unfold VmArea.info
    rw [hfile.1, hfile.2, hflags, hkind, hsize, hmount, hinode]
    rfl
  have hlook : VmArea.look { v with stop := area.stop } addr =
      if v.start ≤ addr ∧ addr < area.stop then some (v.info addr) else none :=
    look_eq rfl rfl fun _ => hinfo
  rw [hlook, look_eq rfl rfl fun _ => rfl, look_eq rfl rfl fun _ => hsame]
  split_ifs <;> first | rfl | omega

theorem infoAt_merges (addr : Nat) (i : Option AddrInfo) :
    Merges fun l => VmaSorted l ∧ infoAt l addr = i := by
  rintro init last area r hc ⟨h, rfl⟩
  refine ⟨vmaSorted_merges init last area r hc h, ?_⟩
  rw [infoAt_append, infoAt_append, infoAt_cons, infoAt_cons, infoAt_cons,
    look_merge (h.wf last (by simp)) (h.wf area (by simp)) hc, Option.or_assoc]

/-- Where there is room for the areas, they can be appended. -/
theorem appendAll_some (hvs : ∀ v ∈ vs, v.start ≤ v.stop) (hroom : l.length + vs.length ≤ cap) :
    ∃ l', vs.foldlM (vmaAppendArea cap) l = some l' := by
  induction vs generalizing l with
  | nil => exact ⟨l, rfl⟩
  | cons v vs ih =>
    rw [List.length_cons] at hroom
    obtain ⟨l1, h1, hlen⟩ : ∃ l1, vmaAppendArea cap l v = some l1 ∧ l1.length ≤ l.length + 1 := by
      unfold vmaAppendArea mergeLast
      rw [if_neg (Nat.not_lt.mpr (hvs v List.mem_cons_self)), if_neg (by omega)]
      cases l.getLast? with
      | none => exact ⟨l ++ [v], rfl, by simp⟩
      | some last =>
        by_cases hm : vmaCanMerge last v = true
        · exact ⟨l.dropLast ++ [{ last with stop := v.stop }], by simp [hm], by simp⟩
        · exact ⟨l ++ [v], by simp [hm], by simp⟩
    obtain ⟨l', h'⟩ := ih (fun w hw => hvs w (List.mem_cons_of_mem v hw))
      (show l1.length + vs.length ≤ cap by omega)
    exact ⟨l', by rw [List.foldlM_cons, h1]; exact h'⟩

theorem growCapacity_ge {fuel nextCap needed c : Nat} (h : growCapacity fuel nextCap needed = some c) :
    needed ≤ c := by
  induction fuel generalizing nextCap with
  | zero => exact absurd h (by simp [growCapacity])
  | succ fuel ih =>
    unfold growCapacity at h
    split at h
    · split at h
      · cases h
      · exact ih h
    · exact Option.some.inj h ▸ Nat.not_lt.mp ‹_›

theorem vmaEnsureCapacity_ge {k : Kmalloc} {t t' : VmTable} {needed : Nat}
    (hcap : t.dynamic = false → t.capacity = 16) (h : vmaEnsureCapacity k t needed = some t') :
    needed ≤ t'.capacity := by
  unfold vmaEnsureCapacity at h
  split at h
  next hdyn =>
    split at h
    · cases h
      rw [hcap (by simpa using hdyn)]
      assumption
    · cases h
  split at h
  · exact Option.some.inj h ▸ ‹_›
  split at h
  · cases h
  next c hgrow =>
    split at h
    · exact Option.some.inj h ▸ growCapacity_ge hgrow
    · cases h

end Pieces

section Rebuilds

variable {k : Kmalloc} {t : VmTable} {start stop : Nat}

/-- A rebuilt table has room for the pieces, so only `ok` and the memory decide. -/
theorem Rebuilds.info {ok : Prop} {new : Option VmaFlags} {r : Int × VmTable}
    (hr : Rebuilds k t (start < stop ∧ ok) (t.areas.flatMap (areaPieces start stop new)) r)
    (h : VmaSorted t.areas) (hcap : t.dynamic = false → t.capacity = 16) (hlt : start < stop) :
    (r.1 = 0 ↔ ok ∧ ¬ OutOfMemory k t (t.areas.flatMap (areaPieces start stop new)).length) ∧
    (r.1 ≠ 0 → r.2.areas = t.areas) ∧
    (r.1 = 0 → VmaSorted r.2.areas ∧ ∀ addr, infoAt r.2.areas addr =
      if start ≤ addr ∧ addr < stop then
        new.bind fun flags => (infoAt t.areas addr).map (·.protect flags)
      else infoAt t.areas addr) := by
  have hsorted : VmaSorted (t.areas.flatMap (areaPieces start stop new)) :=
    flatMap_pieces_sorted hlt h
  rcases hr with ⟨hrc, hsame, hwhy⟩ | ⟨hok, hrc, hmem, t', ht, hl⟩
  · have hne : r.1 ≠ 0 := by omega
    refine ⟨iff_of_false hne fun ⟨hok, hmem⟩ => ?_, fun _ => hsame, fun h0 => absurd h0 hne⟩
    rcases hwhy ⟨hlt, hok⟩ with hout | ⟨t', ht, hnone⟩
    · exact hmem hout
    · obtain ⟨l', hl'⟩ := appendAll_some (l := []) hsorted.wf
        (by simpa using vmaEnsureCapacity_ge hcap ht)
      exact absurd (hnone.symm.trans hl') (by simp)
  · refine ⟨iff_of_true hrc ⟨hok.2, hmem⟩, fun h0 => absurd hrc h0, fun _ => ?_⟩
    refine ⟨rebuilt_sorted hlt h hl, fun addr => ?_⟩
    exact ((infoAt_merges addr _).appendAll (l := []) ⟨hsorted, rfl⟩ hl).2.trans
      (infoAt_pieces hlt h.wf)

/-- `vma_unmap_range` fails exactly if an area of another kind is in the way or memory runs out,
with the table as it was; and else nothing has the addresses of the range, and of every other
address the table says what it did. -/
theorem unmap_pointwise (h : VmaSorted t.areas) (hcap : t.dynamic = false → t.capacity = 16)
    (hlt : start < stop) :
    ((vmaUnmapRange k t start stop).1 ≠ 0 ↔
      (∃ v ∈ t.areas, vmaOverlaps v start stop = true ∧ v.kind ≠ .generic) ∨
        OutOfMemory k t (t.areas.flatMap (areaPieces start stop none)).length) ∧
    ((vmaUnmapRange k t start stop).1 ≠ 0 →
      (vmaUnmapRange k t start stop).2.areas = t.areas) ∧
    ((vmaUnmapRange k t start stop).1 = 0 → VmaSorted (vmaUnmapRange k t start stop).2.areas ∧
      (∀ addr, start ≤ addr → addr < stop →
        ∀ v ∈ (vmaUnmapRange k t start stop).2.areas, ¬ v.Holds addr) ∧
      ∀ addr, ¬ (start ≤ addr ∧ addr < stop) →
        infoAt (vmaUnmapRange k t start stop).2.areas addr = infoAt t.areas addr) := by
  obtain ⟨hok, hsame, hinfo⟩ := (vmaUnmapRange_rebuilds k t start stop).info h hcap hlt
  refine ⟨?_, hsame, fun h0 => ⟨(hinfo h0).1, fun addr ha hs => ?_, fun addr hout => ?_⟩⟩
  · rw [ne_eq, hok, not_and_or, not_not]
    push Not
    rfl
  · exact infoAt_eq_none.mp (((hinfo h0).2 addr).trans (if_pos ⟨ha, hs⟩))
  · exact ((hinfo h0).2 addr).trans (if_neg hout)

/-! ## vma_protect_range -/

/-- The first pass accepts a range that has no hole behind the cursor, and nothing of another
kind in it. -/
theorem protectCount_iff {vs : List VmArea} {cursor n : Nat} (hlt : start < stop)
    (h : VmaSorted vs) (hc : start ≤ cursor) (hstop : cursor ≤ stop)
    (hb : ∀ v ∈ vs, cursor ≤ v.start ∨ cursor = start) :
    (∃ needed, protectCount start stop vs cursor n = some needed) ↔
      (∀ v ∈ vs, vmaOverlaps v start stop = true → v.kind = .generic) ∧
        ∀ addr, cursor ≤ addr → addr < stop → ∃ v ∈ vs, v.Holds addr := by
  induction vs generalizing cursor n with
  | nil =>
    unfold protectCount
    constructor
    · rintro ⟨needed, hn⟩
      split at hn
      · cases hn
      · exact ⟨by simp, fun addr _ _ => by omega⟩
    · rintro ⟨-, hcover⟩
      rw [if_neg fun hne => by simpa using hcover cursor le_rfl (by omega)]
      exact ⟨n, rfl⟩
  | cons v vs ih =>
    obtain ⟨hv, hvs⟩ := List.pairwise_cons.mp h.ordered
    have htail : VmaSorted vs := ⟨fun w hw => h.wf w (List.mem_cons_of_mem v hw), hvs⟩
    have hvwf := h.wf v List.mem_cons_self
    have hvb := hb v List.mem_cons_self
    unfold protectCount
    simp only [List.forall_mem_cons, List.exists_mem_cons_iff]
    by_cases hov : vmaOverlaps v start stop = true
    · simp only [hov, Bool.not_true, Bool.false_eq_true, if_false, true_implies]
      simp only [vmaOverlaps, decide_eq_true_eq] at hov
      by_cases hk : v.kind = .generic
      · by_cases hcur : max start v.start = cursor
        · rw [if_neg (not_not.mpr hk), if_neg (not_not.mpr hcur),
            ih htail (by omega) (by omega) fun w hw => .inl (by have := hv w hw; omega)]
          refine and_congr (by simp [hk]) ⟨fun hcover addr ha hs => ?_, fun hcover addr ha hs => ?_⟩
          · by_cases hin : addr < v.stop
            · exact .inl ⟨by omega, hin⟩
            · exact .inr (hcover addr (by omega) hs)
          · exact (hcover addr (by omega) hs).resolve_left fun hin => by
              unfold VmArea.Holds at hin
              omega
        · -- nothing has the cursor: it is before the area, and behind what came earlier
          rw [if_neg (not_not.mpr hk), if_pos hcur]
          refine iff_of_false (by simp) fun hall => ?_
          rcases hall.2 cursor le_rfl (by omega) with hin | ⟨w, hw, hin⟩
          · unfold VmArea.Holds at hin
            omega
          · have := hv w hw
            unfold VmArea.Holds at hin
            omega
      · rw [if_pos hk]
        exact iff_of_false (by simp) fun hgen => hk hgen.1.1
    · simp only [hov, Bool.not_false, if_true, Bool.false_eq_true, false_implies, true_and]
      rw [ih htail hc hstop fun w hw => hb w (List.mem_cons_of_mem v hw)]
      simp only [vmaOverlaps, decide_eq_true_eq] at hov
      refine and_congr_right fun _ => forall₃_congr fun addr ha hs => ?_
      exact (or_iff_right fun hin => by unfold VmArea.Holds at hin; omega).symm

/-- `vma_protect_range` succeeds exactly if mappings cover the range without a hole, nothing of
another kind is in it, and memory does not run out. Then an address of the range keeps all but
the protection, and every other address keeps all. On failure the table is as it was. -/
theorem protect_pointwise (new : VmaFlags) (h : VmaSorted t.areas)
    (hcap : t.dynamic = false → t.capacity = 16) (hlt : start < stop) :
    ((vmaProtectRange k t start stop new).1 = 0 ↔
      ((∀ addr, start ≤ addr → addr < stop → ∃ v ∈ t.areas, v.kind = .generic ∧ v.Holds addr) ∧
        ∀ v ∈ t.areas, vmaOverlaps v start stop = true → v.kind = .generic) ∧
      ¬ OutOfMemory k t (t.areas.flatMap (areaPieces start stop (some new))).length) ∧
    ((vmaProtectRange k t start stop new).1 ≠ 0 →
      (vmaProtectRange k t start stop new).2.areas = t.areas) ∧
    ((vmaProtectRange k t start stop new).1 = 0 →
      VmaSorted (vmaProtectRange k t start stop new).2.areas ∧
      ∀ addr, infoAt (vmaProtectRange k t start stop new).2.areas addr =
        if start ≤ addr ∧ addr < stop then (infoAt t.areas addr).map (·.protect new)
        else infoAt t.areas addr) := by
  obtain ⟨hok, hsame, hinfo⟩ := (vmaProtectRange_rebuilds k t start stop new).info h hcap hlt
  refine ⟨hok.trans (and_congr_left fun _ => ?_), hsame, hinfo⟩
  rw [protectCount_iff hlt h le_rfl hlt.le fun _ _ => .inr rfl, and_comm]
  refine and_congr_left fun hgen => forall₃_congr fun addr ha hs => ?_
  refine exists_congr fun v => and_congr_right fun hv => (and_iff_right_of_imp fun hin => ?_).symm
  refine hgen v hv ?_
  simp only [vmaOverlaps, decide_eq_true_eq]
  unfold VmArea.Holds at hin
  omega

end Rebuilds

/-- Two mappings, and between them a heap of no bytes. -/
def aroundHeap : VmTable where
  areas := [{ start := 0x1000, stop := 0x2000, flags := {}, kind := .generic },
    { start := 0x2000, stop := 0x2000, flags := {}, kind := .heap },
    { start := 0x2000, stop := 0x3000, flags := {}, kind := .generic }]
  capacity := 32
  dynamic := true

theorem aroundHeap_sorted : VmaSorted aroundHeap.areas := ⟨by decide, by decide⟩

/-- The mappings cover the range, and the call refuses it. -/
theorem empty_heap_refuses : VmaSorted aroundHeap.areas ∧
    (∀ addr, 0x1000 ≤ addr → addr < 0x3000 →
      ∃ v ∈ aroundHeap.areas, v.kind = .generic ∧ v.Holds addr) ∧
    (vmaProtectRange ⟨true, true⟩ aroundHeap 0x1000 0x3000 {}).1 = -1 := by
  refine ⟨aroundHeap_sorted, fun addr hlo hhi => ?_, by decide⟩
  by_cases hlt : addr < 0x2000
  · exact ⟨_, List.mem_cons_self, rfl, hlo, hlt⟩
  · exact ⟨_, List.mem_cons_of_mem _ (List.mem_cons_of_mem _ List.mem_cons_self), rfl,
      Nat.not_lt.mp hlt, hhi⟩

theorem protect_pointwise_first :
    (vmaProtectRange ⟨true, true⟩ aroundHeap 0x1000 0x1800 { write := true }).1 = 0 ∧
    infoAt (vmaProtectRange ⟨true, true⟩ aroundHeap 0x1000 0x1800 { write := true }).2.areas 0x1800 =
      infoAt aroundHeap.areas 0x1800 :=
  ⟨by decide, ((protect_pointwise _ aroundHeap_sorted (by decide) (by decide)).2.2
    (by decide)).2 0x1800⟩

theorem unmap_pointwise_hole :
    (vmaUnmapRange ⟨true, true⟩ aroundHeap 0x1400 0x1800).1 = 0 ∧
    infoAt (vmaUnmapRange ⟨true, true⟩ aroundHeap 0x1400 0x1800).2.areas 0x1800 =
      infoAt aroundHeap.areas 0x1800 :=
  ⟨by decide, ((unmap_pointwise aroundHeap_sorted (by decide) (by decide)).2.2 (by decide)).2.2 0x1800
    (by decide)⟩

end Drunix.Mm
