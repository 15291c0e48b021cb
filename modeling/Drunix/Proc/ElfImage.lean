import Drunix.Mm.Isolation
import Drunix.Proc.Elf

/-!
# What the ELF loader leaves in memory

Three steps. Reading headers changes no memory and returns the header the file has
(`readElfPhdr_spec`), so the first pass knows of every segment what its checks say
(`Scanned`). A page loaded for the user sits on a frame that had no use, hence apart
from every page loaded before (`loadPage_spec`); what is then written to that frame is
seen at this page only (`Owns.userByte_setFrame`). The copy loop carries how many file
bytes are in place: up to there a segment shows the file, behind it zeroes
(`Copied`).
-/

namespace Drunix.Proc

open Lib Mm Function

/-! ## What the file says -/

/-- The ELF header of the file. -/
def VfsFile.ehdr (f : VfsFile) : Elf32Ehdr := ehdrOf (slice f.buf 0 52)

/-- Program header `i` of the file. -/
def VfsFile.phdr (f : VfsFile) (i : Nat) : Elf32Phdr :=
  phdrOf (slice f.buf (f.ehdr.phoff + i * f.ehdr.phentsize) 32)

variable {ph : Elf32Phdr} {x : Extent} {a k : Nat} {f : VfsFile}

namespace Elf32Phdr

/-- The pages a segment touches, as a set of addresses. -/
def pages (ph : Elf32Phdr) : Set Nat :=
  { a | ∃ b, ph.vaddr ≤ b ∧ b < ph.vaddr + ph.memsz ∧ b / 4096 = a / 4096 }

/-- The page-rounded start. -/
def start (ph : Elf32Phdr) : Nat := ph.vaddr / 4096 * 4096

/-- The page-rounded end. -/
def stop (ph : Elf32Phdr) : Nat := (ph.vaddr + ph.memsz + 0xFFF) / 4096 * 4096

/-- The byte the segment has at `a`: the file's, or zero. -/
def imageByte (f : VfsFile) (ph : Elf32Phdr) (a : Nat) : Option UInt8 :=
  if ph.vaddr ≤ a ∧ a < ph.vaddr + ph.filesz then f.content[ph.offset + (a - ph.vaddr)]? else some 0

theorem mem_pages (h : ph.memsz ≠ 0) : a ∈ ph.pages ↔ ph.start ≤ a ∧ a < ph.stop := by
  unfold pages start stop
  constructor
  · rintro ⟨b, hb, hb', hpage⟩
    omega
  · rintro ⟨hlo, hhi⟩
    by_cases hv : ph.vaddr ≤ a / 4096 * 4096
    · exact ⟨a / 4096 * 4096, hv, by omega, by omega⟩
    · exact ⟨ph.vaddr, Nat.le_refl _, by omega, by omega⟩

theorem isLoad_iff : ph.isLoad = true ↔ ph.type = ptLoad ∧ ph.memsz ≠ 0 := by
  unfold isLoad
  simp

/-- An empty segment has no pages. -/
theorem isLoad_of_mem_pages (ht : ph.type = ptLoad) (ha : a ∈ ph.pages) : ph.isLoad = true := by
  obtain ⟨b, hb, hb', -⟩ := ha
  exact isLoad_iff.mpr ⟨ht, by omega⟩

/-- What `arch_x86_elf_load_range` makes sure of. -/
structure Fits (ph : Elf32Phdr) : Prop where
  size : ph.filesz ≤ ph.memsz
  file : ph.filesz ≠ 0 → ph.offset + ph.filesz ≤ 0xFFFFFFFF
  word : ph.stop ≤ 0xFFFFFFFF
  pos : ph.start < ph.stop

end Elf32Phdr

theorem elfLoadRange_some {r : Nat × Nat} (h : archX86ElfLoadRange ph = some r) :
    r = (ph.start, ph.stop) ∧ ph.Fits := by
  unfold archX86ElfLoadRange at h
  dsimp only at h
  split at h
  · cases h
  next hsize =>
  split at h
  · cases h
  next hfile =>
  split at h
  · cases h
  next hword =>
  split at h
  · cases h
  next hpos =>
    refine ⟨(Option.some.inj h).symm, by omega, fun hne => ?_, ?_, ?_⟩
    · have := fun hlt => hfile ⟨hne, hlt⟩
      omega
    · unfold Elf32Phdr.stop
      omega
    · unfold Elf32Phdr.start Elf32Phdr.stop
      omega

/-! ## Reading headers -/

/-- Memory is as before. -/
def SameMem (s s' : LoadState) : Prop := s'.phys = s.phys ∧ s'.bytes = s.bytes

theorem SameMem.trans {s s' s'' : LoadState} (h : SameMem s s') (h' : SameMem s' s'') :
    SameMem s s'' := ⟨h'.1.trans h.1, h'.2.trans h.2⟩

theorem vfsRead_spec (f : VfsFile) (off count : Nat) (s : LoadState) :
    Ends (vfsRead f off count) s (fun r s' => SameMem s s' ∧ (r.1 = (count : Int) →
      r.2 = slice f.buf off count ∧ (0 < count → off + count ≤ f.content.length)))
      fun _ _ => True := by
  unfold vfsRead
  simp only [ends_bind, ends_get, ends_modify]
  split
  · refine ⟨⟨rfl, rfl⟩, fun hn => ?_⟩
    have hmin : min count (f.content.length - off) = count := Int.ofNat.inj hn
    exact ⟨by rw [hmin], fun hpos => by omega⟩
  · refine ⟨⟨rfl, rfl⟩, fun hn => ?_⟩
    exact absurd (show (-1 : Int) = count from hn) (by omega)

theorem readElfPhdr_spec (f : VfsFile) (i : Nat) (s : LoadState) :
    Ends (archX86ReadElfPhdr f f.ehdr i) s (fun ph s' => SameMem s s' ∧ ph = f.phdr i)
      fun _ _ => True := by
  unfold archX86ReadElfPhdr
  split
  · trivial
  split
  · trivial
  refine (vfsRead_spec f _ 32 s).bind (fun r s' h => ?_) fun _ _ _ => trivial
  split
  · trivial
  next hn =>
    exact ⟨h.1, by rw [(h.2 (by simpa using hn)).1]; rfl⟩

/-- Two ranges that do not meet. -/
def Elf32Phdr.Apart (p q : Elf32Phdr) : Prop := q.stop ≤ p.start ∨ p.stop ≤ q.start

theorem validatePrev_spec (f : VfsFile) (p : Elf32Phdr) (j : Nat) (s : LoadState) :
    Ends (validatePrev f f.ehdr p.start p.stop () j) s (fun _ s' => SameMem s s' ∧
      ((f.phdr j).isLoad = true → p.Apart (f.phdr j))) fun _ _ => True := by
  refine (readElfPhdr_spec f j s).bind (fun ph s' h => ?_) fun _ _ _ => trivial
  obtain ⟨hs, rfl⟩ := h
  split
  next hno => exact ⟨hs, fun hl => absurd hl (by simpa using hno)⟩
  refine (ends_orFail (fun r hr => ?_) trivial : Ends _ s' (fun r s'' => SameMem s s'' ∧
    r = ((f.phdr j).start, (f.phdr j).stop)) fun _ _ => True).bind
      (fun r s'' h => ?_) fun _ _ _ => trivial
  · exact ⟨hs, (elfLoadRange_some hr).1⟩
  obtain ⟨hs, rfl⟩ := h
  split
  · trivial
  next hover =>
    refine ⟨hs, fun _ => ?_⟩
    unfold archX86RangesOverlap at hover
    unfold Elf32Phdr.Apart
    simp only [decide_eq_true_eq] at hover
    omega

theorem validateElfLoadRange_spec (f : VfsFile) {p : Elf32Phdr} (hp : p.Fits) (i : Nat)
    (s : LoadState) :
    Ends (archX86ValidateElfLoadRange f f.ehdr i p.start p.stop) s (fun _ s' => SameMem s s' ∧
      archUserVaddrMin ≤ p.start ∧ p.stop ≤ userStackBase ∧
      ∀ j < i, (f.phdr j).isLoad = true → p.Apart (f.phdr j)) fun _ _ => True := by
  unfold archX86ValidateElfLoadRange
  split
  · trivial
  next hin =>
  split
  · trivial
  next hstack =>
  have hbelow : p.stop ≤ userStackBase := by
    have := hp.pos
    have hno : ¬ (p.start < userStackTop ∧ p.stop > userStackBase) := by
      simpa [archX86RangesOverlap] using hstack
    simp only [archUserVaddrMax, userStackTop] at hin hno
    omega
  refine (Ends.foldlM_range (fun k _ s' => SameMem s s' ∧
    ∀ j < k, (f.phdr j).isLoad = true → p.Apart (f.phdr j)) ⟨⟨rfl, rfl⟩, by simp⟩ ?_).mono
    (fun _ s' h => ⟨h.1, by omega, hbelow, h.2⟩) fun _ _ h => h
  intro k _ _ s' h
  refine (validatePrev_spec f p k s').mono (fun _ s'' h' => ?_) fun _ _ h => h
  refine ⟨h.1.trans h'.1, fun j hj => ?_⟩
  by_cases hjk : j = k
  · exact hjk ▸ h'.2
  · exact h.2 j (by omega)

/-! ## The first pass -/

/-- What is known after headers `0 … k - 1`. -/
structure Scanned (f : VfsFile) (k : Nat) (x : Extent) : Prop where
  fits : ∀ i < k, (f.phdr i).isLoad = true → (f.phdr i).Fits
  inside : ∀ i < k, (f.phdr i).isLoad = true →
    archUserVaddrMin ≤ (f.phdr i).start ∧ (f.phdr i).stop ≤ userStackBase
  apart : ∀ i < k, ∀ j < i, (f.phdr i).isLoad = true → (f.phdr j).isLoad = true →
    (f.phdr i).Apart (f.phdr j)
  within : ∀ i < k, (f.phdr i).isLoad = true →
    x.minVaddr ≤ (f.phdr i).start ∧ (f.phdr i).stop ≤ x.maxVend
  fresh : x.loadedSegment = false → x.minVaddr = 0xFFFFFFFF ∧ x.maxVend = 0
  ends : x.loadedSegment = true →
    (∃ i < k, (f.phdr i).isLoad = true ∧ (f.phdr i).start = x.minVaddr) ∧
    ∃ i < k, (f.phdr i).isLoad = true ∧ (f.phdr i).stop = x.maxVend

theorem Scanned.skip (h : Scanned f k x)
    (hk : (f.phdr k).isLoad = false) : Scanned f (k + 1) x := by
  have hlt : ∀ i < k + 1, (f.phdr i).isLoad = true → i < k := by
    intro i hi hl
    have : i ≠ k := fun he => by rw [he, hk] at hl; cases hl
    omega
  refine ⟨fun i hi hl => h.fits i (hlt i hi hl) hl, fun i hi hl => h.inside i (hlt i hi hl) hl,
    fun i hi j hj hl => h.apart i (hlt i hi hl) j hj hl, fun i hi hl => h.within i (hlt i hi hl) hl,
    h.fresh, fun hl => ?_⟩
  obtain ⟨⟨i, hi, hil⟩, ⟨j, hj, hjl⟩⟩ := h.ends hl
  exact ⟨⟨i, by omega, hil⟩, ⟨j, by omega, hjl⟩⟩

/-- One more segment that passed the checks. -/
theorem Scanned.add (h : Scanned f k x) (hload : (f.phdr k).isLoad = true) (hfit : (f.phdr k).Fits)
    (hlo : archUserVaddrMin ≤ (f.phdr k).start) (hhi : (f.phdr k).stop ≤ userStackBase)
    (hprev : ∀ j < k, (f.phdr j).isLoad = true → (f.phdr k).Apart (f.phdr j)) :
    Scanned f (k + 1)
      { minVaddr := if (f.phdr k).start < x.minVaddr then (f.phdr k).start else x.minVaddr
        maxVend := if (f.phdr k).stop > x.maxVend then (f.phdr k).stop else x.maxVend
        loadedSegment := true } := by
  -- every statement over `i < k + 1` is the old one or is about `k`
  have hcases : ∀ {P : Nat → Prop}, (∀ i < k, P i) → P k → ∀ i < k + 1, P i := by
    intro P hP hPk i hi
    by_cases hik : i = k
    · exact hik ▸ hPk
    · exact hP i (by omega)
  refine ⟨hcases h.fits fun _ => hfit, hcases h.inside fun _ => ⟨hlo, hhi⟩,
    hcases h.apart fun j hj _ => hprev j hj, hcases (fun i hi hl => ?_) fun _ => ?_,
    nofun, fun _ => ?_⟩
  · obtain ⟨h1, h2⟩ := h.within i hi hl
    dsimp only
    constructor <;> split <;> omega
  · dsimp only
    constructor <;> split <;> omega
  · dsimp only
    have hpos := hfit.pos
    simp only [userStackBase] at hhi
    cases hl : x.loadedSegment with
    | false =>
      obtain ⟨hmin, hmax⟩ := h.fresh hl
      rw [if_pos (by omega), if_pos (by omega)]
      exact ⟨⟨k, by omega, hload, rfl⟩, ⟨k, by omega, hload, rfl⟩⟩
    | true =>
      obtain ⟨⟨i, hi, hil, hie⟩, ⟨j, hj, hjl, hje⟩⟩ := h.ends hl
      constructor
      · split
        · exact ⟨k, by omega, hload, rfl⟩
        · exact ⟨i, by omega, hil, hie⟩
      · split
        · exact ⟨k, by omega, hload, rfl⟩
        · exact ⟨j, by omega, hjl, hje⟩

theorem scanPhdr_spec (h : Scanned f k x) (s : LoadState) :
    Ends (scanPhdr f f.ehdr x k) s (fun x' s' => SameMem s s' ∧ Scanned f (k + 1) x')
      fun _ _ => True := by
  refine ((readElfPhdr_spec f k s).failAs fun _ _ _ => trivial).bind (fun ph s' h' => ?_)
    fun _ _ h => h
  obtain ⟨hs, rfl⟩ := h'
  split
  next hno => exact ⟨hs, h.skip (by simpa using hno)⟩
  next hl =>
  have hload : (f.phdr k).isLoad = true := by simpa using hl
  refine (ends_orFail (fun r hr => ?_) trivial : Ends _ s' (fun r s'' => s'' = s' ∧
    r = ((f.phdr k).start, (f.phdr k).stop) ∧ (f.phdr k).Fits) fun _ _ => True).bind
      (fun r s'' h' => ?_) fun _ _ h => h
  · exact ⟨rfl, (elfLoadRange_some hr).1, (elfLoadRange_some hr).2⟩
  obtain ⟨rfl, rfl, hfit⟩ := h'
  refine ((validateElfLoadRange_spec f hfit k s'').failAs fun _ _ _ => trivial).bind
    (fun _ s3 h' => ?_) fun _ _ h => h
  obtain ⟨hs', hlo, hhi, hprev⟩ := h'
  exact ⟨hs.trans hs', h.add hload hfit hlo hhi hprev⟩

theorem scanPhdrs_spec (f : VfsFile) (n : Nat) (s : LoadState) :
    Ends ((List.range n).foldlM (scanPhdr f f.ehdr) ⟨0xFFFFFFFF, 0, false⟩) s
      (fun x s' => SameMem s s' ∧ Scanned f n x) fun _ _ => True := by
  refine Ends.foldlM_range (fun k x s' => SameMem s s' ∧ Scanned f k x) ⟨⟨rfl, rfl⟩, ?_⟩ ?_
  · exact ⟨by simp, by simp, by simp, by simp, fun _ => ⟨rfl, rfl⟩, nofun⟩
  · intro k _ x s' h
    exact (scanPhdr_spec h.2 s').mono (fun x' s'' h' => ⟨h.1.trans h'.1, h'.2⟩) fun _ _ h => h

/-! ## Pages in memory -/

/-- The byte the user reads at `a`. -/
def userByte (s : LoadState) (pd a : Nat) : Option UInt8 :=
  (userPte s.phys (slotOf pd a)).map fun e => s.bytes e.addr (a % 4096)

/-- The frame behind the user's page at `a`. -/
def frameAt (s : LoadState) (pd a : Nat) : Option Nat := (userPte s.phys (slotOf pd a)).map (·.addr)

variable {e : Entry} {p n v b : Nat}

theorem slotOf_eq_iff {pd : Nat} (ha : a < 4294967296) (hb : b < 4294967296) :
    slotOf pd a = slotOf pd b ↔ a / 4096 = b / 4096 := by
  unfold slotOf pdIndex ptIndex
  simp only [Prod.mk.injEq, true_and]
  omega

/-- The addresses `R` are mapped, no two pages of them on one frame. -/
structure Owns (K live : Finset Nat) (X : Nat → Nat) (pd : Nat) (R : Set Nat) (s : LoadState) :
    Prop where
  inv : PagingInv K live X s.phys
  live : pd ∈ live
  word : ∀ a ∈ R, a < 4294967296
  mapped : ∀ a ∈ R, ∃ e, userPte s.phys (slotOf pd a) = some e ∧ e.io = false
  apart : ∀ a ∈ R, ∀ b ∈ R, frameAt s pd a = frameAt s pd b → a / 4096 = b / 4096

/-- From `s` to `s'` the pages `N` were added to `R`: what the user had in `R` is there
as before, and so is every other user page and every other PTE of this address space. -/
structure Adds (pd : Nat) (R N : Set Nat) (s s' : LoadState) : Prop where
  kept : ∀ a ∈ R, userByte s' pd a = userByte s pd a
  pte : ∀ w, (∀ a ∈ N, slotOf pd w ≠ slotOf pd a) → pteAt s'.phys pd w = pteAt s.phys pd w

section Pages

variable {K live : Finset Nat} {X : Nat → Nat} {pd : Nat} {R N M : Set Nat} {s s' s'' : LoadState}

theorem Owns.congr (h : Owns K live X pd R s) (hs : SameMem s s') : Owns K live X pd R s' := by
  obtain ⟨phys, bytes, reads⟩ := s'
  obtain ⟨rfl, rfl⟩ := hs
  exact ⟨h.inv, h.live, h.word, h.mapped, h.apart⟩

theorem SameMem.userByte (hs : SameMem s s') (a : Nat) : userByte s' pd a = userByte s pd a := by
  unfold Proc.userByte
  rw [hs.1, hs.2]

theorem Adds.of_same (hs : SameMem s s') : Adds pd R ∅ s s' :=
  ⟨fun a _ => hs.userByte a, fun w _ => by rw [hs.1]⟩

theorem Adds.trans (h : Adds pd R N s s') (h' : Adds pd (R ∪ N) M s' s'') :
    Adds pd R (N ∪ M) s s'' := by
  refine ⟨fun a ha => (h'.kept a (.inl ha)).trans (h.kept a ha), fun w hno => ?_⟩
  rw [h'.pte w fun a ha => hno a (.inr ha), h.pte w fun a ha => hno a (.inl ha)]

/-- A frame with no use is not the frame of a page the user sees. -/
theorem Owns.frame_ne (h : Owns K live X pd R s) {f : Nat} (ha : a ∈ R)
    (hf : uses K live s.phys f = 0) (he : userPte s.phys (slotOf pd a) = some e) :
    e.addr ≠ f := by
  intro hef
  obtain ⟨e', he', hio⟩ := h.mapped a ha
  rw [he] at he'
  cases he'
  have hmaps : mapsAt s.phys f (slotOf pd a) = true := by
    rw [mapsAt_eq_any, he]
    have hup : e.userPresent = true := by
      unfold userPte Entry.view at he
      split at he
      · split at he
        next hu => exact Option.some.inj he ▸ hu
        · cases he
      · cases he
    simp [Entry.holds, hup, hio, hef]
  have := (uses_zero hf).2.2.1 _ (slotOf_mem h.live a)
  rw [hmaps] at this
  cases this

/-- What is written to the frame of the page at `v` is seen at that page only. -/
theorem Owns.userByte_setFrame (h : Owns K live X pd R s) (hv : v ∈ R)
    (he : userPte s.phys (slotOf pd v) = some e) (q : Buf) (ha : a ∈ R) :
    userByte (s.setFrame e.addr q) pd a
      = if a / 4096 = v / 4096 then some (q (a % 4096)) else userByte s pd a := by
  unfold userByte LoadState.setFrame
  dsimp only
  split
  next hpage =>
    rw [(slotOf_eq_iff (h.word a ha) (h.word v hv)).mpr hpage, he, Option.map_some, update_self]
  next hpage =>
    obtain ⟨e', he', -⟩ := h.mapped a ha
    have hne : e'.addr ≠ e.addr := by
      intro heq
      refine hpage (h.apart a ha v hv ?_)
      unfold frameAt
      rw [he, he', Option.map_some, Option.map_some, heq]
    rw [he', Option.map_some, Option.map_some, update_of_ne hne]

/-- The page at `v` as a set of addresses. -/
def pageAt (v : Nat) : Set Nat := { a | a / 4096 = v / 4096 }

/-- A page whose frame had no use is mapped at `v` and cleared. -/
theorem Owns.mapPage (h : Owns K live X pd R s) (hv : v < 4294967296)
    (hR : ∀ b ∈ R, b ∉ pageAt v) {m : Phys} (hinv : PagingInv K live X m)
    (hset : SetsSlot live s.phys m (slotOf pd v) e)
    (hpte : ∀ w, slotOf pd w ≠ slotOf pd v → pteAt m pd w = pteAt s.phys pd w)
    (huses : uses K live s.phys a = 0)
    (hio : e.io = false) (hea : e.addr = a) {q : Buf} (hq : ∀ i < 4096, q i = 0) (n : Nat) :
    Owns K live X pd (R ∪ pageAt v) ⟨m, update s.bytes a q, n⟩ ∧
    Adds pd R (pageAt v) s ⟨m, update s.bytes a q, n⟩ ∧
    ∀ b ∈ pageAt v, userByte ⟨m, update s.bytes a q, n⟩ pd b = some 0 := by
  have hword : ∀ b ∈ pageAt v, b < 4294967296 := by
    intro b hb
    have : b / 4096 = v / 4096 := hb
    omega
  have hnew : ∀ b ∈ pageAt v, userPte m (slotOf pd b) = some e := by
    intro b hb
    rw [hset _ (slotOf_mem h.live b), if_pos ((slotOf_eq_iff (hword b hb) hv).mpr hb)]
  have hold : ∀ b ∈ R, userPte m (slotOf pd b) = userPte s.phys (slotOf pd b) := by
    intro b hb
    rw [hset _ (slotOf_mem h.live b),
      if_neg fun hc => hR b hb ((slotOf_eq_iff (h.word b hb) hv).mp hc)]
  refine ⟨⟨hinv, h.live, ?_, ?_, ?_⟩, ⟨?_, fun w hno => hpte w (hno v rfl)⟩, ?_⟩
  · rintro b (hb | hb)
    · exact h.word b hb
    · exact hword b hb
  · rintro b (hb | hb)
    · rw [hold b hb]
      exact h.mapped b hb
    · exact ⟨e, hnew b hb, hio⟩
  · -- an old page against the new one: the new frame had no use
    have hcross : ∀ b ∈ R, ∀ c ∈ pageAt v, (userPte m (slotOf pd b)).map (·.addr)
        ≠ (userPte m (slotOf pd c)).map (·.addr) := by
      intro b hb c hc heq
      obtain ⟨e', he', -⟩ := h.mapped b hb
      rw [hold b hb, hnew c hc, he', Option.map_some, Option.map_some] at heq
      exact h.frame_ne hb huses he' ((Option.some.inj heq).trans hea)
    rintro b (hb | hb) c (hc | hc) heq
    · refine h.apart b hb c hc ?_
      unfold frameAt at heq ⊢
      rw [← hold b hb, ← hold c hc]
      exact heq
    · exact absurd heq (hcross b hb c hc)
    · exact absurd heq.symm (hcross c hc b hb)
    · exact (show b / 4096 = v / 4096 from hb).trans (show c / 4096 = v / 4096 from hc).symm
  · intro b hb
    obtain ⟨e', he', -⟩ := h.mapped b hb
    unfold userByte
    dsimp only
    rw [hold b hb, he', Option.map_some, Option.map_some, update_of_ne (h.frame_ne hb huses he')]
  · intro b hb
    unfold userByte
    dsimp only
    rw [hnew b hb, Option.map_some, hea, update_self, hq _ (Nat.mod_lt _ (by decide))]

theorem memset_page (p : Buf) : ∀ i < 4096, memset p 0 0 4096 i = 0 := fun i hi =>
  if_pos ⟨Nat.zero_le i, by omega⟩

theorem loadPage_spec (h : Owns K live X pd R s) (hv : v < 4294967296)
    (hR : ∀ b ∈ R, b ∉ pageAt v) (pFlags : Nat) :
    Ends (loadPage pd v (archX86ElfSegmentFlags pFlags)) s (fun _ s' =>
      Owns K live X pd (R ∪ pageAt v) s' ∧ Adds pd R (pageAt v) s s' ∧
      ∀ b ∈ pageAt v, userByte s' pd b = some 0) fun _ _ => True := by
  unfold loadPage
  simp only [ends_bind, ends_get]
  rcases ha : pmmAllocPage s.phys with ⟨a, m⟩
  split
  · trivial
  next ha0 =>
  have hown : (archX86ElfSegmentFlags pFlags).Own := ⟨rfl, rfl, rfl, rfl⟩
  obtain ⟨hptr, huses, hcases⟩ := h.inv.allocMap h.live v hown ha ha0
  split
  · simp only [setPhys, ends_bind, ends_modify, ends_throw]
  next hrc =>
    rw [if_neg (by simp [hptr])]
    rcases hcases with ⟨-, hinv, hset, hpte⟩ | ⟨hfail, -⟩
    · have hmapped := h.mapPage hv hR hinv hset hpte huses rfl rfl (memset_page (s.bytes a)) s.reads
      exact hmapped
    · exact absurd hfail (by
        have : ¬ (archMmMap m pd v a (archX86ElfSegmentFlags pFlags)).1 ≠ 0 := hrc
        omega)

/-! ## A segment -/

theorem lt_of_not_page {start : Nat} (hstart : start % 4096 = 0)
    (hb : b < start + (p + 1) * 4096) (hno : b ∉ pageAt (start + p * 4096)) :
    b < start + p * 4096 := by
  by_contra hge
  have hdiv : (start + p * 4096) / 4096 = start / 4096 + p := by omega
  exact hno (show b / 4096 = (start + p * 4096) / 4096 by rw [hdiv]; omega)

/-- The mapping loop: all pages of the segment, cleared. -/
theorem mapPages_spec (hl : ph.memsz ≠ 0) (hfit : ph.Fits)
    (h : Owns K live X pd R s) (hR : ∀ b ∈ R, b ∉ ph.pages) :
    Ends ((List.range ((ph.stop - ph.start) / 4096)).foldlM
      (fun _ p => loadPage pd (u32 (ph.start + p * 4096)) (archX86ElfSegmentFlags ph.flags)) ()) s
      (fun _ s' => Owns K live X pd (R ∪ ph.pages) s' ∧ Adds pd R ph.pages s s' ∧
        ∀ b ∈ ph.pages, userByte s' pd b = some 0) fun _ _ => True := by
  have hword := hfit.word
  have hstart : ph.start % 4096 = 0 := by unfold Elf32Phdr.start; omega
  have hstop : ph.stop % 4096 = 0 := by unfold Elf32Phdr.stop; omega
  -- before round `p` the first `p` pages are there
  refine (Ends.foldlM_range (fun p _ s' =>
    Owns K live X pd (R ∪ { a | ph.start ≤ a ∧ a < ph.start + p * 4096 }) s' ∧
    Adds pd R { a | ph.start ≤ a ∧ a < ph.start + p * 4096 } s s' ∧
    ∀ b, ph.start ≤ b → b < ph.start + p * 4096 → userByte s' pd b = some 0) ?_ ?_).mono
    (fun _ s' h' => ?_) fun _ _ h => h
  · have hnone : { a | ph.start ≤ a ∧ a < ph.start + 0 * 4096 } = (∅ : Set Nat) := by
      ext a
      simp only [Set.mem_ofPred_eq, Set.mem_empty_iff_false, iff_false]
      omega
    rw [hnone, Set.union_empty]
    exact ⟨h, Adds.of_same ⟨rfl, rfl⟩, fun b h1 h2 => by omega⟩
  · intro p hp _ s' h'
    have hv : u32 (ph.start + p * 4096) = ph.start + p * 4096 := u32_of_lt (by omega)
    have hnext : { a | ph.start ≤ a ∧ a < ph.start + p * 4096 } ∪ pageAt (ph.start + p * 4096)
        = { a | ph.start ≤ a ∧ a < ph.start + (p + 1) * 4096 } := by
      ext a
      simp only [pageAt, Set.mem_union, Set.mem_ofPred_eq]
      omega
    rw [hv]
    refine (loadPage_spec h'.1 (by omega) ?_ ph.flags).mono (fun _ s'' h'' => ?_) fun _ _ h => h
    · rintro b (hb | ⟨hb1, hb2⟩) hb' <;> have hpage : b / 4096 = (ph.start + p * 4096) / 4096 := hb'
      · exact hR b hb ((Elf32Phdr.mem_pages hl).mpr (by omega))
      · omega
    · rw [Set.union_assoc, hnext] at h''
      have hadd := h'.2.1.trans h''.2.1
      rw [hnext] at hadd
      refine ⟨h''.1, hadd, fun b hb1 hb2 => ?_⟩
      by_cases hb : b ∈ pageAt (ph.start + p * 4096)
      · exact h''.2.2 b hb
      · have hlt : b < ph.start + p * 4096 := lt_of_not_page hstart hb2 hb
        rw [h''.2.1.kept b (.inr ⟨hb1, hlt⟩)]
        exact h'.2.2 b hb1 hlt
  · have hall : { a | ph.start ≤ a ∧ a < ph.start + (ph.stop - ph.start) / 4096 * 4096 } = ph.pages := by
      ext a
      rw [Elf32Phdr.mem_pages hl, Set.mem_ofPred_eq]
      omega
    rw [hall] at h'
    refine ⟨h'.1, h'.2.1, fun b hb => h'.2.2 b ?_ ?_⟩ <;>
      have := (Elf32Phdr.mem_pages hl).mp hb <;> omega

/-- The bytes of a segment with the first `done` bytes of the file in place. -/
def Elf32Phdr.byteUpTo (f : VfsFile) (ph : Elf32Phdr) (done a : Nat) : UInt8 :=
  if ph.vaddr ≤ a ∧ a < ph.vaddr + done then f.buf (ph.offset + (a - ph.vaddr)) else 0

/-- Before round `p` of the copy loop, `done` bytes are in place. As long as some are
left, the next one goes to the start of page `p`, or to `p_vaddr` in the first. -/
structure Copied (K live : Finset Nat) (X : Nat → Nat) (f : VfsFile) (pd : Nat) (ph : Elf32Phdr)
    (R : Set Nat) (s₀ : LoadState) (p done : Nat) (s : LoadState) : Prop where
  owns : Owns K live X pd (R ∪ ph.pages) s
  phys : s.phys = s₀.phys
  kept : ∀ a ∈ R, userByte s pd a = userByte s₀ pd a
  bytes : ∀ a ∈ ph.pages, userByte s pd a = some (ph.byteUpTo f done a)
  size : done ≤ ph.filesz
  next : done < ph.filesz → ph.vaddr + done = if p = 0 then ph.vaddr else ph.start + p * 4096
  file : 0 < done → ph.offset + done ≤ f.content.length

theorem copyPage_spec (hl : ph.memsz ≠ 0) (hfit : ph.Fits)
    (hR : ∀ b ∈ R, b ∉ ph.pages) {done : Nat} (hp : p < (ph.stop - ph.start) / 4096)
    (h : Copied K live X f pd ph R s p done s') :
    Ends (copyPage f pd ph ph.start done p) s' (Copied K live X f pd ph R s (p + 1))
      fun _ _ => True := by
  unfold copyPage
  dsimp only
  split
  next hdone =>
    exact ⟨h.owns, h.phys, h.kept, h.bytes, h.size, fun hlt => by omega, h.file⟩
  next hmore =>
  have hword := hfit.word
  have hfile := hfit.file (by omega)
  have hnext := h.next (by omega)
  have hstart : ph.start = ph.vaddr / 4096 * 4096 := rfl
  have hv : u32 (ph.start + p * 4096) = ph.start + p * 4096 := u32_of_lt (by omega)
  have hoff : u32 (ph.offset + done) = ph.offset + done := u32_of_lt (by omega)
  rw [hv, hoff]
  generalize hw : (if p = 0 then ph.vaddr % 4096 else 0) = writeOff
  -- the first byte to copy is at `writeOff` in this page
  have hat : ph.start + p * 4096 + writeOff = ph.vaddr + done ∧ writeOff < 4096 := by
    rw [← hw]
    split at hnext <;> rename_i hp0
    · rw [if_pos hp0]; omega
    · rw [if_neg hp0]; omega
  generalize hc : (if ph.filesz - done < 4096 - writeOff then ph.filesz - done
    else 4096 - writeOff) = toCopy
  have hcopy : toCopy ≤ ph.filesz - done ∧ toCopy ≤ 4096 - writeOff ∧
      (toCopy = ph.filesz - done ∨ toCopy = 4096 - writeOff) := by
    rw [← hc]
    split <;> omega
  have hin : ph.start + p * 4096 ∈ R ∪ ph.pages :=
    .inr ((Elf32Phdr.mem_pages hl).mpr (by omega))
  simp only [ends_bind, ends_get]
  obtain ⟨e, he, -⟩ := h.owns.mapped _ hin
  refine ends_orFail (fun mapping hm => ?_) trivial
  have haddr : mapping.physAddr = e.addr := by
    rcases h.owns.inv.query_cases h.owns.live (ph.start + p * 4096) with ⟨hq, -⟩ |
      ⟨e', -, hq, -, -, -, hpte⟩
    · rw [hm] at hq
      cases hq
    · rw [hm] at hq
      rw [he] at hpte
      split at hpte
      · rw [Option.some.inj hq, Option.some.inj hpte]; rfl
      · cases hpte
  split
  · trivial
  rw [haddr]
  refine (vfsRead_spec f (ph.offset + done) toCopy s').bind (fun r s1 h1 => ?_) fun _ _ h => h
  obtain ⟨hs, hr⟩ := h1
  rw [ends_bind, ends_modify]
  split
  · trivial
  next hn =>
  have hn' : r.1 = (toCopy : Int) := by simpa using hn
  obtain ⟨hbuf, hlen⟩ := hr hn'
  have hcount : r.1.toNat = toCopy := by rw [hn']; rfl
  have howns := h.owns.congr hs
  have hpte : userPte s1.phys (slotOf pd (ph.start + p * 4096)) = some e := by
    rw [hs.1]; exact he
  have hsee := fun a ha => howns.userByte_setFrame hin hpte
    (memcpy (s1.bytes e.addr) writeOff r.2 0 r.1.toNat) (a := a) ha
  refine ⟨⟨howns.inv, howns.live, howns.word, howns.mapped, howns.apart⟩, ?_, ?_, ?_, ?_, ?_, ?_⟩
  · exact hs.1.trans h.phys
  · intro a ha
    have hno : ¬ a / 4096 = (ph.start + p * 4096) / 4096 := by
      intro hpage
      exact hR a ha ((Elf32Phdr.mem_pages hl).mpr (by omega))
    rw [hsee a (.inl ha), if_neg hno, hs.userByte a]
    exact h.kept a ha
  · intro a ha
    rw [hsee a (.inr ha), hbuf, hcount]
    have hbyte := h.bytes a ha
    split
    next hpage =>
      -- in this page: the bytes just copied, or what was there
      by_cases hnew : ph.vaddr + done ≤ a ∧ a < ph.vaddr + done + toCopy
      · rw [memcpy_in (by omega) (by omega)]
        unfold slice Elf32Phdr.byteUpTo
        rw [if_pos (by omega), if_pos (by omega)]
        congr 2
        omega
      · rw [memcpy_out (by omega)]
        have hsame : ph.byteUpTo f (done + toCopy) a = ph.byteUpTo f done a := by
          unfold Elf32Phdr.byteUpTo
          by_cases hlt : ph.vaddr ≤ a ∧ a < ph.vaddr + done
          · rw [if_pos hlt, if_pos (by omega)]
          · rw [if_neg hlt, if_neg (by omega)]
        rw [hsame, ← hbyte]
        unfold userByte
        rw [(slotOf_eq_iff (h.owns.word a (.inr ha)) (by omega)).mpr hpage, he, hs.2]
        rfl
    next hpage =>
      rw [hs.userByte a, hbyte]
      unfold Elf32Phdr.byteUpTo
      by_cases hlt : ph.vaddr ≤ a ∧ a < ph.vaddr + done
      · rw [if_pos hlt, if_pos (by omega)]
      · rw [if_neg hlt, if_neg (by omega)]
  · omega
  · intro hlt
    rw [if_neg (by omega)]
    omega
  · intro _
    omega

theorem byteUpTo_filesz
    (hfile : 0 < ph.filesz → ph.offset + ph.filesz ≤ f.content.length) (a : Nat) :
    some (ph.byteUpTo f ph.filesz a) = ph.imageByte f a := by
  unfold Elf32Phdr.byteUpTo Elf32Phdr.imageByte
  split
  next hin =>
    have hlt : ph.offset + (a - ph.vaddr) < f.content.length := by
      omega
    rw [VfsFile.buf, List.getD_eq_getElem?_getD, List.getElem?_eq_getElem hlt]
    rfl
  · rfl

theorem loadSegment_spec (hl : ph.memsz ≠ 0)
    (h : Owns K live X pd R s) (hR : ∀ b ∈ R, b ∉ ph.pages) :
    Ends (loadSegment f pd ph) s (fun _ s' => Owns K live X pd (R ∪ ph.pages) s' ∧
      Adds pd R ph.pages s s' ∧ ∀ a ∈ ph.pages, userByte s' pd a = ph.imageByte f a)
      fun _ _ => True := by
  unfold loadSegment
  rw [ends_bind]
  refine ends_orFail (fun r hr => ?_) trivial
  obtain ⟨rfl, hfit⟩ := elfLoadRange_some hr
  refine (mapPages_spec hl hfit h hR).bind (fun _ s1 h1 => ?_) fun _ _ h => h
  obtain ⟨howns, hadds, hzero⟩ := h1
  have h0 : Copied K live X f pd ph R s1 0 0 s1 :=
    ⟨howns, rfl, fun _ _ => rfl, fun a ha => by
      rw [hzero a ha, Elf32Phdr.byteUpTo, if_neg (by omega)], Nat.zero_le _, fun _ => rfl,
      nofun⟩
  refine (Ends.foldlM_range (fun p done s' => Copied K live X f pd ph R s1 p done s') h0
    fun p hp done s' h' => copyPage_spec hl hfit hR hp h').bind (fun done s2 h2 => ?_) fun _ _ h => h
  -- past the last page nothing can be left to copy
  have hdone : done = ph.filesz := by
    have hsize := hfit.size
    have hpos := hfit.pos
    have hle := h2.size
    have hstart : ph.start % 4096 = 0 := by unfold Elf32Phdr.start; omega
    have hstop : ph.stop % 4096 = 0 := by unfold Elf32Phdr.stop; omega
    have hend : ph.vaddr + ph.memsz ≤ ph.stop := by unfold Elf32Phdr.stop; omega
    by_contra hne
    have hnext := h2.next (by omega)
    rw [if_neg (by omega)] at hnext
    omega
  refine ⟨h2.owns, ⟨fun a ha => (h2.kept a ha).trans (hadds.kept a ha), fun w hno => ?_⟩,
    fun a ha => ?_⟩
  · rw [h2.phys]
    exact hadds.pte w hno
  · rw [h2.bytes a ha, hdone]
    exact byteUpTo_filesz (fun hpos => hdone ▸ h2.file (hdone ▸ hpos)) a

/-! ## The second pass -/

/-- The addresses of the first `k` headers' segments. -/
def VfsFile.loadPages (f : VfsFile) (k : Nat) : Set Nat :=
  { a | ∃ i < k, (f.phdr i).type = ptLoad ∧ a ∈ (f.phdr i).pages }

theorem VfsFile.loadPages_succ_skip (hk : (f.phdr k).isLoad = false) :
    f.loadPages (k + 1) = f.loadPages k := by
  ext a
  constructor
  · rintro ⟨i, hi, ht, ha⟩
    refine ⟨i, ?_, ht, ha⟩
    have hik : i ≠ k := by
      rintro rfl
      rw [Elf32Phdr.isLoad_of_mem_pages ht ha] at hk
      cases hk
    omega
  · rintro ⟨i, hi, ht, ha⟩
    exact ⟨i, by omega, ht, ha⟩

theorem VfsFile.loadPages_succ (hk : (f.phdr k).type = ptLoad) :
    f.loadPages (k + 1) = f.loadPages k ∪ (f.phdr k).pages := by
  ext a
  constructor
  · rintro ⟨i, hi, ht, ha⟩
    by_cases hik : i = k
    · exact .inr (hik ▸ ha)
    · exact .inl ⟨i, by omega, ht, ha⟩
  · rintro (⟨i, hi, ht, ha⟩ | ha)
    · exact ⟨i, by omega, ht, ha⟩
    · exact ⟨k, by omega, hk, ha⟩

/-- The ranges of two segments have no address in common. -/
theorem Scanned.disjoint (hscan : Scanned f n x) {i j : Nat}
    (hi : i < n) (hj : j < n) (hij : i ≠ j) (hti : (f.phdr i).type = ptLoad)
    (htj : (f.phdr j).type = ptLoad) : Disjoint (f.phdr i).pages (f.phdr j).pages := by
  refine Set.disjoint_left.mpr fun a hai haj => ?_
  have hli := Elf32Phdr.isLoad_of_mem_pages hti hai
  have hlj := Elf32Phdr.isLoad_of_mem_pages htj haj
  obtain ⟨h1, h2⟩ := (Elf32Phdr.mem_pages (Elf32Phdr.isLoad_iff.mp hli).2).mp hai
  obtain ⟨h3, h4⟩ := (Elf32Phdr.mem_pages (Elf32Phdr.isLoad_iff.mp hlj).2).mp haj
  rcases Nat.lt_or_gt_of_ne hij with hlt | hgt
  · rcases hscan.apart j hj i hlt hlj hli with h | h <;> omega
  · rcases hscan.apart i hi j hgt hli hlj with h | h <;> omega

theorem loadPhdrs_spec (hscan : Scanned f n x)
    (hinv : PagingInv K live X s.phys) (hpd : pd ∈ live) :
    Ends ((List.range n).foldlM (loadPhdr f f.ehdr pd) ()) s (fun _ s' =>
      Owns K live X pd (f.loadPages n) s' ∧ Adds pd ∅ (f.loadPages n) s s' ∧
      ∀ i < n, (f.phdr i).type = ptLoad → ∀ a ∈ (f.phdr i).pages,
        userByte s' pd a = (f.phdr i).imageByte f a) fun _ _ => True := by
  refine Ends.foldlM_range (fun k _ s' => Owns K live X pd (f.loadPages k) s' ∧
    Adds pd ∅ (f.loadPages k) s s' ∧ ∀ i < k, (f.phdr i).type = ptLoad →
      ∀ a ∈ (f.phdr i).pages, userByte s' pd a = (f.phdr i).imageByte f a) ?_ ?_
  · have hnone : f.loadPages 0 = ∅ := by
      ext a
      exact ⟨fun ⟨i, hi, _⟩ => absurd hi (by omega), fun h => absurd h (Set.notMem_empty a)⟩
    rw [hnone]
    exact ⟨⟨hinv, hpd, by simp, by simp, by simp⟩, Adds.of_same ⟨rfl, rfl⟩, by simp⟩
  · intro k hk _ s1 h1
    obtain ⟨howns, hadds, hbytes⟩ := h1
    refine ((readElfPhdr_spec f k s1).failAs fun _ _ _ => trivial).bind (fun ph s2 h2 => ?_)
      fun _ _ h => h
    obtain ⟨hs, rfl⟩ := h2
    have hadds2 : Adds pd ∅ (f.loadPages k) s s2 := by
      have := hadds.trans (Adds.of_same hs)
      rwa [Set.union_empty] at this
    have hbytes2 : ∀ i < k, (f.phdr i).type = ptLoad → ∀ a ∈ (f.phdr i).pages,
        userByte s2 pd a = (f.phdr i).imageByte f a := fun i hi ht a ha => by
      rw [hs.userByte a, hbytes i hi ht a ha]
    split
    next hno =>
      have hskip : (f.phdr k).isLoad = false := by simpa using hno
      rw [ends_pure, VfsFile.loadPages_succ_skip hskip]
      refine ⟨howns.congr hs, hadds2, fun i hi ht a ha => ?_⟩
      have hik : i ≠ k := by
        rintro rfl
        rw [Elf32Phdr.isLoad_of_mem_pages ht ha] at hskip
        cases hskip
      exact hbytes2 i (by omega) ht a ha
    next hl =>
    obtain ⟨hload, hmem⟩ := Elf32Phdr.isLoad_iff.mp (show (f.phdr k).isLoad = true by simpa using hl)
    have hR : ∀ b ∈ f.loadPages k, b ∉ (f.phdr k).pages := by
      rintro b ⟨i, hi, ht, hb⟩ hb'
      exact Set.disjoint_left.mp (hscan.disjoint (by omega) hk (by omega) ht hload) hb hb'
    refine (loadSegment_spec hmem (howns.congr hs) hR).mono (fun _ s3 h3 => ?_) fun _ _ h => h
    obtain ⟨howns3, hadds3, hbytes3⟩ := h3
    rw [VfsFile.loadPages_succ hload]
    refine ⟨howns3, hadds2.trans (by rwa [Set.empty_union]), fun i hi ht a ha => ?_⟩
    by_cases hik : i = k
    · subst hik
      exact hbytes3 a ha
    · rw [hadds3.kept a ⟨i, by omega, ht, ha⟩]
      exact hbytes2 i (by omega) ht a ha

/-! ## The whole image -/

/-- The file is loaded into the address space `pd`. -/
structure Loaded (f : VfsFile) (pd : Nat) (img : ElfImage) (s : LoadState) : Prop where
  disjoint : ∀ i < f.ehdr.phnum, ∀ j < f.ehdr.phnum, i ≠ j → (f.phdr i).type = ptLoad →
    (f.phdr j).type = ptLoad → Disjoint (f.phdr i).pages (f.phdr j).pages
  inside : ∀ a ∈ f.loadPages f.ehdr.phnum, archUserVaddrMin ≤ a ∧ a < userStackBase
  mapped : ∀ a ∈ f.loadPages f.ehdr.phnum, (frameAt s pd a).isSome = true
  frames : ∀ a ∈ f.loadPages f.ehdr.phnum, ∀ b ∈ f.loadPages f.ehdr.phnum,
    frameAt s pd a = frameAt s pd b → a / 4096 = b / 4096
  bytes : ∀ i < f.ehdr.phnum, (f.phdr i).type = ptLoad → ∀ a ∈ (f.phdr i).pages,
    userByte s pd a = (f.phdr i).imageByte f a
  entry : img.entry = f.ehdr.entry ∧ img.imageStart ≤ img.entry ∧ img.entry < img.heapStart
  imageStart : ∃ i < f.ehdr.phnum, (f.phdr i).isLoad = true ∧ img.imageStart = (f.phdr i).start
  heapStart : ∃ i < f.ehdr.phnum, (f.phdr i).isLoad = true ∧ img.heapStart = (f.phdr i).stop ∧
    ∀ j < f.ehdr.phnum, (f.phdr j).isLoad = true → (f.phdr j).stop ≤ img.heapStart

theorem archElfLoadUserImage_spec (f : VfsFile) (hinv : PagingInv K live X s.phys)
    (hpd : pd ∈ live) :
    Ends (archElfLoadUserImage f pd) s (fun img s' => Loaded f pd img s' ∧
      PagingInv K live X s'.phys ∧ Adds pd ∅ (f.loadPages f.ehdr.phnum) s s')
      fun _ _ => True := by
  refine (vfsRead_spec f 0 52 s).bind (fun r s1 h₁ => ?_) fun _ _ h => h
  obtain ⟨hs1, hr⟩ := h₁
  split
  · trivial
  next hn =>
  have heh : ehdrOf r.2 = f.ehdr := by rw [(hr (by simpa using hn)).1]; rfl
  rw [heh]
  dsimp only
  split; · trivial
  split; · trivial
  split; · trivial
  split; · trivial
  refine (scanPhdrs_spec f f.ehdr.phnum s1).bind (fun x s2 h₂ => ?_) fun _ _ h => h
  obtain ⟨hs2, hscan⟩ := h₂
  split
  · trivial
  next hseg =>
  split
  · trivial
  next hentry =>
  have hphys : s2.phys = s.phys := (hs1.trans hs2).1
  refine (loadPhdrs_spec hscan (hphys ▸ hinv) hpd).bind (fun _ s3 h₃ => ?_) fun _ _ h => h
  obtain ⟨howns, hadds, hbytes⟩ := h₃
  obtain ⟨⟨i, hi, hli, hmin⟩, ⟨j, hj, hlj, hmax⟩⟩ := hscan.ends (by simpa using hseg)
  have hlow := (hscan.inside i hi hli).2
  have hpos := (hscan.fits i hi hli).pos
  have hmin' : ¬ x.minVaddr = 0xFFFFFFFF := by unfold userStackBase at hlow; omega
  refine ⟨⟨fun i hi j hj hij => hscan.disjoint hi hj hij, ?_, ?_, howns.apart, hbytes, ?_, ?_,
    ?_⟩, howns.inv, ?_⟩
  · rintro a ⟨m, hm, ht, ha⟩
    have hlm := Elf32Phdr.isLoad_of_mem_pages ht ha
    obtain ⟨h1, h2⟩ := (Elf32Phdr.mem_pages (Elf32Phdr.isLoad_iff.mp hlm).2).mp ha
    obtain ⟨h3, h4⟩ := hscan.inside m hm hlm
    omega
  · intro a ha
    obtain ⟨e, he, -⟩ := howns.mapped a ha
    unfold frameAt
    rw [he]
    rfl
  · rw [if_neg hmin']
    exact ⟨rfl, by dsimp only; omega, by dsimp only; omega⟩
  · rw [if_neg hmin']
    exact ⟨i, hi, hli, hmin.symm⟩
  · exact ⟨j, hj, hlj, hmax.symm, fun m hm hlm => (hscan.within m hm hlm).2⟩
  · have hall := (Adds.of_same (hs1.trans hs2)).trans
      (show Adds pd (∅ ∪ ∅) _ s2 s3 by rwa [Set.union_empty])
    rwa [Set.empty_union] at hall

end Pages

/-- A program of two segments: three bytes loaded at `0x400010`, and two at `0x401010`. -/
def smallElf : VfsFile where
  content :=
    [0x7F, 0x45, 0x4C, 0x46, 1, 1, 1, 0, 0, 0, 0, 0, 0, 0, 0, 0, 2, 0, 3, 0, 1, 0, 0, 0,
      0x10, 0, 0x40, 0, 52, 0, 0, 0, 0, 0, 0, 0, 0, 0, 0, 0, 52, 0, 32, 0, 2, 0, 0, 0, 0, 0, 0, 0,
      1, 0, 0, 0, 116, 0, 0, 0, 0x10, 0, 0x40, 0, 0, 0, 0, 0, 3, 0, 0, 0, 8, 0, 0, 0, 5, 0, 0, 0,
      0, 0x10, 0, 0,
      1, 0, 0, 0, 119, 0, 0, 0, 0x10, 0x10, 0x40, 0, 0, 0, 0, 0, 2, 0, 0, 0, 6, 0, 0, 0, 6, 0, 0, 0,
      0, 0x10, 0, 0, 0xCD, 0x80, 0xF4, 1, 2]
  readOk := fun _ => true

/-- A small machine with one empty address space, at `0x18000`. -/
def emptySpace : LoadState := ⟨(pagingStep ⟨smallPhys, ∅⟩ .create).phys, fun _ _ => 0, 0⟩

theorem emptySpace_inv : PagingInv smallKernel {0x18000} (fun _ => 0) emptySpace.phys := by
  have h0 : SafeRun smallKernel smallPhys ⟨smallPhys, ∅⟩ := Reach.start
  have hinv := SafeRun.inv smallPhys_booted (Reach.step PagingOp.create h0 ⟨trivial, trivial⟩)
  have hlive : (pagingStep ⟨smallPhys, ∅⟩ .create).live = {0x18000} := by decide +kernel
  rw [hlive] at hinv
  exact hinv

end Drunix.Proc
