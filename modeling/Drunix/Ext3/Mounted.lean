import Drunix.Ext3.Blocks

/-!
# A mounted file system over a working device

Blocks of 4096 bytes, a device on which every sector can be read and written, and a
cache that keeps its invariant (`Sound`). A block then has contents under three looks:
on the device, through the cache (`Fs.cached`), and through the transaction buffer and
the replay overlay as well (`Fs.content`). Reading changes none of them (`Reads`), and
each function that only reads delivers what they hold.
-/

namespace Drunix.Ext3

open Lib Blk

/-- The keys of aligned blocks on the devices `D`. -/
def blockKeys (D : Set Nat) : Set Key := { k | k.1 ∈ D ∧ k.2 % 8 = 0 ∧ k.2 < 4294967296 }

theorem separated_blockKeys (D : Set Nat) : Separated (blockKeys D) := by
  intro k hk k' hk' hne hdev i hi j hj he
  obtain ⟨-, hmod, hlt⟩ := hk
  obtain ⟨-, hmod', hlt'⟩ := hk'
  rw [u32_of_lt (by omega), u32_of_lt (by omega)] at he
  exact hne (Prod.ext hdev (by omega))

/-- The key of a block of the file system. -/
def Fs.home (s : Fs) (b : Nat) : Key := (s.dev, u32 (b * 8))

/-- A block as the cache delivers it. -/
def Fs.cached (s : Fs) (b : Nat) : Buf := s.blk.view (s.home b)

/-- A block as `ext3_read_block` delivers it. -/
def Fs.content (s : Fs) (b : Nat) : Buf :=
  ((findImage s.tx b).or (findImage s.overlay b)).getD (s.cached b)

/-- Blocks of 4096 bytes over a device that works. -/
structure Sound (D : Set Nat) (s : Fs) : Prop where
  dev : s.dev ∈ D
  size : s.blockSize = 4096
  sectors : s.sectorsPerBlock = 8
  inv : CacheInv (blockKeys D) ∅ s.blk
  works : Works (blockKeys D) s.blk
  clip : ∀ p ∈ s.tx ++ s.overlay, Clipped 4096 p.2

/-- Nothing but the cache and the count of allocations has changed, and the cache not in
a way that shows. -/
structure Reads (D : Set Nat) (s s' : Fs) : Prop where
  rest : s' = { s with blk := s'.blk, mallocs := s'.mallocs }
  inv : CacheInv (blockKeys D) ∅ s'.blk
  hidden : Hidden (blockKeys D) ∅ s.blk s'.blk

/-- No allocation fails. -/
def HeapOk (s : Fs) : Prop := ∀ n, s.heap n = false

variable {i b : Nat} {α : Type}

section Looks

variable {D : Set Nat} {s s' s'' : Fs}

theorem Sound.home_mem (h : Sound D s) (b : Nat) : s.home b ∈ blockKeys D := by
  refine ⟨h.dev, ?_, u32_lt _⟩
  show u32 (b * 8) % 8 = 0
  unfold u32
  omega

theorem Sound.dev_ne (h : Sound D s) : s.dev ≠ 0 ∧ s.blk.disk.canWrite s.dev = true :=
  h.works.canWrite (s.home 0) (h.home_mem 0)

theorem Reads.refl (h : Sound D s) : Reads D s s := ⟨rfl, h.inv, Hidden.refl _ _ _⟩

theorem Reads.trans (h : Reads D s s') (h' : Reads D s' s'') : Reads D s s'' := by
  refine ⟨?_, h'.inv, h.hidden.trans h'.hidden⟩
  rw [h'.rest, h.rest]

/-- Nothing has changed but the cache, which still works, and the count of allocations. -/
theorem Sound.same {m : Nat} (hs : Sound D s) (hrest : s' = { s with blk := s'.blk, mallocs := m })
    (hinv : CacheInv (blockKeys D) ∅ s'.blk) (henv : Env s.blk s'.blk) : Sound D s' := by
  refine ⟨?_, ?_, ?_, hinv, hs.works.env henv, ?_⟩
  · rw [hrest]; exact hs.dev
  · rw [hrest]; exact hs.size
  · rw [hrest]; exact hs.sectors
  · rw [hrest]; exact hs.clip

theorem Reads.sound (h : Reads D s s') (hs : Sound D s) : Sound D s' :=
  hs.same h.rest h.inv h.hidden.toEnv

theorem Reads.cached (h : Reads D s s') (hs : Sound D s) (b : Nat) : s'.cached b = s.cached b := by
  have hhome : s'.home b = s.home b := by
    rw [h.rest]
    rfl
  unfold Fs.cached
  rw [hhome]
  exact h.hidden.view _ (hs.home_mem b) fun hc => hc

theorem Reads.content (h : Reads D s s') (hs : Sound D s) (b : Nat) :
    s'.content b = s.content b := by
  unfold Fs.content
  rw [h.cached hs b, show s'.tx = s.tx from by rw [h.rest],
    show s'.overlay = s.overlay from by rw [h.rest]]

theorem Reads.heapOk (h : Reads D s s') (hh : HeapOk s) : HeapOk s' := by
  rw [h.rest]
  exact hh

theorem findImage_mem {images : List BlockImage} {data : Buf}
    (h : findImage images b = some data) : (b, data) ∈ images := by
  obtain ⟨p, hp, hd⟩ := Option.map_eq_some_iff.mp h
  have hmem := List.mem_of_find?_eq_some hp
  have hb : p.1 = b := by simpa using List.find?_some hp
  rw [← hb, ← hd]
  exact hmem

theorem Sound.content_clipped (h : Sound D s) (b : Nat) : Clipped 4096 (s.content b) := by
  unfold Fs.content
  cases htx : findImage s.tx b with
  | some data => exact h.clip _ (List.mem_append_left _ (findImage_mem htx))
  | none =>
    cases hov : findImage s.overlay b with
    | some data => exact h.clip _ (List.mem_append_right _ (findImage_mem hov))
    | none => exact h.inv.view_clipped _

/-- Copying a block into a fresh allocation. -/
theorem memcpy_fresh {p : Buf} (h : Clipped 4096 p) : memcpy (fun _ => 0) 0 p 0 4096 = p := by
  have hz : Clipped 4096 fun _ => 0 := fun _ _ => rfl
  rw [hz.memcpy_all, h.slice_self]

end Looks

section Calls

variable {D : Set Nat} {s : Fs}

@[simp] theorem ends_require {p : Bool} {Q : Unit → Fs → Prop} {E : Stop → Fs → Prop} :
    Ends (require p) s Q E ↔ if p then Q () s else E .fail s := by
  cases p <;> rfl

theorem ends_onBlk {f : Cache → Except Stop α × Cache} {Q : α → Fs → Prop} {E : Stop → Fs → Prop} :
    Ends (onBlk f) s Q E ↔
      match f s.blk with
      | (.ok a, blk) => Q a { s with blk }
      | (.error e, blk) => E e { s with blk } := by
  unfold Ends onBlk
  rcases f s.blk with ⟨_ | _, _⟩ <;> rfl

theorem ends_attempt {x : Call α} {Q : Option α → Fs → Prop} {E : Stop → Fs → Prop} :
    Ends (attempt x) s Q E ↔
      Ends x s (fun a s' => Q (some a) s')
        fun e s' => (e = .fail → Q none s') ∧ (e = .hang → E .hang s') := by
  unfold Ends attempt
  rcases x s with ⟨a, s'⟩ | ⟨e, s'⟩
  · rfl
  · cases e <;> simp

theorem ends_orZero {x : Call Nat} {Q : Nat → Fs → Prop} {E : Stop → Fs → Prop} :
    Ends (orZero x) s Q E ↔
      Ends x s Q fun e s' => (e = .fail → Q 0 s') ∧ (e = .hang → E .hang s') := by
  unfold orZero
  rw [ends_bind, ends_attempt]
  rfl

theorem ends_kmallocs {n : Nat} {Q : Unit → Fs → Prop} {E : Stop → Fs → Prop} :
    Ends (kmallocs n) s Q E ↔
      if (List.range n).any fun i => s.heap (s.mallocs + i) then
        E .fail { s with mallocs := s.mallocs + n }
      else Q () { s with mallocs := s.mallocs + n } := by
  unfold Ends kmallocs
  cases (List.range n).any fun i => s.heap (s.mallocs + i) <;> rfl

/-- One allocation. -/
theorem ends_kmalloc {Q : Buf → Fs → Prop} {E : Stop → Fs → Prop} : Ends kmalloc s Q E ↔
      if s.heap s.mallocs then E .fail { s with mallocs := s.mallocs + 1 }
      else Q (fun _ => 0) { s with mallocs := s.mallocs + 1 } := by
  unfold kmalloc
  rw [ends_bind, ends_kmallocs]
  simp

theorem Sound.malloc (h : Sound D s) (n : Nat) : Reads D s { s with mallocs := s.mallocs + n } :=
  ⟨rfl, h.inv, Hidden.refl _ _ _⟩

theorem Sound.readDiskBlock (h : Sound D s) (b : Nat) (buf : Buf) : Ends (ext3ReadDiskBlock b buf) s
      (fun r s' => r = memcpy buf 0 (s.cached b) 0 4096 ∧ Reads D s s') fun _ _ => False := by
  have hcall : (s.dev ≠ 0 && s.blockSize ≠ 0) = true := by simp [h.dev_ne.1, h.size]
  have hkey : (s.dev, u32 (b * s.sectorsPerBlock)) = s.home b := by rw [h.sectors]; rfl
  unfold ext3ReadDiskBlock
  simp only [ends_bind, ends_get, ends_require, ends_pure, hcall, if_true, ends_onBlk]
  obtain ⟨hinv, hhid, -⟩ := h.inv.read_spec (separated_blockKeys D) (h.home_mem b)
  have hok := h.works.read_ok (separated_blockKeys D) h.inv (h.home_mem b)
  rw [← hkey] at hinv hhid hok
  split
  next a blk he =>
    rw [he] at hinv hhid hok
    rw [Except.ok.inj hok, hkey]
    exact ⟨rfl, rfl, hinv, hhid⟩
  next e blk he =>
    rw [he] at hok
    cases hok

theorem Sound.readBlock (h : Sound D s) (b : Nat) (buf : Buf) : Ends (ext3ReadBlock b buf) s
      (fun r s' => r = memcpy buf 0 (s.content b) 0 4096 ∧ Reads D s s') fun _ _ => False := by
  unfold ext3ReadBlock Fs.content
  simp only [ends_bind, ends_get, h.size]
  cases findImage s.tx b with
  | some data => exact ⟨rfl, Reads.refl h⟩
  | none =>
    cases findImage s.overlay b with
    | some data => exact ⟨rfl, Reads.refl h⟩
    | none => exact h.readDiskBlock b buf

/-- `kmalloc` and then `ext3_read_block` into it, as most callers do. -/
theorem Sound.fresh_bind (h : Sound D s) {f : Buf → Call α}
    {Q : α → Fs → Prop} {E : Stop → Fs → Prop}
    (hok : ∀ s', Reads D s s' → Ends (f (s.content b)) s' Q E)
    (hno : ∀ s', ¬ HeapOk s → Reads D s s' → E .fail s') :
    Ends (do let blk ← kmalloc; let blk ← ext3ReadBlock b blk; f blk) s Q E := by
  rw [ends_bind, ends_kmalloc]
  have hm := h.malloc 1
  split
  next hf => exact hno _ (fun hc => absurd (hc s.mallocs) (by simp [hf])) hm
  next hf =>
    refine ((hm.sound h).readBlock b _).bind (fun r s' hr => ?_) fun _ _ hc => hc.elim
    obtain ⟨rfl, hreads⟩ := hr
    rw [hm.content h b, memcpy_fresh (h.content_clipped b)]
    exact hok s' (hm.trans hreads)

/-- The bytes of an inode, over the contents of all blocks. -/
def Fs.inodeIn (s : Fs) (v : Nat → Buf) (ino : Nat) : Buf :=
  slice (v (s.inodePlace ino).1) (s.inodePlace ino).2 Inode.size

theorem Sound.readInode (h : Sound D s) (ino : Nat) : Ends (ext3ReadInode ino) s
      (fun r s' => (ino ≠ 0 ∧ ino ≤ Super.inodesCount s.super) ∧ r = s.inodeIn s.content ino ∧
        Reads D s s')
      fun e s' => e = .fail ∧ ((ino ≠ 0 ∧ ino ≤ Super.inodesCount s.super) → ¬ HeapOk s) ∧
        Reads D s s' := by
  unfold ext3ReadInode
  rw [ends_bind, ends_get, ends_bind, ends_require]
  split
  next hino =>
    have hino : ino ≠ 0 ∧ ino ≤ Super.inodesCount s.super := by simpa using hino
    exact h.fresh_bind (fun s' hr => ⟨hino, rfl, hr⟩) fun s' hh hr => ⟨rfl, fun _ => hh, hr⟩
  next hino =>
    refine ⟨rfl, fun hc => absurd hc ?_, Reads.refl h⟩
    simpa using hino

/-- Entry `i` of the table in a block; a missing table has none. -/
def entryOf (v : Nat → Buf) (block i : Nat) : Nat := if block = 0 then 0 else ptrAt (v block) i

/-- The map of a file's blocks, over the contents of all blocks. -/
def indexOf (v : Nat → Buf) (inode : Buf) (l : Nat) : Nat :=
  if l < 12 then Inode.block inode l
  else if l - 12 < 1024 then entryOf v (Inode.block inode 12) (l - 12)
  else if l - 12 - 1024 < 1048576 then
    entryOf v (entryOf v (Inode.block inode 13) ((l - 12 - 1024) / 1024)) ((l - 12 - 1024) % 1024)
  else if l - 12 - 1024 - 1048576 < 1073741824 then
    entryOf v
      (entryOf v (entryOf v (Inode.block inode 14) ((l - 12 - 1024 - 1048576) / 1048576))
        ((l - 12 - 1024 - 1048576) % 1048576 / 1024))
      ((l - 12 - 1024 - 1048576) % 1048576 % 1024)
  else 0

/-- An entry is read within its block. -/
theorem ptrAt_memcpy (buf c : Buf) (hi : i < 1024) :
    ptrAt (memcpy buf 0 c 0 4096) i = ptrAt c i := by
  refine le32_congr fun k hk => ?_
  rw [memcpy_in (Nat.zero_le _) (by omega), Nat.sub_zero, Nat.zero_add]

/-- Reading a table and then its entry `i`: the entry, or a failure where it counts as
zero. -/
theorem Sound.readEntry (h : Sound D s) (block : Nat) (blk : Buf) (hi : i < 1024) :
    Ends (readTable block blk) s
      (fun r s' => block ≠ 0 ∧ ptrAt r i = entryOf s.content block i ∧ Reads D s s')
      fun e s' => e = .fail ∧ block = 0 ∧ s' = s := by
  unfold readTable
  rw [ends_bind, ends_require]
  split
  next hb =>
    have hb : block ≠ 0 := by simpa using hb
    refine (h.readBlock block blk).mono (fun r s' hr => ?_) fun _ _ hc => hc.elim
    obtain ⟨rfl, hreads⟩ := hr
    refine ⟨hb, ?_, hreads⟩
    rw [entryOf, if_neg hb, ptrAt_memcpy _ _ hi]
  next hb => exact ⟨rfl, by simpa using hb, rfl⟩

/-- A table is read for its entry `i`, and the call goes on with it. -/
theorem Sound.entry_bind (h : Sound D s) {block : Nat} {blk : Buf} (hi : i < 1024)
    {f : Buf → Call Nat} {Q : Nat → Fs → Prop} {E : Stop → Fs → Prop}
    (hok : block ≠ 0 → ∀ r s', ptrAt r i = entryOf s.content block i → Reads D s s' →
      Ends (f r) s' Q E)
    (hno : block = 0 → E .fail s) : Ends (readTable block blk >>= f) s Q E := by
  refine (h.readEntry block blk hi).bind (fun r s' hr => hok hr.1 r s' hr.2.1 hr.2.2) fun e s' he => ?_
  obtain ⟨rfl, hb, rfl⟩ := he
  exact hno hb

theorem entryOf_zero (v : Nat → Buf) (i : Nat) : entryOf v 0 i = 0 := if_pos rfl

theorem Reads.entryOf {s' : Fs} (hr : Reads D s s') (h : Sound D s) (block i : Nat) :
    Ext3.entryOf s'.content block i = Ext3.entryOf s.content block i := by
  unfold Ext3.entryOf
  rw [hr.content h]

/-- A block number that is found is that of the map. -/
theorem found_cases {a b : Nat} {P : Prop} (h : a = b ∨ a = 0 ∧ P) :
    a = 0 ∧ (b = 0 ∨ P) ∨ a = b ∧ a ≠ 0 := by
  by_cases hz : a = 0
  · exact .inl ⟨hz, h.imp (fun he => he.symm.trans hz) And.right⟩
  · exact .inr ⟨h.resolve_right fun hc => hz hc.1, hz⟩

/-- `ext3_block_index` follows the map, unless an allocation fails. -/
theorem Sound.blockIndex (h : Sound D s) (inode : Buf) (l : Nat) : Ends (ext3BlockIndex inode l) s
      (fun r s' => Reads D s s' ∧ (r = indexOf s.content inode l ∨ r = 0 ∧ ¬ HeapOk s))
      fun _ _ => False := by
  unfold ext3BlockIndex indexOf
  simp only [ends_bind, ends_get, h.size, show 4096 / 4 = 1024 from rfl,
    show 1024 * 1024 = 1048576 from rfl, show 1048576 * 1024 = 1073741824 from rfl]
  rcases Nat.lt_or_ge l 12 with h12 | h12
  · rw [if_pos h12, if_pos h12]
    exact ⟨Reads.refl h, .inl rfl⟩
  rw [if_neg (Nat.not_lt.mpr h12), if_neg (Nat.not_lt.mpr h12), ends_orZero, ends_bind, ends_kmalloc]
  split
  next hf =>
    refine ⟨fun _ => ⟨h.malloc 1, .inr ⟨rfl, fun hc => ?_⟩⟩, fun hc => by cases hc⟩
    rw [hc s.mallocs] at hf
    cases hf
  have hm := h.malloc 1
  have hs := hm.sound h
  -- a missing table at any level ends the call with zero
  have hzero : ∀ {r : Nat} {s' : Fs}, Reads D s s' → r = 0 →
      (Stop.fail = .fail → Reads D s s' ∧ (0 = r ∨ 0 = 0 ∧ ¬ HeapOk s)) ∧
      (Stop.fail = .hang → False) :=
    fun hr he => ⟨fun _ => ⟨hr, .inl he.symm⟩, fun hc => by cases hc⟩
  rcases Nat.lt_or_ge (l - 12) 1024 with h1 | h1
  · rw [if_pos h1, if_pos h1]
    refine hs.entry_bind h1 (fun _ r s' hr hreads => ?_) fun hb => ?_
    · refine ⟨hm.trans hreads, .inl ?_⟩
      rw [hr, hm.entryOf h]
    · refine hzero hm ?_
      rw [hb, entryOf_zero]
  rw [if_neg (Nat.not_lt.mpr h1), if_neg (Nat.not_lt.mpr h1)]
  cases Nat.lt_or_ge (l - 12 - 1024) 1048576 with
  | inl h2 =>
    rw [if_pos h2, if_pos h2]
    refine hs.entry_bind (i := (l - 12 - 1024) / 1024) (by omega) (fun _ r s1 hr hr1 => ?_) fun hb => ?_
    · rw [hm.entryOf h] at hr
      have hm1 := hm.trans hr1
      rw [hr]
      refine (hm1.sound h).entry_bind (Nat.mod_lt (l - 12 - 1024) (by decide))
        (fun _ r2 s2 hr2 hreads => ?_) fun hb => ?_
      · refine ⟨hm1.trans hreads, .inl ?_⟩
        rw [hr2, hm1.entryOf h]
      · refine hzero hm1 ?_
        rw [hb, entryOf_zero]
    · refine hzero hm ?_
      rw [hb, entryOf_zero, entryOf_zero]
  | inr h2 =>
    rw [if_neg (Nat.not_lt.mpr h2), if_neg (Nat.not_lt.mpr h2), ends_bind, ends_require]
    cases Nat.lt_or_ge (l - 12 - 1024 - 1048576) 1073741824 with
    | inl h3 =>
      rw [if_pos h3, decide_eq_true h3, if_pos rfl]
      refine hs.entry_bind (i := (l - 12 - 1024 - 1048576) / 1048576) (by omega)
        (fun _ r s1 hr hr1 => ?_) fun hb => ?_
      · rw [hm.entryOf h] at hr
        have hm1 := hm.trans hr1
        rw [hr]
        refine (hm1.sound h).entry_bind (i := (l - 12 - 1024 - 1048576) % 1048576 / 1024) (by omega)
          (fun _ r2 s2 hr2 hr2' => ?_) fun hb => ?_
        · rw [hm1.entryOf h] at hr2
          have hm2 := hm1.trans hr2'
          rw [hr2]
          refine (hm2.sound h).entry_bind
            (Nat.mod_lt ((l - 12 - 1024 - 1048576) % 1048576) (by decide))
            (fun _ r3 s3 hr3 hreads => ?_) fun hb => ?_
          · refine ⟨hm2.trans hreads, .inl ?_⟩
            rw [hr3, hm2.entryOf h]
          · refine hzero hm2 ?_
            rw [hb, entryOf_zero]
        · refine hzero hm1 ?_
          rw [hb, entryOf_zero, entryOf_zero]
      · refine hzero hm ?_
        rw [hb, entryOf_zero, entryOf_zero, entryOf_zero]
    | inr h3 =>
      rw [if_neg (Nat.not_lt.mpr h3), decide_eq_false (Nat.not_lt.mpr h3)]
      exact hzero hm rfl

/-- A block written into the cache. -/
structure Puts (D : Set Nat) (s s' : Fs) (b : Nat) (data : Buf) : Prop where
  rest : s' = { s with blk := s'.blk }
  inv : CacheInv (blockKeys D) ∅ s'.blk
  env : Env s.blk s'.blk
  quiet : Quiet (blockKeys D \ {s.home b}) ∅ s.blk s'.blk
  view : s'.blk.view (s.home b) = slice data 0 4096

theorem Puts.sound {s' : Fs} {data : Buf} (h : Puts D s s' b data) (hs : Sound D s) : Sound D s' :=
  hs.same h.rest h.inv h.env

theorem Sound.writeDiskBlock (h : Sound D s) (b : Nat) (data : Buf) :
    Ends (ext3WriteDiskBlock b data) s (fun _ s' => Puts D s s' b data) fun _ _ => False := by
  have hcall : (s.dev ≠ 0 && s.blk.disk.canWrite s.dev && s.blockSize ≠ 0) = true := by
    simp [h.dev_ne.1, h.dev_ne.2, h.size]
  have hkey : (s.dev, u32 (b * s.sectorsPerBlock)) = s.home b := by rw [h.sectors]; rfl
  unfold ext3WriteDiskBlock
  simp only [ends_bind, ends_get, ends_require, hcall, if_true, ends_onBlk]
  have hok := h.works.write_ok h.inv (h.home_mem b) data
  have hspec := h.inv.write_spec (separated_blockKeys D) (h.home_mem b) data
  rw [← hkey] at hok hspec
  rcases hspec with ⟨e, he, -⟩ | ⟨-, hinv, hq, henv, -, hview, -⟩
  · exact absurd (hok.symm.trans he) (by simp)
  replace hinv := hinv.weaken fun _ hk => hk.1
  split
  next a blk he =>
    rw [he] at hinv hq henv hview
    rw [hkey] at hq hview
    exact ⟨rfl, hinv, henv, hq, hview⟩
  next e blk he =>
    rw [he] at hok
    cases hok

end Calls

end Drunix.Ext3
