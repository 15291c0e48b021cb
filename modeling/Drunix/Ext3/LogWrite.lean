import Drunix.Ext3.Log
import Drunix.Lib.Writes

/-!
# Writing to the log

Blocks of the journal go through the cache to the device at once. What a run of such
writes leaves is a list of blocks, in the order of the writes (`Stores`); the writes of
`jbd_update_super` and `jbd_write_transaction` are spelled out as such lists, for a
journal whose own tables lie apart from its blocks and from the transaction (`Layout`).
-/

namespace Drunix.Ext3

open Lib Blk Function

/-! ## Blocks written through -/

/-- The sector writes of a block write. -/
def blockSectors (w : Key × Buf) : List SectorWrite :=
  (List.range 8).map (sectorOf w.1.1 w.1.2 w.2)

/-- Nothing is unsaved. -/
def Saved (D : Set Nat) (b : Cache) : Prop := ∀ k ∈ blockKeys D, b.Clean k

/-- After a call the blocks `ws` show, which may be on the device or not. -/
structure Shows (D : Set Nat) (s s' : Fs) (ws : List (Key × Buf)) : Prop where
  rest : s' = { s with blk := s'.blk, mallocs := s'.mallocs }
  inv : CacheInv (blockKeys D) ∅ s'.blk
  env : Env s.blk s'.blk
  view : ∀ k ∈ blockKeys D, s'.blk.view k = stored s.blk.view ws k

/-- Nothing but the blocks of a list has been written, in its order. -/
structure Stores (D : Set Nat) (s s' : Fs) (ws : List (Key × Buf)) : Prop
    extends Shows D s s' ws where
  saved : Saved D s.blk → Saved D s'.blk ∧
    s'.blk.disk.log = s.blk.disk.log ++ ws.flatMap blockSectors

section Stores

variable {D : Set Nat} {s s' s'' : Fs} {ws ws' : List (Key × Buf)}

theorem Shows.sound (h : Shows D s s' ws) (hs : Sound D s) : Sound D s' :=
  hs.same h.rest h.inv h.env

theorem Reads.stores (h : Reads D s s') : Stores D s s' [] := by
  refine ⟨⟨h.rest, h.inv, h.hidden.toEnv, fun k hk => h.hidden.view k hk fun hc => hc⟩,
    fun hsaved => ?_⟩
  refine ⟨fun k hk data hd => hsaved k hk data (h.hidden.dirty k hk data hd), ?_⟩
  obtain ⟨ws, hlog, hws⟩ := h.hidden.log
  cases ws with
  | nil => exact hlog
  | cons w ws =>
    obtain ⟨k, hk, data, -, -, hdirty, -⟩ := hws w List.mem_cons_self
    exact absurd hdirty (hsaved k hk data)

theorem Shows.trans (h : Shows D s s' ws) (h' : Shows D s' s'' ws') :
    Shows D s s'' (ws ++ ws') := by
  refine ⟨?_, h'.inv, h.env.trans h'.env, fun k hk => ?_⟩
  · rw [h'.rest, h.rest]
  · rw [h'.view k hk, stored_append]
    exact stored_congr (h.view k hk) ws'

theorem Stores.trans (h : Stores D s s' ws) (h' : Stores D s' s'' ws') :
    Stores D s s'' (ws ++ ws') := by
  refine ⟨h.toShows.trans h'.toShows, fun hsaved => ?_⟩
  obtain ⟨hsaved', hlog⟩ := h.saved hsaved
  obtain ⟨hsaved'', hlog'⟩ := h'.saved hsaved'
  refine ⟨hsaved'', ?_⟩
  rw [hlog', hlog, List.flatMap_append, List.append_assoc]

theorem Stores.cached (h : Stores D s s' ws) (hs : Sound D s) (b : Nat) :
    s'.cached b = stored s.blk.view ws (s.home b) := by
  have hhome : s'.home b = s.home b := by
    rw [h.rest]
    rfl
  unfold Fs.cached
  rw [hhome]
  exact h.view _ (hs.home_mem b)

theorem sectorOf_slice (dev lba : Nat) (buf : Buf) {i : Nat} (hi : i < 8) :
    sectorOf dev lba (slice buf 0 4096) i = sectorOf dev lba buf i := by
  unfold sectorOf
  congr 1
  funext j
  unfold slice
  split
  · rw [if_pos (by omega), Nat.zero_add]
  · rfl

/-- `bcache_write_through` of a whole block. -/
theorem Sound.writeThrough (h : Sound D s) (b : Nat) (buf : Buf) :
    ∃ blk, bcacheWriteThrough s.blk (s.home b).1 (s.home b).2 buf = (.ok (), blk) ∧
      Stores D s { s with blk } [(s.home b, slice buf 0 4096)] := by
  have hk := h.home_mem b
  have hok := h.works.writeThrough_ok hk buf
  obtain ⟨hq, henv, ⟨n, -, hlog, hn⟩, hspec⟩ := h.inv.writeThrough_spec (separated_blockKeys D) hk buf
  obtain ⟨blk, hblk⟩ : ∃ blk, (bcacheWriteThrough s.blk (s.home b).1 (s.home b).2 buf).2 = blk := ⟨_, rfl⟩
  rw [hblk] at hq henv hlog hspec
  rw [hn hok] at hlog
  refine ⟨blk, Prod.ext hok hblk, ?_⟩
  rcases hspec with ⟨e, he, -⟩ | ⟨-, hinv, hclean, hblock⟩
  · exact absurd (hok.symm.trans he) (by simp)
  replace hinv := hinv.weaken fun _ hx => hx.1
  refine ⟨⟨rfl, hinv, henv, fun k hk' => ?_⟩, fun hsaved => ⟨fun k hk' => ?_, ?_⟩⟩
  · rw [stored_cons]
    show blk.view k = update s.blk.view (s.home b) (slice buf 0 4096) k
    by_cases he : k = s.home b
    · rw [he, update_self, hinv.view_clean (fun hc => hc) hclean, hblock]
    · rw [update_of_ne he]
      exact hq.view k ⟨hk', he⟩ fun hc => hc
  · by_cases he : k = s.home b
    · rw [he]
      exact hclean
    · exact fun data hd => hsaved k hk' data (hq.dirty k ⟨hk', he⟩ data hd)
  · rw [hlog]
    congr 1
    rw [List.flatMap_singleton]
    refine List.map_congr_left fun i hi => ?_
    exact (sectorOf_slice _ _ _ (List.mem_range.mp (List.mem_of_mem_take hi))).symm

/-- A block of the journal is written through the cache. -/
theorem Sound.journalWrite (h : Sound D s) (journal : Buf) (l : Nat) (buf : Buf) :
    Ends (ext3JournalWriteBlock journal l buf) s
      (fun _ s' => indexOf s.content journal l ≠ 0 ∧
        Stores D s s' [(s.home (indexOf s.content journal l), slice buf 0 4096)])
      fun e s' => e = .fail ∧ (indexOf s.content journal l = 0 ∨ ¬ HeapOk s) ∧ Reads D s s' := by
  refine (h.blockIndex journal l).bind (fun phys s1 hphys => ?_) fun _ _ hc => hc.elim
  obtain ⟨hr, hphys⟩ := hphys
  have hs1 := hr.sound h
  rw [ends_bind, ends_get, ends_bind, ends_require]
  rcases found_cases hphys with ⟨hz, hno⟩ | ⟨rfl, hz⟩
  · rw [if_neg (by simp [hz])]
    exact ⟨rfl, hno, hr⟩
  · rw [if_pos (by simp [hz, hs1.dev_ne.1, hs1.dev_ne.2]), ends_onBlk]
    obtain ⟨blk, hcall, hst⟩ := hs1.writeThrough (indexOf s.content journal l) buf
    have hhome : s1.home (indexOf s.content journal l) = s.home (indexOf s.content journal l) := by
      rw [hr.rest]
      rfl
    have hkey : u32 (indexOf s.content journal l * s1.sectorsPerBlock) =
        (s1.home (indexOf s.content journal l)).2 := by
      rw [hs1.sectors]
      rfl
    rw [hkey, show s1.dev = (s1.home (indexOf s.content journal l)).1 from rfl, hcall]
    refine ⟨hz, ?_⟩
    rw [hhome] at hst
    exact hr.stores.trans hst

end Stores

/-! ## The layout of a journal -/

/-- The tables that the map of block `l` goes through. -/
def mapTables (v : Nat → Buf) (inode : Buf) (l : Nat) : List Nat :=
  if l < 12 then []
  else if l - 12 < 1024 then [Inode.block inode 12]
  else if l - 12 - 1024 < 1048576 then
    [Inode.block inode 13, entryOf v (Inode.block inode 13) ((l - 12 - 1024) / 1024)]
  else
    [Inode.block inode 14,
      entryOf v (Inode.block inode 14) ((l - 12 - 1024 - 1048576) / 1048576),
      entryOf v (entryOf v (Inode.block inode 14) ((l - 12 - 1024 - 1048576) / 1048576))
        ((l - 12 - 1024 - 1048576) % 1048576 / 1024)]

variable {l : Nat} {v v' : Nat → Buf}

theorem entryOf_congr {block : Nat} (h : v' block = v block) (i : Nat) :
    entryOf v' block i = entryOf v block i := by
  unfold entryOf
  rw [h]

/-- The map looks at its tables alone. -/
theorem indexOf_congr {inode : Buf}
    (h : ∀ t ∈ mapTables v inode l, v' t = v t) : indexOf v' inode l = indexOf v inode l := by
  unfold mapTables at h
  unfold indexOf
  split
  · rfl
  rename_i h0
  rw [if_neg h0] at h
  split
  next h1 =>
    rw [if_pos h1] at h
    exact entryOf_congr (h _ (by simp)) _
  rename_i h1
  rw [if_neg h1] at h
  split
  next h2 =>
    rw [if_pos h2] at h
    have htop := h _ List.mem_cons_self
    have hlow := h _ (List.mem_cons_of_mem _ List.mem_cons_self)
    rw [entryOf_congr htop, entryOf_congr hlow]
  rename_i h2
  rw [if_neg h2] at h
  split
  · have htop := h _ List.mem_cons_self
    have hmid := h _ (List.mem_cons_of_mem _ List.mem_cons_self)
    have hlow := h _ (List.mem_cons_of_mem _ (List.mem_cons_of_mem _ List.mem_cons_self))
    rw [entryOf_congr htop, entryOf_congr hmid, entryOf_congr hlow]
  · rfl

/-- The first `n` blocks of the journal have places of their own, and the tables that lead
to them lie elsewhere and outside the transaction. -/
structure Layout (s : Fs) (journal : Buf) (n : Nat) : Prop where
  mapped : ∀ l < n, indexOf s.cached journal l ≠ 0
  apart : ∀ l < n, ∀ l' < n,
    s.home (indexOf s.cached journal l) = s.home (indexOf s.cached journal l') → l = l'
  tables : ∀ l < n, ∀ t ∈ mapTables s.cached journal l, findImage s.tx t = none ∧
    ∀ l' < n, s.home t ≠ s.home (indexOf s.cached journal l')

/-- The key of a block of the journal. -/
def Fs.logKey (s : Fs) (journal : Buf) (l : Nat) : Key := s.home (indexOf s.cached journal l)

section Layout

variable {D : Set Nat} {s s' : Fs} {journal : Buf} {n : Nat} {ws : List (Key × Buf)}

/-- The map is the same under every look that shows the tables as they are. -/
theorem Layout.index (h : Layout s journal n)
    (hv : ∀ t, findImage s.tx t = none → (∀ l < n, s.home t ≠ s.logKey journal l) →
      v t = s.cached t) (hl : l < n) :
    indexOf v journal l = indexOf s.cached journal l := by
  refine indexOf_congr fun t ht => ?_
  obtain ⟨htx, hhome⟩ := h.tables l hl t ht
  exact hv t htx hhome

/-- Writes to the journal's blocks do not move them. -/
theorem Layout.content (h : Layout s journal n) (hs : Sound D s) (hov : s.overlay = [])
    (hst : Stores D s s' ws) (hws : ∀ w ∈ ws, ∃ l < n, w.1 = s.logKey journal l)
    (hl : l < n) : s'.home (indexOf s'.content journal l) = s.logKey journal l := by
  have hindex : indexOf s'.content journal l = indexOf s.cached journal l := by
    refine h.index (fun t htx ht => ?_) hl
    unfold Fs.content
    rw [show s'.tx = s.tx from by rw [hst.rest], show s'.overlay = s.overlay from by rw [hst.rest],
      htx, hov]
    rw [hst.cached hs]
    refine stored_other (fun w hw he => ?_) _
    obtain ⟨l', hl', hk⟩ := hws w hw
    exact ht l' hl' (he.symm.trans hk)
  rw [hindex, hst.rest]
  rfl

/-- Every write of the list goes to one of the journal's first `n` blocks. -/
def InLog (s : Fs) (journal : Buf) (n : Nat) (ws : List (Key × Buf)) : Prop :=
  ∀ w ∈ ws, ∃ l < n, w.1 = s.logKey journal l

theorem InLog.append {ws' : List (Key × Buf)} (h : InLog s journal n ws) (h' : InLog s journal n ws') :
    InLog s journal n (ws ++ ws') := by
  intro w hw
  rcases List.mem_append.mp hw with hw | hw
  · exact h w hw
  · exact h' w hw

theorem InLog.single (hl : l < n) (data : Buf) :
    InLog s journal n [(s.logKey journal l, data)] := by
  intro w hw
  rw [List.mem_singleton.mp hw]
  exact ⟨l, hl, rfl⟩

/-- One more block of the journal, after others. -/
theorem Layout.write (h : Layout s journal n) (hs : Sound D s) (hov : s.overlay = [])
    (hst : Stores D s s' ws) (hws : InLog s journal n ws) {l : Nat} (hl : l < n) {buf : Buf}
    (hbuf : Clipped 4096 buf) :
    Ends (ext3JournalWriteBlock journal l buf) s'
      (fun _ s'' => Stores D s s'' (ws ++ [(s.logKey journal l, buf)]))
      fun e _ => e = .fail := by
  refine ((hst.sound hs).journalWrite journal l buf).mono (fun _ s'' hw => ?_) fun _ _ he => he.1
  have hwrite := hw.2
  rw [h.content hs hov hst hws hl, hbuf.slice_self] at hwrite
  exact hst.trans hwrite

/-- The journal superblock after `jbd_update_super`. -/
def superAfter (jsb : Buf) (start seq : Nat) : Buf :=
  putBe32 (if seq ≠ 0 then putBe32 jsb 24 seq else jsb) 28 start

theorem superAfter_clipped {jsb : Buf} (h : Clipped 4096 jsb) (start seq : Nat) :
    Clipped 4096 (superAfter jsb start seq) := by
  refine Clipped.putBe32 ?_ (by decide) _
  split
  · exact h.putBe32 (by decide) _
  · exact h

theorem Layout.updateSuper (h : Layout s journal n) (hs : Sound D s) (hov : s.overlay = [])
    (hst : Stores D s s' ws) (hws : InLog s journal n ws) (hn : 0 < n) (start seq : Nat) :
    Ends (jbdUpdateSuper journal start seq) s'
      (fun _ s'' => Stores D s s'' (ws ++ [(s.logKey journal 0,
        superAfter (stored s.blk.view ws (s.logKey journal 0)) start seq)]))
      fun e _ => e = .fail := by
  have hzero : Clipped 4096 fun _ => 0 := fun _ _ => rfl
  have hs' := hst.sound hs
  unfold jbdUpdateSuper
  rw [ends_bind, ends_kmalloc]
  split
  · rfl
  have hm := hs'.malloc 1
  generalize ({ s' with mallocs := s'.mallocs + 1 } : Fs) = s0 at hm ⊢
  have hst0 := hst.trans hm.stores
  rw [List.append_nil] at hst0
  refine ((hm.sound hs').readJournal journal 0 hzero).bind (fun jsb s1 hj => ?_) fun _ _ he => he.1
  obtain ⟨-, rfl, hr⟩ := hj
  have hst1 := hst0.trans hr.stores
  rw [List.append_nil] at hst1
  have hkey := h.content hs hov hst0 hws hn
  have hjsb : s0.cached (indexOf s0.content journal 0) = stored s.blk.view ws (s.logKey journal 0) := by
    unfold Fs.cached
    rw [hkey]
    exact hst0.view _ (hs.home_mem _)
  have hclip : Clipped 4096 (s0.cached (indexOf s0.content journal 0)) := hst0.inv.view_clipped _
  rw [hjsb] at hclip ⊢
  exact h.write hs hov hst1 hws hn (superAfter_clipped hclip start seq)

theorem escapeBlock_clipped (data : Buf) : Clipped 4096 (escapeBlock 4096 data) := by
  have hcopy : Clipped 4096 (memcpy (fun _ => 0) 0 data 0 4096) :=
    Clipped.memcpy (fun _ _ => rfl) (by decide) _ _
  unfold escapeBlock
  dsimp only
  split
  · exact hcopy.memset (by decide) _
  · exact hcopy

theorem jbdWriteHeader_clipped {blk : Buf} (h : Clipped 4096 blk) (type seq : Nat) :
    Clipped 4096 (jbdWriteHeader blk type seq) :=
  ((h.putBe32 (by decide) _).putBe32 (by decide) _).putBe32 (by decide) _

theorem putTags_clipped (tx : List BlockImage) : ∀ {desc : Buf} {off : Nat}, Clipped 4096 desc →
    off + tx.length * 8 ≤ 4096 → Clipped 4096 (putTags desc off tx) := by
  induction tx with
  | nil => exact fun h _ => h
  | cons p ps ih =>
    intro desc off h hlen
    rw [List.length_cons] at hlen
    exact ih ((h.putBe32 (by omega) _).putBe32 (by omega) _) (by omega)

/-- The data blocks of a transaction, from block `pos` of the journal on. -/
def dataWrites (s : Fs) (journal : Buf) : Nat → List BlockImage → List (Key × Buf)
  | _, [] => []
  | pos, p :: ps => (s.logKey journal pos, escapeBlock 4096 p.2) :: dataWrites s journal (pos + 1) ps

/-- The blocks `jbd_write_transaction` writes. -/
def txWrites (s : Fs) (journal : Buf) (seq : Nat) : List (Key × Buf) :=
  (s.logKey journal 1, descriptorBlock seq s.tx) ::
    dataWrites s journal 2 s.tx ++ [(s.logKey journal (2 + s.tx.length), commitBlock seq)]

theorem Layout.writeData (h : Layout s journal n) (hs : Sound D s) (hov : s.overlay = [])
    (ps : List BlockImage) : ∀ {pos : Nat} {s' : Fs} {ws : List (Key × Buf)}, Stores D s s' ws →
      InLog s journal n ws → pos + ps.length ≤ n →
      Ends (jbdWriteData journal pos ps) s'
        (fun _ s'' => Stores D s s'' (ws ++ dataWrites s journal pos ps) ∧
          InLog s journal n (ws ++ dataWrites s journal pos ps))
        fun e _ => e = .fail := by
  induction ps with
  | nil =>
    intro pos s' ws hst hws _
    rw [dataWrites, List.append_nil]
    exact ⟨hst, hws⟩
  | cons p ps ih =>
    intro pos s' ws hst hws hlen
    rw [List.length_cons] at hlen
    unfold jbdWriteData
    rw [ends_bind, ends_get, (hst.sound hs).size]
    have hpos : pos < n := by omega
    refine (h.write hs hov hst hws hpos (escapeBlock_clipped p.2)).bind (fun _ s1 hst1 => ?_)
      fun _ _ he => he
    have hrest := @ih (pos + 1) s1 _ hst1 (hws.append (InLog.single hpos _)) (by omega)
    rwa [List.append_assoc] at hrest

/-- The transaction is written behind whatever was written before. -/
theorem Layout.writeTransaction (h : Layout s journal n) (hs : Sound D s) (hov : s.overlay = [])
    (hst : Stores D s s' ws) (hws : InLog s journal n ws) (htx : s.tx ≠ []) (seq : Nat) :
    Ends (jbdWriteTransaction journal seq n) s'
      (fun _ s'' => s.tx.length + 2 < n ∧ 12 + s.tx.length * 8 ≤ 4096 ∧
        Stores D s s'' (ws ++ txWrites s journal seq))
      fun e _ => e = .fail := by
  have htx' : s'.tx = s.tx := by rw [hst.rest]
  unfold jbdWriteTransaction
  rw [ends_bind, ends_get, htx', if_neg (by simpa using htx), ends_bind, ends_require]
  split
  case isFalse => rfl
  next hlen =>
  have hlen : s.tx.length + 2 < n := by
    simp only [Bool.and_eq_true, decide_eq_true_eq] at hlen
    exact hlen.2
  rw [ends_bind, ends_require, (hst.sound hs).size]
  split
  case isFalse => rfl
  next hfit =>
  have hfit : 12 + s.tx.length * 8 ≤ 4096 := by simpa using hfit
  rw [ends_bind, ends_kmallocs]
  split
  · rfl
  have hst1 := hst.trans ((hst.sound hs).malloc 2).stores
  rw [List.append_nil] at hst1
  have hdesc : Clipped 4096 (descriptorBlock seq s.tx) :=
    putTags_clipped s.tx (jbdWriteHeader_clipped (fun _ _ => rfl) 1 seq) hfit
  have hcommit : Clipped 4096 (commitBlock seq) := jbdWriteHeader_clipped (fun _ _ => rfl) 2 seq
  have h1 : 1 < n := by omega
  refine (h.write hs hov hst1 hws h1 hdesc).bind (fun _ s1 hst2 => ?_) fun _ _ he => he
  refine (h.writeData hs hov s.tx hst2 (hws.append (InLog.single h1 _)) (by omega)).bind
    (fun _ s2 hst3 => ?_) fun _ _ he => he
  refine (h.write hs hov hst3.1 hst3.2 (by omega) hcommit).mono (fun _ s3 hst4 => ?_) fun _ _ he => he
  refine ⟨hlen, hfit, ?_⟩
  rw [List.append_assoc, List.append_assoc] at hst4
  exact hst4

end Layout

end Drunix.Ext3
