import Drunix.Blk.BcacheInv

/-!
# The calls of the block cache

One lemma per call of `bcache.c`, over any set of keys whose blocks do not overlap.
They are assembled from four elementary changes: a block goes to the device
(`wroteDirty`), a slot that needs no saving is emptied (`dropSlot`), an empty or own slot
is filled (`fillSlot`), with what is on the device (`fillClean`).
-/

namespace Drunix.Blk

open Lib Function

variable {k : Key} {i : Nat}

variable {b' : Cache} {T' : Set Key} {s : Slot}

section Elementary

variable {K T : Set Key} {b : Cache}

/-- A dirty block is written to the device, at least in part. -/
theorem CacheInv.wroteDirty (hK : Separated K) (h : CacheInv K T b) (hi : i < slotCount)
    (hv : (b.slots i).valid = true) (hd : (b.slots i).dirty = true) {ok : Bool} {disk : Disk}
    (hw : Wrote b.disk (b.slots i).key (b.slots i).data ok disk) :
    CacheInv K T { b with disk } ∧ Hidden K T b { b with disk } := by
  have hother : ∀ k ∈ K, k ≠ (b.slots i).key → disk.block k = b.disk.block k :=
    fun k hk hne => hw.other k (hK k hk _ (h.key i hi hv) hne)
  have hinv : CacheInv K T { b with disk } := by
    refine { h with coh := fun j hj hjv hjd hjT => ?_ }
    have hne : (b.slots j).key ≠ (b.slots i).key := by
      intro he
      have := h.uniq j hj i hi hjv hv he
      subst this
      rw [hd] at hjd
      cases hjd
    rw [hother _ (h.key j hj hjv) hne]
    exact h.coh j hj hjv hjd hjT
  refine ⟨hinv, ?_⟩
  have hq : Quiet K T b { b with disk } := by
    refine Quiet.of_slots rfl (fun k hk _ => ?_) fun k hk hc => ?_
    · by_cases he : k = (b.slots i).key
      · subst he
        rw [hinv.view_cached hi hv rfl, h.view_cached hi hv rfl]
      · exact view_congr rfl (hother k hk he)
    · refine hother k hk fun he => hc (b.slots i).data ⟨i, hi, hv, hd, he.symm, rfl⟩
  obtain ⟨n, -, hlog, -⟩ := hw.log
  have henv : Env b { b with disk } := ⟨hw.base, hw.canWrite, hw.fails, rfl⟩
  refine { hq, henv with log := ⟨_, hlog, fun w hmem => ?_⟩ }
  obtain ⟨j, hj, rfl⟩ := List.mem_map.mp hmem
  exact ⟨_, h.key i hi hv, _, j, List.mem_range.mp (List.mem_of_mem_take hj),
    ⟨i, hi, hv, hd, rfl, rfl⟩, rfl⟩

/-- A slot is written. The key of a block in it is nowhere else, and it is dirty or agrees with
the device. -/
theorem CacheInv.setSlot (h : CacheInv K T b) (i : Nat)
    (hclip : Clipped 4096 s.data) (hkey : s.valid = true → s.key ∈ K)
    (huniq : s.valid = true →
      ∀ j < slotCount, (b.slots j).valid = true → (b.slots j).key = s.key → j = i)
    (hcoh : s.valid = true → s.dirty = false → s.data = b.disk.block s.key)
    (hT : ∀ j < slotCount, j ≠ i → (b.slots j).valid = true → (b.slots j).key ∈ T →
      (b.slots j).key ∈ T') : CacheInv K T' (b.setSlot i s) := by
  have hslot : ∀ j, j = i ∧ (b.setSlot i s).slots j = s ∨
      j ≠ i ∧ (b.setSlot i s).slots j = b.slots j := by
    intro j
    by_cases hj : j = i
    · exact .inl ⟨hj, by rw [hj, setSlot_self]⟩
    · exact .inr ⟨hj, setSlot_ne hj s⟩
  refine
    { clip := fun j => ?_, key := fun j hj hjv => ?_, uniq := fun j hj l hl hjv hlv he => ?_,
      coh := fun j hj hjv hjd hjT => ?_, lru := h.lru, tail := h.tail }
  · rcases hslot j with ⟨-, e⟩ | ⟨-, e⟩ <;> rw [e]
    · exact hclip
    · exact h.clip j
  · rcases hslot j with ⟨-, e⟩ | ⟨-, e⟩ <;> rw [e] at hjv ⊢
    · exact hkey hjv
    · exact h.key j hj hjv
  · rcases hslot j with ⟨hji, ej⟩ | ⟨-, ej⟩ <;> rcases hslot l with ⟨hli, el⟩ | ⟨-, el⟩ <;>
      rw [ej] at hjv he <;> rw [el] at hlv he
    · rw [hji, hli]
    · rw [hji, huniq hjv l hl hlv he.symm]
    · rw [hli, huniq hlv j hj hjv he]
    · exact h.uniq j hj l hl hjv hlv he
  · rcases hslot j with ⟨-, e⟩ | ⟨hji, e⟩ <;> rw [e] at hjv hjd hjT ⊢
    · exact hcoh hjv hjd
    · exact h.coh j hj hjv hjd fun hc => hjT (hT j hj hji hjv hc)

theorem dirtyAt_setSlot {data : Buf} (hs : s.valid = true → s.dirty = true → s.key ≠ k)
    (hb : (b.slots i).valid = true → (b.slots i).dirty = true → (b.slots i).key ≠ k) :
    (b.setSlot i s).DirtyAt k data ↔ b.DirtyAt k data := by
  constructor
  · rintro ⟨j, hj, hv, hd, hk, hdata⟩
    have hji : j ≠ i := by
      rintro rfl
      rw [setSlot_self] at hv hd hk
      exact hs hv hd hk
    rw [setSlot_ne hji] at hv hd hk hdata
    exact ⟨j, hj, hv, hd, hk, hdata⟩
  · rintro ⟨j, hj, hv, hd, hk, hdata⟩
    have hji : j ≠ i := by
      rintro rfl
      exact hb hv hd hk
    rw [← setSlot_ne hji s] at hv hd hk hdata
    exact ⟨j, hj, hv, hd, hk, hdata⟩

/-- With the same dirty blocks and the same device everything shows as before. -/
theorem Quiet.of_dirty {K' : Set Key} (h : CacheInv K T b) (h' : CacheInv K T' b')
    (hT : T' ⊆ T) (hdisk : b'.disk = b.disk)
    (hd : ∀ k ∈ K', ∀ data, b'.DirtyAt k data ↔ b.DirtyAt k data) : Quiet K' T b b' := by
  refine ⟨fun k hk hkT => ?_, fun k hk data => (hd k hk data).mp,
    fun k hk data hx => .inl ((hd k hk data).mpr hx), fun k _ _ => by rw [hdisk]⟩
  by_cases hc : b.Clean k
  · rw [h.view_clean hkT hc, h'.view_clean (fun hx => hkT (hT hx))
      fun data hx => hc data ((hd k hk data).mp hx), hdisk]
  · obtain ⟨data, hx⟩ := not_forall_not.mp hc
    rw [h.view_dirty hx, h'.view_dirty ((hd k hk data).mpr hx)]

/-- A slot is emptied. Nothing shows unless its block was unsaved. -/
theorem CacheInv.dropSlot (h : CacheInv K T b) (K' : Set Key) (i : Nat)
    (hs : s.valid = false) (hclip : Clipped 4096 s.data)
    (hsafe : (b.slots i).valid = true → (b.slots i).key ∈ K' → (b.slots i).dirty = false) :
    CacheInv K T (b.setSlot i s) ∧ Quiet K' T b (b.setSlot i s) ∧ Env b (b.setSlot i s) := by
  have hno : s.valid ≠ true := by simp [hs]
  have hinv : CacheInv K T (b.setSlot i s) :=
    h.setSlot i hclip (absurd · hno) (absurd · hno) (absurd · hno) fun _ _ _ _ hc => hc
  refine ⟨hinv, Quiet.of_dirty h hinv (fun _ hx => hx) rfl fun k hk data => ?_, ⟨rfl, rfl, rfl, rfl⟩⟩
  refine dirtyAt_setSlot (absurd · hno) fun hv hd he => ?_
  rw [hsafe hv (he ▸ hk)] at hd
  cases hd

/-- A slot is filled for the key it carries, which no other slot has. -/
theorem CacheInv.fillSlot (h : CacheInv K T b) (hi : i < slotCount) (hk : k ∈ K)
    (hkey : (b.slots i).key = k)
    (huniq : ∀ j < slotCount, (b.slots j).valid = true → (b.slots j).key = k → j = i) (hs : s.valid = true) (hsk : s.key = k) (hclip : Clipped 4096 s.data)
    (hcoh : s.dirty = false → s.data = b.disk.block k) :
    CacheInv K (T \ {k}) (b.setSlot i s) ∧ Quiet (K \ {k}) T b (b.setSlot i s) ∧
      Env b (b.setSlot i s) ∧ (b.setSlot i s).view k = s.data ∧
      (s.dirty = false → (b.setSlot i s).Clean k) := by
  subst hsk
  have hself : (b.setSlot i s).slots i = s := setSlot_self i s
  have hinv : CacheInv K (T \ {s.key}) (b.setSlot i s) :=
    h.setSlot i hclip (fun _ => hk) (fun _ => huniq) (fun _ => hcoh) fun j hj hji hjv hc =>
      ⟨hc, fun he => hji (huniq j hj hjv he)⟩
  refine ⟨hinv, ?_, ⟨rfl, rfl, rfl, rfl⟩, ?_, fun hsd data hd => ?_⟩
  · refine Quiet.of_dirty h hinv (fun _ hx => hx.1) rfl fun k' hk' data => ?_
    exact dirtyAt_setSlot (fun _ _ he => hk'.2 he.symm) fun _ _ he => hk'.2 (he.symm.trans hkey)
  · rw [hinv.view_cached hi (by rwa [hself]) (by rw [hself]), hself]
  · obtain ⟨j, hj, hjv, hjd, hjk, -⟩ := hd
    have hji : j = i := hinv.uniq j hj i hi hjv (by rwa [hself]) (by rw [hself, hjk])
    rw [hji, hself, hsd] at hjd
    cases hjd

theorem CacheInv.weaken (h : CacheInv K T b) (hT : T ⊆ T') : CacheInv K T' b :=
  { h with coh := fun i hi hv hd hk => h.coh i hi hv hd fun hc => hk (hT hc) }

/-- A slot gets the value of its key, which is on the device: nothing shows. -/
theorem CacheInv.fillClean (h : CacheInv K T b) (hi : i < slotCount) (hk : k ∈ K)
    (hkey : (b.slots i).key = k)
    (huniq : ∀ j < slotCount, (b.slots j).valid = true → (b.slots j).key = k → j = i) (hs : s.valid = true) (hsd : s.dirty = false) (hsk : s.key = k)
    (hdata : s.data = b.disk.block k) (hview : b.view k = s.data) :
    CacheInv K T (b.setSlot i s) ∧ Hidden K T b (b.setSlot i s) := by
  obtain ⟨hinv, hq, henv, hv, hafter⟩ := h.fillSlot hi hk hkey huniq hs hsk
    (by rw [hdata]; exact b.disk.block_clipped k) fun _ => hdata
  have hquiet : Quiet K T b (b.setSlot i s) := by
    refine ⟨fun k' hk' hT => ?_, fun k' hk' data hd => ?_, fun k' hk' data hd => ?_,
      fun _ _ _ => rfl⟩ <;> by_cases he : k' = k
    · rw [he, hv, hview]
    · exact hq.view k' ⟨hk', he⟩ hT
    · exact absurd (he ▸ hd) (hafter hsd data)
    · exact hq.dirty k' ⟨hk', he⟩ data hd
    · subst he
      exact .inr ⟨hafter hsd, hdata.symm.trans (hview.symm.trans (h.view_dirty hd))⟩
    · exact hq.saved k' ⟨hk', he⟩ data hd
  exact ⟨hinv.weaken fun _ hx => hx.1, { hquiet, henv with log := Logged.of_eq rfl }⟩

end Elementary

section Calls

variable {K T : Set Key} {b : Cache}

/-- The same keys are cached in the same slots. -/
def SameKeys (b b' : Cache) : Prop :=
  ∀ j, (b'.slots j).valid = (b.slots j).valid ∧ (b'.slots j).key = (b.slots j).key

/-- `slot_writeback`. -/
theorem CacheInv.writeback (hK : Separated K) (h : CacheInv K T b) (hi : i < slotCount) :
    CacheInv K T (slotWriteback b i).2 ∧ Hidden K T b (slotWriteback b i).2 ∧
      ((slotWriteback b i).1 = true → ((slotWriteback b i).2.slots i).valid = true →
        ((slotWriteback b i).2.slots i).dirty = false) ∧
      SameKeys b (slotWriteback b i).2 := by
  unfold slotWriteback
  dsimp only
  split
  next hc =>
    refine ⟨h, Hidden.refl K T b, fun _ hv => ?_, fun _ => ⟨rfl, rfl⟩⟩
    have hvalid : (b.slots i).valid = true := hv
    simpa [hvalid] using hc
  next hc =>
  simp only [Bool.or_eq_true, Bool.not_eq_true', not_or, Bool.not_eq_false] at hc
  have hw := diskWriteBlock_spec b.disk (b.slots i).key (b.slots i).data
  obtain ⟨hinv, hhid⟩ := h.wroteDirty hK hi hc.1 hc.2 hw
  split
  next disk he =>
    have hd : (diskWriteBlock b.disk (b.slots i).key.1 (b.slots i).key.2 (b.slots i).data).2
        = disk := congrArg Prod.snd he
    rw [hd] at hinv hhid
    exact ⟨hinv, hhid, nofun, fun _ => ⟨rfl, rfl⟩⟩
  next disk he =>
  have hd : (diskWriteBlock b.disk (b.slots i).key.1 (b.slots i).key.2 (b.slots i).data)
      = (true, disk) := he
  rw [hd] at hinv hhid hw
  have hdone : disk.block (b.slots i).key = (b.slots i).data := by
    rw [hw.done rfl]
    exact (slice_clipped _ _ _).ext (h.clip i) fun j hj => by simp [slice, hj]
  obtain ⟨hinv', hhid'⟩ := hinv.fillClean hi (h.key i hi hc.1) rfl
    (fun j hj hjv hjk => h.uniq j hj i hi hjv hc.1 hjk)
    (s := { b.slots i with dirty := false }) hc.1 rfl rfl hdone.symm (hinv.view_cached hi hc.1 rfl)
  refine ⟨hinv', hhid.trans hhid', fun _ _ => by rw [setSlot_self], fun j => ?_⟩
  by_cases hj : j = i
  · rw [hj, setSlot_self]
    exact ⟨rfl, rfl⟩
  · rw [setSlot_ne hj]
    exact ⟨rfl, rfl⟩

/-- The walk of `acquire_slot` ends at a slot that needs no saving. -/
theorem CacheInv.acquireWalk_spec (hK : Separated K) (walk : Nat) (c : Option Nat)
    (hc : ∀ i, c = some i → i < slotCount) {b : Cache} (h : CacheInv K T b) :
    CacheInv K T (acquireWalk walk c b).2 ∧ Hidden K T b (acquireWalk walk c b).2 ∧
      SameKeys b (acquireWalk walk c b).2 ∧ ∀ v, (acquireWalk walk c b).1 = .ok v → v < slotCount ∧
        (((acquireWalk walk c b).2.slots v).valid = true →
          ((acquireWalk walk c b).2.slots v).dirty = false) := by
  have hsame : SameKeys b b := fun _ => ⟨rfl, rfl⟩
  induction walk generalizing c b with
  | zero =>
    cases c with
    | none | some i => exact ⟨h, Hidden.refl K T b, hsame, fun v hv => by simp [acquireWalk] at hv⟩
  | succ walk ih =>
    cases c with
    | none => exact ⟨h, Hidden.refl K T b, hsame, fun v hv => by simp [acquireWalk] at hv⟩
    | some i =>
      have hi : i < slotCount := hc i rfl
      unfold acquireWalk
      split
      next hfree =>
        refine ⟨h, Hidden.refl K T b, hsame, fun v hv => ?_⟩
        obtain rfl := Except.ok.inj hv
        refine ⟨hi, fun hv => ?_⟩
        have hvalid : (b.slots i).valid = true := hv
        simpa [hvalid] using hfree
      obtain ⟨hinv, hhid, hclean, hkeys⟩ := h.writeback hK hi
      split
      next b' he =>
        rw [he] at hinv hhid hclean hkeys
        refine ⟨hinv, hhid, hkeys, fun v hv => ?_⟩
        obtain rfl := Except.ok.inj hv
        exact ⟨hi, hclean rfl⟩
      next b' he =>
      rw [he] at hinv hhid hkeys
      -- the write-back failed: on to the slot before, the list reordered
      obtain ⟨hinv', hhid'⟩ := hinv.touch hi
      obtain ⟨h1, h2, h3, h4⟩ := ih (b.lru.prev i) (fun j hj => h.lru.prev i hi j hj) hinv'
        fun _ => ⟨rfl, rfl⟩
      refine ⟨h1, (hhid.trans hhid').trans h2, fun j => ?_, h4⟩
      obtain ⟨hv, hk⟩ := h3 j
      rw [lruTouch_slots] at hv hk
      exact ⟨hv.trans (hkeys j).1, hk.trans (hkeys j).2⟩

/-- `acquire_slot`: the slot carries the key, and no other slot does. -/
theorem CacheInv.acquireSlot_spec (hK : Separated K) (h : CacheInv K T b) (k : Key) :
    CacheInv K T (acquireSlot b k.1 k.2).2 ∧ Hidden K T b (acquireSlot b k.1 k.2).2 ∧
      ∀ i, (acquireSlot b k.1 k.2).1 = .ok i → i < slotCount ∧
        ((acquireSlot b k.1 k.2).2.slots i).key = k ∧
        (∀ j < slotCount, ((acquireSlot b k.1 k.2).2.slots j).valid = true →
          ((acquireSlot b k.1 k.2).2.slots j).key = k → j = i) ∧
        (findSlot b k.1 k.2 = none → ((acquireSlot b k.1 k.2).2.slots i).valid = false) := by
  unfold acquireSlot
  split
  next i hf =>
    obtain ⟨hi, hv, hk⟩ := findSlot_some hf
    obtain ⟨hinv, hhid⟩ := h.touch hi
    refine ⟨hinv, hhid, fun j hj => ?_⟩
    obtain rfl := Except.ok.inj hj
    rw [lruTouch_slots]
    exact ⟨hi, hk, fun j hj hjv hjk => h.uniq j hj i hi hjv hv (hjk.trans hk.symm),
      fun hn => absurd hn (by rw [hf]; simp)⟩
  next hf =>
  obtain ⟨hinv, hhid, hkeys, hok⟩ := CacheInv.acquireWalk_spec hK b.walk b.lru.tail
    (fun i hi => h.lru.tail i hi) h
  split
  next e b' he =>
    rw [he] at hinv hhid
    exact ⟨hinv, hhid, nofun⟩
  next v b' he =>
  rw [he] at hinv hhid hkeys hok
  obtain ⟨hv, hclean⟩ := hok v rfl
  -- the key is not cached before, so neither after the walk, nor after the drop
  obtain ⟨hinv', hq, henv⟩ := hinv.dropSlot K v
    (s := { b'.slots v with dev := k.1, lba := k.2, valid := false, dirty := false }) rfl
    (hinv.clip v) fun hvalid _ => hclean hvalid
  have hhid' : Hidden K T b' _ := { hq, henv with log := Logged.of_eq rfl }
  obtain ⟨hinv'', hhid''⟩ := hinv'.touch hv
  refine ⟨hinv'', (hhid.trans hhid').trans hhid'', fun i hi => ?_⟩
  obtain rfl := Except.ok.inj hi
  rw [lruTouch_slots, setSlot_self]
  refine ⟨hv, rfl, fun j hj hjv hjk => ?_, fun _ => rfl⟩
  by_contra hjv'
  rw [setSlot_ne hjv'] at hjv hjk
  exact findSlot_none hf j hj ((hkeys j).1 ▸ hjv) ((hkeys j).2 ▸ hjk)

/-- `bcache_read`: nothing shows, and the value is delivered. -/
theorem CacheInv.read_spec (hK : Separated K) (h : CacheInv K T b) (hk : k ∈ K) :
    CacheInv K T (bcacheRead b k.1 k.2).2 ∧ Hidden K T b (bcacheRead b k.1 k.2).2 ∧
      ∀ data, (bcacheRead b k.1 k.2).1 = .ok data → data = b.view k := by
  unfold bcacheRead
  split
  · exact ⟨h, Hidden.refl K T b, nofun⟩
  split
  next i hf =>
    obtain ⟨hi, hv, hik⟩ := findSlot_some hf
    obtain ⟨hinv, hhid⟩ := h.touch hi
    refine ⟨hinv, hhid, fun data hd => ?_⟩
    obtain rfl := Except.ok.inj hd
    exact (h.view_cached hi hv hik).symm
  next hf =>
  obtain ⟨hinv, hhid, hacq⟩ := h.acquireSlot_spec hK k
  split
  next e b1 he =>
    rw [he] at hinv hhid
    exact ⟨hinv, hhid, nofun⟩
  next i b1 he =>
  rw [he] at hinv hhid hacq
  obtain ⟨hi, hik, huniq, hempty⟩ := hacq i rfl
  have hinvalid := hempty hf
  obtain ⟨hsame, hclip, hdata⟩ := diskReadBlock_spec b1.disk k.1 k.2 (hinv.clip i)
  -- reading moves the device's clock only
  have hread : ∀ disk, SameDisk b1.disk disk → CacheInv K T { b1 with disk } ∧
      Hidden K T b1 { b1 with disk } := by
    intro disk hd
    refine ⟨{ hinv with coh := fun j hj hjv hjd hjT => ?_ }, ?_⟩
    · show (b1.slots j).data = disk.block _
      rw [hd.block]
      exact hinv.coh j hj hjv hjd hjT
    · have hq : Quiet K T b1 { b1 with disk } :=
        Quiet.of_slots rfl (fun k _ _ => view_congr rfl (hd.block k)) fun k _ _ => hd.block k
      have henv : Env b1 { b1 with disk } := ⟨hd.base, hd.canWrite, hd.fails, rfl⟩
      exact { hq, henv with log := Logged.of_eq hd.log }
  obtain ⟨hinv2, hhid2⟩ := hread _ hsame
  split
  next disk data hr =>
    rw [hr] at hclip hinv2 hhid2
    obtain ⟨hinv3, hq, henv⟩ := hinv2.dropSlot K i
      (s := { b1.slots i with dev := 0, valid := false, dirty := false, data }) rfl hclip
      fun hv _ => absurd hv (by rw [show _ = false from hinvalid]; simp)
    have hhid3 : Hidden K T { b1 with disk } _ := { hq, henv with log := Logged.of_eq rfl }
    obtain ⟨hinv4, hhid4⟩ := hinv3.demote hi
    exact ⟨hinv4, ((hhid.trans hhid2).trans hhid3).trans hhid4, nofun⟩
  next disk data hr =>
  rw [hr] at hdata hinv2 hhid2 hsame
  have hdata : data = b1.disk.block k := hdata rfl
  have hsame : SameDisk b1.disk disk := hsame
  have hdisk : data = disk.block k := by rw [hdata, hsame.block]
  obtain ⟨hinv3, hhid3⟩ := hinv2.fillClean hi hk hik huniq
    (s := { b1.slots i with valid := true, dirty := false, data }) rfl rfl hik hdisk
    ((view_uncached fun j hj hjv hjk => by
      rw [huniq j hj hjv hjk] at hjv
      exact absurd (hjv.symm.trans hinvalid) (by simp)).trans hdisk.symm)
  refine ⟨hinv3, (hhid.trans hhid2).trans hhid3, fun data' hd => ?_⟩
  obtain rfl := Except.ok.inj hd
  -- not cached: the value is what is on the device, before and after the eviction
  have huncached := findSlot_none hf
  rw [hdata, view_uncached huncached]
  exact hhid.block k hk (clean_uncached huncached)

/-- `bcache_write`: the value becomes the buffer, dirty, and nothing else shows. -/
theorem CacheInv.write_spec (hK : Separated K) (h : CacheInv K T b) (hk : k ∈ K) (buf : Buf) :
    (∃ e, (bcacheWrite b k.1 k.2 buf).1 = .error e ∧ CacheInv K T (bcacheWrite b k.1 k.2 buf).2 ∧
      Hidden K T b (bcacheWrite b k.1 k.2 buf).2) ∨
    ((bcacheWrite b k.1 k.2 buf).1 = .ok () ∧
      CacheInv K (T \ {k}) (bcacheWrite b k.1 k.2 buf).2 ∧
      Quiet (K \ {k}) T b (bcacheWrite b k.1 k.2 buf).2 ∧ Env b (bcacheWrite b k.1 k.2 buf).2 ∧
      Logged K b (bcacheWrite b k.1 k.2 buf).2 ∧
      (bcacheWrite b k.1 k.2 buf).2.view k = slice buf 0 4096 ∧
      (bcacheWrite b k.1 k.2 buf).2.DirtyAt k (slice buf 0 4096)) := by
  unfold bcacheWrite
  split
  · exact .inl ⟨_, rfl, h, Hidden.refl K T b⟩
  obtain ⟨hinv, hhid, hacq⟩ := h.acquireSlot_spec hK k
  split
  next e b1 he =>
    rw [he] at hinv hhid
    exact .inl ⟨e, rfl, hinv, hhid⟩
  next i b1 he =>
  rw [he] at hinv hhid hacq
  obtain ⟨hi, hik, huniq, -⟩ := hacq i rfl
  have hfull : memcpy (b1.slots i).data 0 buf 0 4096 = slice buf 0 4096 :=
    (hinv.clip i).memcpy_all buf
  rw [hfull]
  obtain ⟨hinv2, hq, henv, hv, -⟩ := hinv.fillSlot hi hk hik huniq
    (s := { b1.slots i with valid := true, dirty := true, data := slice buf 0 4096 }) rfl hik
    (slice_clipped _ _ _) nofun
  refine .inr ⟨rfl, hinv2, (hhid.toQuiet.mono (fun _ hx => hx.1) (fun _ hx => hx)).trans hq,
    hhid.toEnv.trans henv, ?_, hv, i, hi, ?_⟩
  · exact hhid.log.trans (Logged.of_eq rfl) hhid.dirty
  · rw [setSlot_self]
    exact ⟨rfl, rfl, hik, rfl⟩

/-- `bcache_write_through`: the device is written, and a cached copy follows. Where
it fails, only the key itself is affected. -/
theorem CacheInv.writeThrough_spec (hK : Separated K) (h : CacheInv K T b) (hk : k ∈ K)
    (buf : Buf) :
    Quiet (K \ {k}) T b (bcacheWriteThrough b k.1 k.2 buf).2 ∧
    Env b (bcacheWriteThrough b k.1 k.2 buf).2 ∧
    (∃ n ≤ 8, (bcacheWriteThrough b k.1 k.2 buf).2.disk.log =
        b.disk.log ++ ((List.range 8).take n).map (sectorOf k.1 k.2 buf) ∧
      ((bcacheWriteThrough b k.1 k.2 buf).1 = .ok () → n = 8)) ∧
    ((∃ e, (bcacheWriteThrough b k.1 k.2 buf).1 = .error e ∧
      CacheInv K (insert k T) (bcacheWriteThrough b k.1 k.2 buf).2 ∧
      ∀ data, b.DirtyAt k data → (bcacheWriteThrough b k.1 k.2 buf).2.DirtyAt k data) ∨
     ((bcacheWriteThrough b k.1 k.2 buf).1 = .ok () ∧
      CacheInv K (T \ {k}) (bcacheWriteThrough b k.1 k.2 buf).2 ∧
      (bcacheWriteThrough b k.1 k.2 buf).2.Clean k ∧
      (bcacheWriteThrough b k.1 k.2 buf).2.disk.block k = slice buf 0 4096)) := by
  have hw := diskWriteBlock_spec b.disk k buf
  unfold bcacheWriteThrough
  split
  · refine ⟨Quiet.refl _ T b, Env.refl b, ⟨0, Nat.zero_le _, by simp, nofun⟩,
      .inl ⟨_, rfl, h.weaken (Set.subset_insert k T), fun _ hd => hd⟩⟩
  obtain ⟨ok, disk, hr⟩ : ∃ ok disk, diskWriteBlock b.disk k.1 k.2 buf = (ok, disk) := ⟨_, _, rfl⟩
  rw [hr] at hw ⊢
  have hother : ∀ k' ∈ K \ {k}, disk.block k' = b.disk.block k' :=
    fun k' hk' => hw.other k' (hK k' hk'.1 k hk hk'.2)
  have hinv : CacheInv K (insert k T) { b with disk } := by
    refine { h with coh := fun j hj hjv hjd hjT => ?_ }
    have hjT : (b.slots j).key ∉ insert k T := hjT
    rw [hother _ ⟨h.key j hj hjv, fun he => hjT (.inl he)⟩]
    exact h.coh j hj hjv hjd fun hc => hjT (.inr hc)
  have hq : Quiet (K \ {k}) T b { b with disk } :=
    Quiet.of_slots rfl (fun k' hk' _ => view_congr rfl (hother k' hk')) fun k' hk' _ => hother k' hk'
  have henv : Env b { b with disk } := ⟨hw.base, hw.canWrite, hw.fails, rfl⟩
  obtain ⟨n, hn, hlog, hall⟩ := hw.log
  cases ok with
  | false =>
    exact ⟨hq, henv, ⟨n, hn, hlog, nofun⟩,
      .inl ⟨_, rfl, hinv, fun data hd => (dirtyAt_congr rfl).mpr hd⟩⟩
  | true =>
    dsimp only
    split
    next hf =>
      have hf : findSlot { b with disk } k.1 k.2 = none := hf
      refine ⟨hq, henv, ⟨n, hn, hlog, fun _ => hall rfl⟩, .inr ⟨rfl, ?_,
        clean_uncached (findSlot_none hf), hw.done rfl⟩⟩
      refine { hinv with coh := fun j hj hjv hjd hjT => hinv.coh j hj hjv hjd fun hc => ?_ }
      have hne := findSlot_none hf j hj hjv
      rcases hc with hc | hc
      · exact hne hc
      · exact hjT ⟨hc, hne⟩
    next i hf =>
    have hf : findSlot { b with disk } k.1 k.2 = some i := hf
    obtain ⟨hi, hv, hik⟩ := findSlot_some hf
    rw [(h.clip i).memcpy_all buf]
    obtain ⟨hinv2, hq2, henv2, -, hclean⟩ := hinv.fillSlot hi hk hik
      (fun j hj hjv hjk => hinv.uniq j hj i hi hjv hv (hjk.trans hik.symm))
      (s := { b.slots i with dirty := false, data := slice buf 0 4096 }) hv hik
      (slice_clipped _ _ _) fun _ => (hw.done rfl).symm
    have hsub : insert k T \ {k} ⊆ T \ {k} := by
      intro k' hk'
      rcases hk'.1 with hc | hc
      · exact absurd hc hk'.2
      · exact ⟨hc, hk'.2⟩
    have hq2 : Quiet (K \ {k}) T _ _ :=
      { hq2 with view := fun k' hk' hT => hq2.view k' hk' fun hc => hc.elim hk'.2 hT }
    obtain ⟨hinv3, hhid3⟩ := (hinv2.weaken hsub).touch hi
    have hq3 : Quiet (K \ {k}) T _ _ := hhid3.toQuiet.mono (fun _ hx => hx.1) (fun _ hx => hx.1)
    refine ⟨(hq.trans hq2).trans hq3, (henv.trans henv2).trans hhid3.toEnv,
      ⟨n, hn, by rw [lruTouch_disk]; exact hlog, fun _ => hall rfl⟩, .inr ⟨rfl, hinv3, ?_, ?_⟩⟩
    · intro data hd
      exact hclean rfl data (hhid3.dirty k hk data hd)
    · rw [lruTouch_disk]
      exact hw.done rfl

/-- One round of the sync. -/
theorem CacheInv.syncSlot_spec (hK : Separated K) {r : Bool × Cache} (h : CacheInv K T r.2)
    (dev : Nat) (hi : i < slotCount) :
    CacheInv K T (syncSlot dev r i).2 ∧ Hidden K T r.2 (syncSlot dev r i).2 ∧
      SameKeys r.2 (syncSlot dev r i).2 ∧
      ((syncSlot dev r i).1 = true → r.1 = true ∧ ((r.2.slots i).valid = true →
        dev = 0 ∨ (r.2.slots i).dev = dev → ((syncSlot dev r i).2.slots i).dirty = false)) := by
  have hsame : SameKeys r.2 r.2 := fun _ => ⟨rfl, rfl⟩
  unfold syncSlot
  dsimp only
  split
  next hc =>
    refine ⟨h, Hidden.refl K T r.2, hsame, fun hr => ⟨hr, fun hv _ => ?_⟩⟩
    simpa [hv] using hc
  split
  next hd =>
    refine ⟨h, Hidden.refl K T r.2, hsame, fun hr => ⟨hr, fun _ hc => ?_⟩⟩
    exact absurd hc (fun hc => hc.elim hd.1 hd.2)
  obtain ⟨hinv, hhid, hclean, hkeys⟩ := h.writeback hK hi
  refine ⟨hinv, hhid, hkeys, fun hr => ?_⟩
  simp only [Bool.and_eq_true] at hr
  exact ⟨hr.1, fun hv _ => hclean hr.2 ((hkeys i).1.trans hv)⟩

/-- `bcache_sync`: nothing shows, and if it succeeds no block of the device is
dirty any more. -/
theorem CacheInv.sync_spec (hK : Separated K) (h : CacheInv K T b) (dev : Nat) :
    CacheInv K T (bcacheSync b dev).2 ∧ Hidden K T b (bcacheSync b dev).2 ∧
      ((bcacheSync b dev).1 = true → ∀ k ∈ K, dev = 0 ∨ k.1 = dev → (bcacheSync b dev).2.Clean k) := by
  -- the slots done so far are clean, and stay so: rounds make no block dirty
  have hloop := foldl_range_inv (s := (true, b))
    (fun n r => CacheInv K T r.2 ∧ Hidden K T b r.2 ∧ SameKeys b r.2 ∧
      (r.1 = true → ∀ i < n, (b.slots i).valid = true → dev = 0 ∨ (b.slots i).dev = dev →
        r.2.Clean (b.slots i).key))
    ⟨h, Hidden.refl K T b, fun _ => ⟨rfl, rfl⟩, fun _ i hi => absurd hi (Nat.not_lt_zero i)⟩ (by
      intro n hn r hr
      obtain ⟨hinv, hhid, hkeys, hdone⟩ := hr
      obtain ⟨hinv', hhid', hkeys', hclean⟩ := hinv.syncSlot_spec hK dev hn
      refine ⟨hinv', hhid.trans hhid', fun j => ?_, fun hok i hi hv hdev => ?_⟩
      · exact ⟨(hkeys' j).1.trans (hkeys j).1, (hkeys' j).2.trans (hkeys j).2⟩
      · obtain ⟨hr1, hn'⟩ := hclean hok
        rcases Nat.lt_succ_iff_lt_or_eq.mp hi with hlt | rfl
        · intro data hd
          exact hdone hr1 i hlt hv hdev data
            (hhid'.dirty _ (h.key i (Nat.lt_trans hlt hn) hv) data hd)
        · intro data hd
          obtain ⟨j, hj, hjv, hjd, hjk, -⟩ := hd
          have hvi : (r.2.slots i).valid = true := (hkeys i).1.trans hv
          have hki := (hkeys i).2
          have hji : j = i := hinv'.uniq j hj i hn hjv ((hkeys' i).1.trans hvi)
            (by rw [hjk, (hkeys' i).2, hki])
          have hdevi : dev = 0 ∨ (r.2.slots i).dev = dev := by
            rw [show (r.2.slots i).dev = (b.slots i).dev from congrArg Prod.fst hki]
            exact hdev
          rw [hji, hn' hvi hdevi] at hjd
          exact absurd hjd (by simp))
  obtain ⟨r, hr⟩ : ∃ r, bcacheSync b dev = r := ⟨_, rfl⟩
  have hr' : (List.range slotCount).foldl (syncSlot dev) (true, b) = r := by
    unfold bcacheSync at hr
    exact hr
  rw [hr'] at hloop
  rw [hr]
  obtain ⟨hinv, hhid, hkeys, hdone⟩ := hloop
  refine ⟨hinv, hhid, fun hok k hk hdev data hd => ?_⟩
  obtain ⟨i, hi, hv, -, hik, -⟩ := id hd
  have hv' : (b.slots i).valid = true := (hkeys i).1.symm.trans hv
  have hik' : (b.slots i).key = k := (hkeys i).2.symm.trans hik
  refine hdone hok i hi hv' ?_ data (hik' ▸ hd)
  rw [← hik'] at hdev
  exact hdev

/-- `bcache_invalidate`: the key shows the device again. -/
theorem CacheInv.invalidate_spec (h : CacheInv K T b) (k : Key) :
    CacheInv K (T \ {k}) (bcacheInvalidate b k.1 k.2) ∧
      Quiet (K \ {k}) T b (bcacheInvalidate b k.1 k.2) ∧ Env b (bcacheInvalidate b k.1 k.2) ∧
      (bcacheInvalidate b k.1 k.2).disk = b.disk ∧ (bcacheInvalidate b k.1 k.2).Clean k := by
  unfold bcacheInvalidate
  split
  next hf =>
    have hun := findSlot_none hf
    refine ⟨{ h with coh := fun j hj hjv hjd hjT => ?_ }, Quiet.refl _ T b, Env.refl b, rfl,
      clean_uncached hun⟩
    exact h.coh j hj hjv hjd fun hc => hjT ⟨hc, hun j hj hjv⟩
  next i hf =>
  obtain ⟨hi, hv, hik⟩ := findSlot_some hf
  obtain ⟨hinv, hq, henv⟩ := h.dropSlot (K \ {k}) i
    (s := { b.slots i with dev := 0, valid := false, dirty := false }) rfl (h.clip i)
    fun _ hmem => absurd hik hmem.2
  -- the slot was the only one with the key
  have hun : ∀ j < slotCount,
      ((b.setSlot i { b.slots i with dev := 0, valid := false, dirty := false }).slots j).valid
        = true →
      ((b.setSlot i { b.slots i with dev := 0, valid := false, dirty := false }).slots j).key
        ≠ k := by
    intro j hj hjv hjk
    by_cases hji : j = i
    · rw [hji, setSlot_self] at hjv
      cases hjv
    · rw [setSlot_ne hji] at hjv hjk
      exact hji (h.uniq j hj i hi hjv hv (hjk.trans hik.symm))
  have hinv' : CacheInv K (T \ {k}) _ :=
    { hinv with coh := fun j hj hjv hjd hjT =>
        hinv.coh j hj hjv hjd fun hc => hjT ⟨hc, hun j hj hjv⟩ }
  obtain ⟨hinv2, hhid2⟩ := hinv'.demote hi
  refine ⟨hinv2, hq.trans (hhid2.toQuiet.mono (fun _ hx => hx.1) (fun _ hx => hx.1)),
    henv.trans hhid2.toEnv, by rw [lruDemote_disk]; rfl, ?_⟩
  intro data hd
  obtain ⟨j, hj, hjv, -, hjk, -⟩ := hd
  rw [lruDemote_slots] at hjv hjk
  exact hun j hj hjv hjk

/-- `bcache_init` leaves an empty cache. -/
theorem bcacheInit_spec (hclip : ∀ i, Clipped 4096 (b.slots i).data) :
    CacheInv K T (bcacheInit b) ∧ (bcacheInit b).disk = b.disk ∧ (bcacheInit b).walk = b.walk ∧
      ∀ i < slotCount, ((bcacheInit b).slots i).valid = false := by
  have hloop := foldl_range_inv (f := initSlot) (n := slotCount)
    (s := { b with lru := { b.lru with head := none, tail := none } })
    (fun n b' => (∀ i, Clipped 4096 (b'.slots i).data) ∧ (∀ i < n, (b'.slots i).valid = false) ∧
      b'.lru.In (· < n) ∧ (n ≠ 0 → b'.lru.tail.isSome = true) ∧ b'.disk = b.disk ∧
      b'.walk = b.walk)
    ⟨hclip, fun i hi => absurd hi (Nat.not_lt_zero i),
      ⟨nofun, nofun,
        fun x hx => absurd hx (Nat.not_lt_zero x), fun x hx => absurd hx (Nat.not_lt_zero x)⟩,
      fun hc => absurd rfl hc, rfl, rfl⟩ (by
      intro n _ b' hb
      obtain ⟨hc, hv, hin, -, hd, hw⟩ := hb
      have hne : ∀ i, i ≠ n → (initSlot b' n).slots i = b'.slots i :=
        fun i hi => update_of_ne hi ..
      have hself : ((initSlot b' n).slots n).valid = false ∧
          ((initSlot b' n).slots n).data = (b'.slots n).data := by
        unfold initSlot
        dsimp only
        rw [update_self]
        exact ⟨rfl, rfl⟩
      refine ⟨fun i => ?_, fun i hi => ?_, ?_, fun _ => DList.pushFront_tail _ _, hd, hw⟩
      · by_cases hin : i = n
        · rw [hin, hself.2]; exact hc n
        · rw [hne i hin]; exact hc i
      · by_cases hin : i = n
        · rw [hin]; exact hself.1
        · rw [hne i hin]; exact hv i (by omega)
      · -- the pointers of the new node are reset before it is pushed
        refine DList.In.pushFront ?_ (fun x hx => Nat.lt_succ_of_lt hx)
          (Nat.lt_succ_self n) fun x hx hne => by omega
        refine ⟨hin.head, hin.tail, DList.update_in (fun x hx _ => hin.prev x hx) ?_,
          DList.update_in (fun x hx _ => hin.next x hx) ?_⟩ <;>
        · intro a ha
          exact absurd ha (by simp))
  obtain ⟨b', hb'⟩ : ∃ b', bcacheInit b = b' := ⟨_, rfl⟩
  have hfold : (List.range slotCount).foldl initSlot
      { b with lru := { b.lru with head := none, tail := none } } = b' := hb'
  rw [hfold] at hloop
  rw [hb']
  obtain ⟨hc, hv, hin, ht, hd, hw⟩ := hloop
  have hno : ∀ i < slotCount, (b'.slots i).valid = true → False := by
    intro i hi hvi
    rw [hv i hi] at hvi
    cases hvi
  exact ⟨⟨hc, fun i hi hvi => (hno i hi hvi).elim, fun i hi _ _ hvi => (hno i hi hvi).elim,
    fun i hi hvi => (hno i hi hvi).elim, hin, ht (by decide)⟩, hd, hw, hv⟩

end Calls

/-! ## Devices that do not fail -/

/-- Every sector read and write succeeds, and a walk looks at one slot at least. -/
structure Works (K : Set Key) (b : Cache) : Prop where
  fails : ∀ n, b.disk.fails n = false
  canWrite : ∀ k ∈ K, k.1 ≠ 0 ∧ b.disk.canWrite k.1 = true
  walk : 0 < b.walk

section Works

variable {K T : Set Key} {b : Cache}

theorem Works.env (h : Works K b) (he : Env b b') : Works K b' :=
  ⟨by rw [he.fails]; exact h.fails, by rw [he.canWrite]; exact h.canWrite,
    by rw [he.walk]; exact h.walk⟩

theorem Works.writeback_ok (hw : Works K b) (h : CacheInv K T b) (hi : i < slotCount) :
    (slotWriteback b i).1 = true := by
  unfold slotWriteback
  dsimp only
  split
  · rfl
  next hc =>
  simp only [Bool.or_eq_true, Bool.not_eq_true', not_or, Bool.not_eq_false] at hc
  have hok := diskWriteBlock_ok hw.fails (hw.canWrite _ (h.key i hi hc.1)).2 (b.slots i).lba
    (b.slots i).data
  split
  next disk he =>
    have he' : diskWriteBlock b.disk (b.slots i).key.1 (b.slots i).lba (b.slots i).data
        = (false, disk) := he
    rw [he'] at hok
    cases hok
  · rfl

/-- The first slot of the walk will do. -/
theorem Works.acquire_ok (hw : Works K b) (h : CacheInv K T b) (k : Key) :
    ∃ i, (acquireSlot b k.1 k.2).1 = .ok i := by
  obtain ⟨c, hc⟩ := Option.isSome_iff_exists.mp h.tail
  obtain ⟨n, hn⟩ : ∃ n, b.walk = n + 1 := ⟨b.walk - 1, by have := hw.walk; omega⟩
  have hwalk : (acquireWalk b.walk b.lru.tail b).1 = .ok c := by
    rw [hn, hc]
    unfold acquireWalk
    split
    · rfl
    have hok := hw.writeback_ok h (h.lru.tail c hc)
    split
    · rfl
    next b' he =>
      rw [he] at hok
      cases hok
  unfold acquireSlot
  split
  next i _ => exact ⟨i, rfl⟩
  split
  next e b' he =>
    rw [he] at hwalk
    cases hwalk
  next v b' _ => exact ⟨v, rfl⟩

theorem Works.read_ok (hw : Works K b) (hK : Separated K) (h : CacheInv K T b)
    (hk : k ∈ K) : (bcacheRead b k.1 k.2).1 = .ok (b.view k) := by
  obtain ⟨-, -, hdata⟩ := h.read_spec hK hk
  have hok : ∃ data, (bcacheRead b k.1 k.2).1 = .ok data := by
    unfold bcacheRead
    rw [if_neg (hw.canWrite k hk).1]
    split
    next i _ => exact ⟨_, rfl⟩
    obtain ⟨i, hi⟩ := hw.acquire_ok h k
    obtain ⟨-, hhid, -⟩ := h.acquireSlot_spec hK k
    split
    next e b1 he =>
      rw [he] at hi
      cases hi
    next i b1 he =>
    rw [he] at hhid
    have hr := diskReadSectors_ok k.1 k.2 (List.range 8) (hw.env hhid.toEnv).fails
      (b1.slots i).data
    split
    next disk data hd =>
      have hd' : diskReadSectors k.1 k.2 (List.range 8) b1.disk (b1.slots i).data
          = (false, disk, data) := hd
      rw [hd'] at hr
      cases hr
    next disk data _ => exact ⟨data, rfl⟩
  obtain ⟨data, hd⟩ := hok
  rw [hd, hdata data hd]

theorem Works.write_ok (hw : Works K b) (h : CacheInv K T b) (hk : k ∈ K) (buf : Buf) :
    (bcacheWrite b k.1 k.2 buf).1 = .ok () := by
  unfold bcacheWrite
  rw [if_neg (hw.canWrite k hk).1]
  obtain ⟨i, hi⟩ := hw.acquire_ok h k
  split
  next e b1 he =>
    rw [he] at hi
    cases hi
  · rfl

theorem Works.writeThrough_ok (hw : Works K b) (hk : k ∈ K) (buf : Buf) :
    (bcacheWriteThrough b k.1 k.2 buf).1 = .ok () := by
  unfold bcacheWriteThrough
  rw [if_neg (hw.canWrite k hk).1]
  have hok := diskWriteBlock_ok hw.fails (hw.canWrite k hk).2 k.2 buf
  split
  next disk he =>
    rw [he] at hok
    cases hok
  next disk _ =>
    dsimp only
    split <;> rfl

theorem Works.sync_ok (hw : Works K b) (hK : Separated K) (h : CacheInv K T b) (dev : Nat) :
    (bcacheSync b dev).1 = true := by
  have hloop := foldl_range_inv (s := (true, b))
    (fun _ r => r.1 = true ∧ CacheInv K T r.2 ∧ Works K r.2) ⟨rfl, h, hw⟩ (by
      intro n hn r hr
      obtain ⟨hr1, hinv, hwr⟩ := hr
      obtain ⟨hinv', hhid, -⟩ := hinv.syncSlot_spec hK dev hn
      refine ⟨?_, hinv', hwr.env hhid.toEnv⟩
      unfold syncSlot
      dsimp only
      split
      · exact hr1
      split
      · exact hr1
      · rw [hr1]
        exact hwr.writeback_ok hinv hn)
  unfold bcacheSync
  exact hloop.1

end Works

end Drunix.Blk
