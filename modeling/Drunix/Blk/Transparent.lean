import Drunix.Blk.BcacheOps

/-!
# The block cache is transparent

Calls of the cache in any order, on keys whose blocks do not overlap, over devices
whose sector reads and writes fail at any time. The specification is the history of
calls: `lastWrite` is the buffer of the last successful write to a key since it was
last invalidated.

`cache_transparent`: a read that succeeds delivers the last write, or the block on
the device where there is none, unless a write-through to the key has failed since
(`torn`); and no dirty block is lost, except to a write or an invalidation of its
own key. `torn_write_shows` is what a failed write-through leaves behind.
-/

namespace Drunix.Blk

open Lib

/-- A call of the cache. -/
inductive CacheOp where
  | read (k : Key)
  | write (k : Key) (buf : Buf)
  | writeThrough (k : Key) (buf : Buf)
  | sync (dev : Nat)
  | invalidate (k : Key)

/-- The calls made so far and whether they succeeded, the last one first. -/
abbrev History := List (CacheOp × Bool)

/-- One call. -/
def cacheStep (w : Cache × History) (op : CacheOp) : Cache × History :=
  match op with
  | .read k =>
    let r := bcacheRead w.1 k.1 k.2
    (r.2, (op, r.1.isOk) :: w.2)
  | .write k buf =>
    let r := bcacheWrite w.1 k.1 k.2 buf
    (r.2, (op, r.1.isOk) :: w.2)
  | .writeThrough k buf =>
    let r := bcacheWriteThrough w.1 k.1 k.2 buf
    (r.2, (op, r.1.isOk) :: w.2)
  | .sync dev =>
    let r := bcacheSync w.1 dev
    (r.2, (op, r.1) :: w.2)
  | .invalidate k => (bcacheInvalidate w.1 k.1 k.2, (op, true) :: w.2)

/-- The call is about a key of `K`. -/
def CacheOp.InKeys (K : Set Key) : CacheOp → Prop
  | .read k => k ∈ K
  | .write k _ => k ∈ K
  | .writeThrough k _ => k ∈ K
  | .sync _ => True
  | .invalidate k => k ∈ K

/-- The call puts something else in the place of the block at `k`: a write that
succeeds, or an invalidation. -/
def supersedes (k : Key) : CacheOp × Bool → Bool
  | (.write k' _, ok) => ok && decide (k' = k)
  | (.writeThrough k' _, ok) => ok && decide (k' = k)
  | (.invalidate k', _) => decide (k' = k)
  | _ => false

/-- The buffer of the last successful write since the last invalidation. -/
def lastWrite (k : Key) : History → Option Buf
  | [] => none
  | e :: h =>
    if supersedes k e then
      match e.1 with
      | .write _ buf => some (slice buf 0 4096)
      | .writeThrough _ buf => some (slice buf 0 4096)
      | _ => none
    else lastWrite k h

/-- A write-through has failed since the block was last superseded. -/
def torn (k : Key) : History → Bool
  | [] => false
  | e :: h =>
    if supersedes k e then false
    else
      match e with
      | (.writeThrough k' _, false) => decide (k' = k) || torn k h
      | _ => torn k h

/-- The cache and its history agree. -/
structure Agrees (K : Set Key) (w : Cache × History) : Prop where
  inv : CacheInv K { k | torn k w.2 = true } w.1
  view : ∀ k ∈ K, torn k w.2 = false → ∀ buf, lastWrite k w.2 = some buf → w.1.view k = buf
  clean : ∀ k ∈ K, torn k w.2 = false → lastWrite k w.2 = none → w.1.Clean k

variable {op : CacheOp} {k : Key}

section Steps

variable {K : Set Key} {b b' : Cache} {h : History}

/-- A call that shows nowhere. -/
theorem Agrees.hidden (ha : Agrees K (b, h)) {e : CacheOp × Bool}
    (hs : ∀ k, supersedes k e = false) (ht : ∀ k, torn k (e :: h) = torn k h)
    (hinv : CacheInv K { k | torn k h = true } b') (hq : Quiet K { k | torn k h = true } b b') :
    Agrees K (b', e :: h) := by
  have hlast : ∀ k, lastWrite k (e :: h) = lastWrite k h := by
    intro k
    rw [lastWrite, hs k]
    rfl
  refine ⟨by simpa only [ht] using hinv, fun k hk hkt buf hl => ?_, fun k hk hkt hl => ?_⟩
  · rw [ht k] at hkt
    rw [hlast k] at hl
    have hview := ha.view k hk hkt buf hl
    rw [← hview]
    exact hq.view k hk (by simp [hkt])
  · rw [ht k] at hkt
    rw [hlast k] at hl
    exact fun data hd => ha.clean k hk hkt hl data (hq.dirty k hk data hd)

/-- A call on the key `k` that shows nowhere else. -/
theorem Agrees.at_key (ha : Agrees K (b, h)) {e : CacheOp × Bool}
    (hs : ∀ k' ≠ k, supersedes k' e = false) (ht : ∀ k' ≠ k, torn k' (e :: h) = torn k' h)
    (hinv : CacheInv K { k | torn k (e :: h) = true } b')
    (hq : Quiet (K \ {k}) { k | torn k h = true } b b')
    (hview : torn k (e :: h) = false → ∀ buf, lastWrite k (e :: h) = some buf → b'.view k = buf)
    (hclean : torn k (e :: h) = false → lastWrite k (e :: h) = none → b'.Clean k) :
    Agrees K (b', e :: h) := by
  have hlast : ∀ k' ≠ k, lastWrite k' (e :: h) = lastWrite k' h := by
    intro k' hne
    rw [lastWrite, hs k' hne]
    rfl
  refine ⟨hinv, fun k' hk' hkt buf hl => ?_, fun k' hk' hkt hl => ?_⟩
  · by_cases hne : k' = k
    · subst hne
      exact hview hkt buf hl
    · have hkt' : torn k' h = false := (ht k' hne).symm.trans hkt
      rw [hlast k' hne] at hl
      rw [← ha.view k' hk' hkt' buf hl]
      exact hq.view k' ⟨hk', hne⟩ (by simp [hkt'])
  · by_cases hne : k' = k
    · subst hne
      exact hclean hkt hl
    · have hkt' : torn k' h = false := (ht k' hne).symm.trans hkt
      rw [hlast k' hne] at hl
      exact fun data hd => ha.clean k' hk' hkt' hl data (hq.dirty k' ⟨hk', hne⟩ data hd)

/-- A call that succeeds tears nothing. -/
theorem torn_cons_true (op : CacheOp) (k : Key) :
    torn k ((op, true) :: h) = if supersedes k (op, true) then false else torn k h := by
  cases op <;> rfl

/-- A call that succeeds in putting something else in the place of `k`. -/
theorem Agrees.superseded (ha : Agrees K (b, h))
    (hs : ∀ k', supersedes k' (op, true) = decide (k = k'))
    (hinv : CacheInv K ({ k | torn k h = true } \ {k}) b')
    (hq : Quiet (K \ {k}) { k | torn k h = true } b b')
    (hview : ∀ buf, lastWrite k ((op, true) :: h) = some buf → b'.view k = buf)
    (hclean : lastWrite k ((op, true) :: h) = none → b'.Clean k) :
    Agrees K (b', (op, true) :: h) := by
  have hother : ∀ k' ≠ k, supersedes k' (op, true) = false := by
    intro k' hne
    rw [hs, decide_eq_false (Ne.symm hne)]
  have ht : ∀ k' ≠ k, torn k' ((op, true) :: h) = torn k' h := by
    intro k' hne
    rw [torn_cons_true, hother k' hne]
    rfl
  have hset : { k' | torn k' ((op, true) :: h) = true } = { k' | torn k' h = true } \ {k} := by
    ext k'
    by_cases hne : k' = k
    · subst hne
      simp [torn_cons_true, hs]
    · simp [ht k' hne, hne]
  rw [← hset] at hinv
  exact ha.at_key hother ht hinv hq (fun _ => hview) fun _ => hclean

/-- A write-through that fails: the block is torn from here on. -/
theorem Agrees.failed (ha : Agrees K (b, h)) (buf : Buf)
    (hinv : CacheInv K (insert k { k | torn k h = true }) b')
    (hq : Quiet (K \ {k}) { k | torn k h = true } b b') :
    Agrees K (b', (.writeThrough k buf, false) :: h) := by
  have ht : ∀ k', torn k' ((.writeThrough k buf, false) :: h) =
      (decide (k = k') || torn k' h) := fun _ => rfl
  have hset : { k' | torn k' ((.writeThrough k buf, false) :: h) = true } =
      insert k { k' | torn k' h = true } := by
    ext k'
    simp [ht, @eq_comm _ k' k]
  rw [← hset] at hinv
  have hk : torn k ((.writeThrough k buf, false) :: h) ≠ false := by simp [ht]
  exact ha.at_key (fun _ _ => rfl) (fun k' hne => by simp [ht, Ne.symm hne]) hinv hq
    (fun hc => absurd hc hk) fun hc => absurd hc hk

theorem cacheStep_agrees (hK : Separated K) (ha : Agrees K (b, h))
    (hop : op.InKeys K) : Agrees K (cacheStep (b, h) op) := by
  cases op with
  | read k =>
    obtain ⟨hinv, hhid, -⟩ := ha.inv.read_spec hK hop
    exact ha.hidden (fun _ => rfl) (fun _ => rfl) hinv hhid.toQuiet
  | sync dev =>
    obtain ⟨hinv, hhid, -⟩ := ha.inv.sync_spec hK dev
    exact ha.hidden (fun _ => rfl) (fun _ => rfl) hinv hhid.toQuiet
  | invalidate k =>
    have hl : lastWrite k ((.invalidate k, true) :: h) = none := by simp [lastWrite, supersedes]
    obtain ⟨hinv, hq, -, -, hclean⟩ := ha.inv.invalidate_spec k
    exact ha.superseded (fun _ => rfl) hinv hq (fun buf hb => absurd (hl.symm.trans hb) (by simp))
      fun _ => hclean
  | write k buf =>
    have hl : lastWrite k ((.write k buf, true) :: h) = some (slice buf 0 4096) := by
      simp [lastWrite, supersedes]
    rcases ha.inv.write_spec hK hop buf with ⟨e, he, hinv, hhid⟩ |
      ⟨hok, hinv, hq, -, -, hview, -⟩
    · simp only [cacheStep, he]
      exact ha.hidden (fun _ => rfl) (fun _ => rfl) hinv hhid.toQuiet
    · simp only [cacheStep, hok]
      refine ha.superseded (fun _ => Bool.true_and _) hinv hq (fun buf' hb => ?_)
        fun hb => absurd (hl.symm.trans hb) (by simp)
      exact hview.trans (Option.some.inj (hl.symm.trans hb))
  | writeThrough k buf =>
    have hl : lastWrite k ((.writeThrough k buf, true) :: h) = some (slice buf 0 4096) := by
      simp [lastWrite, supersedes]
    obtain ⟨hq, -, -, ⟨e, he, hinv, -⟩ | ⟨hok, hinv, hclean, hblock⟩⟩ :=
      ha.inv.writeThrough_spec hK hop buf
    · simp only [cacheStep, he]
      exact ha.failed buf hinv hq
    · simp only [cacheStep, hok]
      refine ha.superseded (fun _ => Bool.true_and _) hinv hq (fun buf' hb => ?_)
        fun hb => absurd (hl.symm.trans hb) (by simp)
      rw [hinv.view_clean (fun hc => hc.2 rfl) hclean, hblock]
      exact Option.some.inj (hl.symm.trans hb)

/-- No call loses a dirty block that it does not supersede: the block stays dirty, or
the device has it in full. -/
theorem cacheStep_saves (hK : Separated K) (ha : Agrees K (b, h))
    (hop : op.InKeys K) (hk : k ∈ K) {data : Buf} (hd : b.DirtyAt k data)
    (hs : ∀ e ∈ (cacheStep (b, h) op).2.head?, supersedes k e = false) :
    (cacheStep (b, h) op).1.DirtyAt k data ∨
      (cacheStep (b, h) op).1.Clean k ∧ (cacheStep (b, h) op).1.disk.block k = data := by
  cases op with
  | read k' =>
    obtain ⟨-, hhid, -⟩ := ha.inv.read_spec hK hop
    exact hhid.saved k hk data hd
  | sync dev =>
    obtain ⟨-, hhid, -⟩ := ha.inv.sync_spec hK dev
    exact hhid.saved k hk data hd
  | invalidate k' =>
    have hne : ¬ k' = k := by simpa [cacheStep, supersedes] using hs
    obtain ⟨-, hq, -, -, -⟩ := ha.inv.invalidate_spec k'
    exact hq.saved k ⟨hk, Ne.symm hne⟩ data hd
  | write k' buf =>
    rcases ha.inv.write_spec hK hop buf with ⟨e, he, -, hhid⟩ | ⟨hok, -, hq, -, -, -, -⟩
    · exact hhid.saved k hk data hd
    · have hne : ¬ k' = k := by
        simpa [cacheStep, supersedes, hok, Except.isOk, Except.toBool] using hs
      exact hq.saved k ⟨hk, Ne.symm hne⟩ data hd
  | writeThrough k' buf =>
    obtain ⟨hq, -, -, hcases⟩ := ha.inv.writeThrough_spec hK hop buf
    by_cases hne : k' = k
    · subst hne
      rcases hcases with ⟨e, -, -, hkeep⟩ | ⟨hok, -, -, -⟩
      · exact .inl (hkeep data hd)
      · exact absurd hs (by simp [cacheStep, supersedes, hok, Except.isOk, Except.toBool])
    · exact hq.saved k ⟨hk, Ne.symm hne⟩ data hd

end Steps

/-! ## Runs -/

/-- The states that calls on keys of `K` reach from a cache just initialised. -/
abbrev CacheRun (K : Set Key) (b : Cache) (w : Cache × History) : Prop :=
  Reach cacheStep (fun _ op => op.InKeys K) (bcacheInit b, []) w

theorem CacheRun.agrees {K : Set Key} {b : Cache} {w : Cache × History} (hK : Separated K)
    (hclip : ∀ i, Clipped 4096 (b.slots i).data) (hr : CacheRun K b w) : Agrees K w := by
  refine hr.inv (Agrees K) ?_ fun w' op ha hop => cacheStep_agrees hK ha hop
  obtain ⟨hinv, -, -, hv⟩ := bcacheInit_spec hclip
  exact ⟨hinv, fun k _ _ buf hl => absurd hl (by simp [lastWrite]),
    fun k _ _ _ => clean_uncached fun i hi hiv => absurd ((hv i hi).symm.trans hiv) (by simp)⟩

/-- In every state reached: a read that succeeds delivers the last write to its key, or
the block of the device where there is none, unless a write-through to the key has
failed since; and no call loses a dirty block that it does not supersede. -/
theorem cache_transparent {K : Set Key} {b : Cache} {w : Cache × History} (hK : Separated K)
    (hclip : ∀ i, Clipped 4096 (b.slots i).data) (hr : CacheRun K b w) :
    (∀ k ∈ K, torn k w.2 = false → ∀ data, (bcacheRead w.1 k.1 k.2).1 = .ok data →
      data = (lastWrite k w.2).getD (w.1.disk.block k)) ∧
    (∀ op : CacheOp, op.InKeys K → ∀ k ∈ K, ∀ data, w.1.DirtyAt k data →
      (∀ e ∈ (cacheStep w op).2.head?, supersedes k e = false) →
      (cacheStep w op).1.DirtyAt k data ∨
        (cacheStep w op).1.Clean k ∧ (cacheStep w op).1.disk.block k = data) := by
  have ha := hr.agrees hK hclip
  refine ⟨fun k hk ht data hd => ?_, fun op hop k hk data hd hs =>
    cacheStep_saves hK ha hop hk hd hs⟩
  obtain ⟨-, -, hread⟩ := ha.inv.read_spec hK hk
  rw [hread data hd]
  cases hl : lastWrite k w.2 with
  | some buf => exact ha.view k hk ht buf hl
  | none => exact ha.inv.view_clean (by simp [ht]) (ha.clean k hk ht hl)

/-- A sync that succeeds leaves on the device the last write to each key that is not torn. -/
theorem sync_durable {K : Set Key} {b : Cache} {w : Cache × History} (hK : Separated K)
    (hclip : ∀ i, Clipped 4096 (b.slots i).data) (hr : CacheRun K b w) {dev : Nat}
    (hok : (bcacheSync w.1 dev).1 = true) (hk : k ∈ K) (hdev : dev = 0 ∨ k.1 = dev)
    (ht : torn k w.2 = false) :
    (bcacheSync w.1 dev).2.disk.block k = (lastWrite k w.2).getD (w.1.disk.block k) := by
  have ha := hr.agrees hK hclip
  obtain ⟨hinv, hhid, hclean⟩ := ha.inv.sync_spec hK dev
  rw [← hinv.view_clean (by simp [ht]) (hclean hok k hk hdev), hhid.view k hk (by simp [ht])]
  cases hl : lastWrite k w.2 with
  | some buf => exact ha.view k hk ht buf hl
  | none => exact ha.inv.view_clean (by simp [ht]) (ha.clean k hk ht hl)

/-- An empty cache over one writable blank device whose sector accesses fail as
`fails` says. -/
def blankCache (fails : Nat → Bool) : Cache where
  disk := ⟨fun _ _ => 0, [], fun dev => dev == 1, fails, 0⟩
  slots := fun _ => ⟨0, 0, false, false, fun _ => 0⟩
  lru := ⟨none, none, fun _ => none, fun _ => none⟩
  walk := 64

/-- One write is read back. -/
theorem cache_transparent_written :
    Separated {(1, 0), (1, 8)} ∧
    ∀ data, (bcacheRead (cacheStep (bcacheInit (blankCache fun _ => false), [])
        (.write (1, 0) fun _ => 7)).1 1 0).1 = .ok data → data = slice (fun _ => 7) 0 4096 := by
  have hK : Separated {(1, 0), (1, 8)} := by
    intro k hk k' hk' hne
    rcases hk with rfl | rfl <;> rcases hk' with rfl | rfl <;> first
      | exact absurd rfl hne
      | (intro _; decide)
  refine ⟨hK, fun data hd => ?_⟩
  have hr : CacheRun {(1, 0), (1, 8)} (blankCache fun _ => false)
      (cacheStep (bcacheInit (blankCache fun _ => false), []) (.write (1, 0) fun _ => 7)) :=
    Reach.step _ Reach.start (by simp [CacheOp.InKeys])
  have hok : (bcacheWrite (bcacheInit (blankCache fun _ => false)) 1 0 fun _ => 7).1.isOk =
      true := by decide +kernel
  have hlast := (cache_transparent hK (fun _ _ _ => rfl) hr).1 (1, 0) (by simp)
    (by simp [cacheStep, torn, hok, supersedes]) data hd
  rw [hlast]
  simp [cacheStep, lastWrite, hok, supersedes]

theorem sync_durable_written :
    (bcacheSync (cacheStep (bcacheInit (blankCache fun _ => false), [])
      (.write (1, 0) fun _ => 7)).1 0).2.disk.block (1, 0) = slice (fun _ => 7) 0 4096 := by
  have hok : (bcacheWrite (bcacheInit (blankCache fun _ => false)) 1 0 fun _ => 7).1.isOk =
      true := by decide +kernel
  have hr : CacheRun {(1, 0)} (blankCache fun _ => false) (cacheStep _ (.write (1, 0) fun _ => 7)) :=
    .step _ .start rfl
  rw [sync_durable (fun _ hk _ hk' hne => absurd (hk.trans hk'.symm) hne) (fun _ _ _ => rfl) hr
    (by decide +kernel) rfl (.inl rfl)] <;> simp [cacheStep, torn, lastWrite, hok, supersedes]

/-- A write-through that fails at its second sector shows in the next read: it delivers
the first sector of the failed write (`9`) and the rest of the last successful one (`7`). -/
theorem torn_write_shows :
    let w := [CacheOp.writeThrough (1, 0) fun _ => 7, CacheOp.writeThrough (1, 0) fun _ => 9].foldl
      cacheStep (bcacheInit (blankCache fun n => n == 9), [])
    w.2.map Prod.snd = [false, true] ∧
      lastWrite (1, 0) w.2 = some (slice (fun _ => 7) 0 4096) ∧
      (bcacheRead w.1 1 0).1.toOption.map (fun data => (data 0, data 512)) = some (9, 7) := by
  refine ⟨by decide +kernel, rfl, by decide +kernel⟩

end Drunix.Blk
