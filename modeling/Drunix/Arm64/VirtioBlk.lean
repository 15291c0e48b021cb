import Drunix.Lib.Bytes
import Drunix.Lib.Loop

/-!
# The virtio block driver and its device

`platform/virt/virtio_queue.c` and `virtio_blk_perform_io` of `virtio_blk.c`: one request at a
time, whose header, data and status lie in three buffers that every request uses, and which a
completion in the used ring names by the number of its first descriptor.

`request_answered_by_own_completion`: as long as the device completes a request before the driver
gives up or not at all, and interrupts for completions only (`Timely`), a call that returns 0 has
been answered by the completion of its own request, and no other completion had a part in its
result. `late_completion_answers_next` is what a completion after the timeout does.

Mirroring notes:
- The device works at any time, between any two steps of the driver. It may have read the header
  and the data of a request when it was submitted, or read them only when it serves it.
- A call is cut where the driver waits: `submit` up to the wait, `finish` behind it. The wait ends
  on `g_completion_pending` or at the deadline; `finish` finds out which.
- Requests are numbered for the statement only; so are the notes of who wrote an entry of the used
  ring, who completed during a call (`touched`) and what came of it.
- Cache maintenance, barriers and the console are left out; `used->ring[].len` is not looked at.
-/

namespace Drunix.Arm64

open Lib Function

/-! ## virtio_queue.c -/

def virtqSize : Nat := 16

/-- `struct virtq_desc`; of the flags `VIRTQ_DESC_F_NEXT` and `VIRTQ_DESC_F_WRITE`. -/
structure VirtqDesc where
  addr : Nat
  len : Nat
  hasNext : Bool
  canWrite : Bool
  next : Nat

/-- `virtq_t` with the rings it points to. -/
structure Virtq where
  desc : Nat → VirtqDesc
  availRing : Nat → Nat
  availIdx : Nat
  usedRing : Nat → Nat
  usedIdx : Nat
  nextAvail : Nat
  lastUsed : Nat
  freeHead : Nat
  numFree : Nat

/-- `virtq_init`. -/
def virtqInit : Virtq where
  desc := fun i => ⟨0, 0, false, false, if i + 1 < virtqSize then i + 1 else 0⟩
  availRing := fun _ => 0
  availIdx := 0
  usedRing := fun _ => 0
  usedIdx := 0
  nextAvail := 0
  lastUsed := 0
  freeHead := 0
  numFree := virtqSize

def Virtq.setNext (q : Virtq) (i next : Nat) : Virtq :=
  { q with desc := update q.desc i { q.desc i with next } }

/-- `n` times `cur = q->desc[cur].next`. -/
def Virtq.follow (q : Virtq) : Nat → Nat → Nat
  | 0, cur => cur
  | n + 1, cur => q.follow n (q.desc cur).next

/-- `virtq_alloc_chain`; `none` for `0xFFFF`. -/
def virtqAllocChain (q : Virtq) (count : Nat) : Option (Nat × Virtq) :=
  if count = 0 ∨ count > q.numFree then none
  else
    let cur := q.follow (count - 1) q.freeHead
    some (q.freeHead, { q with freeHead := (q.desc cur).next, numFree := q.numFree - count }.setNext
      cur 0)

/-- `virtq_submit`. -/
def virtqSubmit (q : Virtq) (head : Nat) : Virtq :=
  if head ≥ virtqSize then q
  else { q with
    availRing := update q.availRing (q.nextAvail % virtqSize) head
    availIdx := (q.availIdx + 1) % 65536
    nextAvail := (q.nextAvail + 1) % 65536 }

/-- `virtq_drain_one`: the slot of the entry and its head, `none` for `0xFFFF`. -/
def virtqDrainOne (q : Virtq) : Option (Nat × Nat × Virtq) :=
  if q.usedIdx = q.lastUsed then none
  else
    let slot := q.lastUsed % virtqSize
    some (slot, q.usedRing slot % 65536, { q with lastUsed := (q.lastUsed + 1) % 65536 })

/-- The last descriptor of a chain and the length of the chain; a chain that has not ended after
as many descriptors as there are never does. -/
def Virtq.chainEnd (q : Virtq) : Nat → Nat → Nat → Option (Nat × Nat)
  | 0, _, _ => none
  | n + 1, cur, count =>
    if (q.desc cur).hasNext then q.chainEnd n (q.desc cur).next (count + 1)
    else some (cur, count + 1)

/-- `virtq_free_chain`; `none` where it does not return. -/
def virtqFreeChain (q : Virtq) (head : Nat) : Option Virtq :=
  if head ≥ virtqSize then some q
  else (q.chainEnd virtqSize head 0).map fun (tail, count) =>
    { q with freeHead := head, numFree := (q.numFree + count) % 65536 }.setNext tail q.freeHead

/-! ## Driver and device -/

/-- What a request asks for: to write `data` to a sector, or to read it. -/
structure BlkReq where
  write : Bool
  sector : Nat
  data : Buf

/-- A submitted request that the device has not completed. -/
structure Outstanding where
  id : Nat
  head : Nat
  fetched : BlkReq

/-- What the device has done for a request; the data are those written or read. -/
structure Answer extends BlkReq where
  status : Nat

/-- A call of `virtio_blk_perform_io`; `src` are the bytes to write. -/
structure IoCall where
  id : Nat
  lba : Nat
  src : Option Buf
  head : Nat
  touched : List Nat

/-- A call that has returned; `read` are the bytes put into `read_dst`. -/
structure IoResult where
  call : IoCall
  rc : Int
  read : Option Buf

structure VirtioBlk where
  queue : Virtq
  reqHdr : Bool × Nat
  dataBuf : Buf
  status : Nat
  completionPending : Bool
  current : Option IoCall
  sectors : Nat → Buf
  outstanding : List Outstanding
  answers : Nat → Option Answer
  usedBy : Nat → Nat
  nextId : Nat
  results : List IoResult

/-- The three descriptors of a request. -/
def fillChain (q : Virtq) (head : Nat) (write : Bool) : Virtq :=
  let dataIdx := (q.desc head).next
  let statusIdx := (q.desc dataIdx).next
  { q with desc := update (update (update q.desc head ⟨0, 16, true, false, dataIdx⟩)
      dataIdx ⟨4096, 512, true, !write, statusIdx⟩) statusIdx ⟨8191, 1, false, true, 0⟩ }

/-- `virtio_blk_perform_io` up to its wait. -/
def VirtioBlk.submit (s : VirtioBlk) (lba : Nat) (src : Option Buf) : VirtioBlk :=
  let dataBuf := match src with
    | some p => memcpy s.dataBuf 0 p 0 512
    | none => s.dataBuf
  let s := { s with reqHdr := (src.isSome, lba), dataBuf, status := 255, nextId := s.nextId + 1 }
  let call : IoCall := ⟨s.nextId - 1, lba, src, 0, []⟩
  match virtqAllocChain s.queue 3 with
  | none => { s with results := ⟨call, -1, none⟩ :: s.results }
  | some (head, q) =>
    { s with
      queue := virtqSubmit (fillChain q head src.isSome) head
      completionPending := false
      current := some { call with head }
      outstanding := s.outstanding ++ [⟨call.id, head, src.isSome, lba, dataBuf⟩] }

/-- The device completes a request with some status. -/
def VirtioBlk.complete (s : VirtioBlk) (id status : Nat) (late : Bool) : VirtioBlk :=
  match s.outstanding.find? (·.id = id) with
  | none => s
  | some r =>
    let req := if late then ⟨s.reqHdr.1, s.reqHdr.2, s.dataBuf⟩ else r.fetched
    let slot := s.queue.usedIdx % virtqSize
    let data := if req.write then slice req.data 0 512 else s.sectors req.sector
    { s with
      status
      dataBuf := if status = 0 ∧ !req.write then memcpy s.dataBuf 0 data 0 512 else s.dataBuf
      sectors := if status = 0 ∧ req.write then update s.sectors req.sector data else s.sectors
      queue := { s.queue with
        usedRing := update s.queue.usedRing slot r.head
        usedIdx := (s.queue.usedIdx + 1) % 65536 }
      usedBy := update s.usedBy slot id
      outstanding := s.outstanding.filter (·.id ≠ id)
      answers := update s.answers id (some ⟨⟨req.write, req.sector, data⟩, status⟩)
      current := s.current.map fun c => { c with touched := id :: c.touched } }

/-- What the driver makes of the used ring and of the status: the result, the entry it took and
the queue. -/
def VirtioBlk.outcome (s : VirtioBlk) (head : Nat) : Int × Option Nat × Virtq :=
  if !s.completionPending then (-1, none, s.queue)
  else
    match virtqDrainOne s.queue with
    | none => (-1, none, s.queue)
    | some (slot, completed, q) =>
      (if completed = head ∧ s.status = 0 then 0 else -1, some slot, q)

/-- `virtio_blk_perform_io` behind its wait. -/
def VirtioBlk.finish (s : VirtioBlk) : VirtioBlk :=
  match s.current with
  | none => s
  | some c =>
    let (rc, entry, q) := s.outcome c.head
    let call := { c with touched := (entry.map s.usedBy).toList ++ c.touched }
    let read := if rc = 0 ∧ c.src = none then some (slice s.dataBuf 0 512) else none
    match virtqFreeChain q c.head with
    | none => { s with queue := q }
    | some q => { s with queue := q, current := none, results := ⟨call, rc, read⟩ :: s.results }

/-- A step of the driver or of the device. -/
inductive BlkOp where
  | submit (lba : Nat) (src : Option Buf)
  | complete (id status : Nat) (late : Bool)
  | irq
  | finish

/-- The driver is in at most one call. -/
def blkStep (s : VirtioBlk) : BlkOp → VirtioBlk
  | .submit lba src => if s.current.isSome then s else s.submit lba src
  | .complete id status late => s.complete id status late
  | .irq => { s with completionPending := true }
  | .finish => s.finish

/-- After `virtio_blk_init`, over a disk with these contents. -/
def blkStart (sectors : Nat → Buf) (dataBuf : Buf) : VirtioBlk where
  queue := virtqInit
  reqHdr := (false, 0)
  dataBuf
  status := 0
  completionPending := false
  current := none
  sectors
  outstanding := []
  answers := fun _ => none
  usedBy := fun _ => 0
  nextId := 0
  results := []

/-! ## The result of a call is its own -/

/-- The answer is one to the call. -/
def Answer.Fits (a : Answer) (c : IoCall) : Prop :=
  a.write = c.src.isSome ∧ a.sector = c.lba ∧ ∀ p, c.src = some p → a.data = slice p 0 512

/-- Success is that of the call's own request, a read delivers what the device has read for it,
and no other request had a part in the result. -/
def IoResult.Own (s : VirtioBlk) (r : IoResult) : Prop :=
  (r.rc = 0 → ∃ a, s.answers r.call.id = some a ∧ a.status = 0 ∧ a.Fits r.call ∧
    (r.call.src = none → r.read = some (slice a.data 0 512))) ∧
  ∀ id ∈ r.call.touched, id = r.call.id

/-- The device completes the request the driver waits for, it interrupts when it has, and the
driver does not give up a completed request. -/
def Timely (s : VirtioBlk) : BlkOp → Prop
  | .submit _ _ => True
  | .complete id _ _ => ∃ c, s.current = some c ∧ c.id = id
  | .irq => ∃ c, s.current = some c ∧ (s.answers c.id).isSome = true
  | .finish => ∀ c, s.current = some c → (s.answers c.id).isSome = true →
    s.completionPending = true

/-- The first three descriptors are the next ones to be had. -/
structure Virtq.Free (q : Virtq) : Prop where
  next₀ : (q.desc 0).next = 1
  next₁ : (q.desc 1).next = 2
  next₂ : (q.desc 2).next = 3
  head : q.freeHead = 0
  count : q.numFree = 16

/-- They are the chain of the request. -/
structure Virtq.Taken (q : Virtq) : Prop where
  next₀ : (q.desc 0).hasNext = true ∧ (q.desc 0).next = 1
  next₁ : (q.desc 1).hasNext = true ∧ (q.desc 1).next = 2
  last : (q.desc 2).hasNext = false
  head : q.freeHead = 3
  count : q.numFree = 13

theorem Virtq.Free.alloc {q : Virtq} (h : q.Free) (write : Bool) :
    ∃ q', virtqAllocChain q 3 = some (0, q') ∧ (virtqSubmit (fillChain q' 0 write) 0).Taken ∧
      (virtqSubmit (fillChain q' 0 write) 0).usedIdx = q.usedIdx ∧
      (virtqSubmit (fillChain q' 0 write) 0).lastUsed = q.lastUsed := by
  obtain ⟨h0, h1, h2, hhead, hcount⟩ := h
  unfold virtqAllocChain
  rw [if_neg (by rw [hcount]; omega), hhead]
  refine ⟨_, rfl, ?_⟩
  simp only [Virtq.follow, h0, h1, h2, Virtq.setNext, fillChain, virtqSubmit, virtqSize]
  refine ⟨⟨?_, ?_, ?_, ?_, ?_⟩, ?_, ?_⟩ <;> simp [h0, h1, hcount]

theorem Virtq.Taken.free {q : Virtq} (h : q.Taken) :
    ∃ q', virtqFreeChain q 0 = some q' ∧ q'.Free ∧ q'.usedIdx = q.usedIdx ∧
      q'.lastUsed = q.lastUsed := by
  obtain ⟨⟨h0, h0'⟩, ⟨h1, h1'⟩, h2, hhead, hcount⟩ := h
  have hend : q.chainEnd virtqSize 0 0 = some (2, 3) := by
    simp [virtqSize, Virtq.chainEnd, h0, h0', h1, h1', h2]
  unfold virtqFreeChain
  rw [if_neg (by decide), hend]
  refine ⟨_, rfl, ⟨?_, ?_, ?_, ?_, ?_⟩, ?_, ?_⟩ <;>
    simp [Virtq.setNext, h0', h1', hhead, hcount]

/-- What holds while the driver waits. -/
structure Waiting (s : VirtioBlk) (c : IoCall) : Prop where
  taken : s.queue.Taken
  head : c.head = 0
  id : c.id < s.nextId
  touched : ∀ id ∈ c.touched, id = c.id
  hdr : s.reqHdr = (c.src.isSome, c.lba)
  older : ∀ r ∈ s.results, r.call.id < c.id
  -- not completed: the request is out, and nothing has come back
  out : s.answers c.id = none → s.queue.usedIdx = s.queue.lastUsed ∧ s.completionPending = false ∧
    (∀ p, c.src = some p → slice s.dataBuf 0 512 = slice p 0 512) ∧
    ∀ r ∈ s.outstanding, r.id = c.id → r.head = 0 ∧ r.fetched = ⟨c.src.isSome, c.lba, s.dataBuf⟩
  -- completed: its entry is the next one
  back : ∀ a, s.answers c.id = some a → a.Fits c ∧ s.status = a.status ∧
    (a.status = 0 → c.src = none → slice s.dataBuf 0 512 = slice a.data 0 512) ∧
    s.queue.usedIdx = (s.queue.lastUsed + 1) % 65536 ∧
    s.queue.usedRing (s.queue.lastUsed % virtqSize) = 0 ∧
    s.usedBy (s.queue.lastUsed % virtqSize) = c.id ∧ ∀ r ∈ s.outstanding, r.id ≠ c.id

structure BlkOk (s : VirtioBlk) : Prop where
  fresh : ∀ id, s.nextId ≤ id → s.answers id = none
  ids : ∀ r ∈ s.outstanding, r.id < s.nextId
  used : s.queue.lastUsed < 65536
  own : ∀ r ∈ s.results, r.Own s ∧ r.call.id < s.nextId
  idle : s.current = none → s.queue.Free ∧ s.queue.usedIdx = s.queue.lastUsed
  waiting : ∀ c, s.current = some c → Waiting s c

theorem slice_memcpy (dst src : Buf) (n : Nat) :
    slice (memcpy dst 0 src 0 n) 0 n = slice src 0 n := by
  funext i
  unfold slice
  split
  next hi => rw [memcpy_in (Nat.zero_le _) (by omega), Nat.sub_zero, Nat.zero_add]
  · rfl

variable {s : VirtioBlk}

theorem IoResult.Own.congr {s' : VirtioBlk} {r : IoResult} (h : r.Own s)
    (heq : s'.answers r.call.id = s.answers r.call.id) : r.Own s' := by
  unfold IoResult.Own
  rw [heq]
  exact h

theorem BlkOk.submit (h : BlkOk s) (hidle : s.current = none) (lba : Nat)
    (src : Option Buf) : BlkOk (s.submit lba src) := by
  obtain ⟨hfree, hused⟩ := h.idle hidle
  obtain ⟨q', halloc, htaken, hui, hlu⟩ := hfree.alloc src.isSome
  have hnone : s.answers s.nextId = none := h.fresh _ le_rfl
  unfold VirtioBlk.submit
  simp only [halloc, Nat.add_sub_cancel]
  refine
    { fresh := fun id hid => h.fresh id (Nat.le_of_succ_le hid)
      ids := fun r hr => ?_
      used := by rw [hlu]; exact h.used
      own := fun r hr => ⟨(h.own r hr).1, Nat.lt_succ_of_lt (h.own r hr).2⟩
      idle := fun hc => by simp at hc
      waiting := fun c hc => ?_ }
  · rcases List.mem_append.mp hr with hr | hr
    · exact Nat.lt_succ_of_lt (h.ids r hr)
    · rw [List.mem_singleton.mp hr]
      exact Nat.lt_succ_self _
  · cases hc
    refine
      { taken := htaken, head := rfl, id := Nat.lt_succ_self _, touched := by simp, hdr := rfl
        older := fun r hr => (h.own r hr).2
        out := fun _ => ⟨by rw [hui, hlu]; exact hused, rfl, fun p hp => ?_, fun r hr hid => ?_⟩
        back := fun a ha => absurd (hnone.symm.trans ha) (by simp) }
    · obtain rfl : src = some p := hp
      exact slice_memcpy _ _ _
    · rcases List.mem_append.mp hr with hr | hr
      · exact absurd hid (Nat.ne_of_lt (h.ids r hr))
      · rw [List.mem_singleton.mp hr]
        exact ⟨rfl, rfl⟩

theorem BlkOk.complete (h : BlkOk s) {c : IoCall} (hc : s.current = some c)
    (status : Nat) (late : Bool) : BlkOk (s.complete c.id status late) := by
  have hw := h.waiting c hc
  unfold VirtioBlk.complete
  split
  · exact h
  next r hr =>
  have hmem := List.mem_of_find?_eq_some hr
  have hid : r.id = c.id := by simpa using List.find?_some hr
  have hnone : s.answers c.id = none := by
    cases ha : s.answers c.id with
    | none => rfl
    | some a => exact absurd hid ((hw.back a ha).2.2.2.2.2.2 r hmem)
  obtain ⟨hused, -, hsrc, hout⟩ := hw.out hnone
  obtain ⟨hhead, hfetched⟩ := hout r hmem hid
  -- whenever it was read, the request is that of the call
  have hreq : (if late then ⟨s.reqHdr.1, s.reqHdr.2, s.dataBuf⟩ else r.fetched : BlkReq) =
      ⟨c.src.isSome, c.lba, s.dataBuf⟩ := by
    rw [hfetched, hw.hdr, ite_self]
  simp only [hreq]
  refine
    { fresh := fun id hge => ?_
      ids := fun r' hr' => h.ids r' (List.mem_filter.mp hr').1
      used := h.used
      own := fun r' hr' => ⟨(h.own r' hr').1.congr ?_, (h.own r' hr').2⟩
      idle := fun hcur => ?_
      waiting := fun c' hc' => ?_ }
  · have hne : id ≠ c.id := Nat.ne_of_gt (Nat.lt_of_lt_of_le hw.id hge)
    exact (update_of_ne hne _ _).trans (h.fresh id hge)
  · exact update_of_ne (Nat.ne_of_lt (hw.older r' hr')) _ _
  · simp [hc] at hcur
  · obtain rfl : { c with touched := c.id :: c.touched } = c' := by simpa [hc] using hc'
    refine
      { taken := ⟨hw.taken.next₀, hw.taken.next₁, hw.taken.last, hw.taken.head, hw.taken.count⟩
        head := hw.head, id := hw.id, hdr := hw.hdr, older := hw.older
        touched := fun id hmem => ?_
        out := fun hc => ?_
        back := fun a ha => ?_ }
    · rcases List.mem_cons.mp hmem with rfl | hmem
      · rfl
      · exact hw.touched id hmem
    · simp at hc
    · obtain rfl := Option.some.inj ((update_self c.id _ s.answers).symm.trans ha)
      refine ⟨⟨rfl, rfl, fun p hp => ?_⟩, rfl, fun h0 hnosrc => ?_, ?_, ?_, ?_, fun r' hr' => ?_⟩
      · dsimp only at hp ⊢
        rw [hp, Option.isSome_some, if_pos rfl]
        exact hsrc p hp
      · dsimp only at h0 hnosrc ⊢
        rw [hnosrc, h0, Option.isSome_none, if_pos (by simp)]
        exact slice_memcpy _ _ _
      · dsimp only
        rw [hused]
      · dsimp only
        rw [hused, update_self, hhead]
      · dsimp only
        rw [hused, update_self]
      · simpa using (List.mem_filter.mp hr').2

theorem BlkOk.finish (h : BlkOk s) (ht : Timely s .finish) : BlkOk s.finish := by
  unfold VirtioBlk.finish
  split
  · exact h
  next c hc =>
  have hw := h.waiting c hc
  -- what the driver finds, and the queue it leaves
  obtain ⟨rc, entry, q, hout, htaken, hused, hlt, hentry, hok⟩ : ∃ rc entry q,
      s.outcome c.head = (rc, entry, q) ∧ q.Taken ∧ q.usedIdx = q.lastUsed ∧
      q.lastUsed < 65536 ∧ (∀ slot, entry = some slot → s.usedBy slot = c.id) ∧
      (rc = 0 → ∃ a, s.answers c.id = some a ∧ a.status = 0) := by
    unfold VirtioBlk.outcome
    cases ha : s.answers c.id with
    | none =>
      obtain ⟨hused, hpend, -, -⟩ := hw.out ha
      rw [hpend]
      exact ⟨_, _, _, rfl, hw.taken, hused, h.used, by simp, by simp⟩
    | some a =>
      obtain ⟨-, hstatus, -, hused, hring, hby, -⟩ := hw.back a ha
      have hne : s.queue.usedIdx ≠ s.queue.lastUsed := by
        omega
      rw [ht c hc (by rw [ha]; rfl)]
      unfold virtqDrainOne
      rw [if_neg hne]
      refine ⟨_, _, _, rfl, ?_, hused, Nat.mod_lt _ (by decide), fun slot hs => ?_, fun h0 => ?_⟩
      · exact ⟨hw.taken.next₀, hw.taken.next₁, hw.taken.last, hw.taken.head, hw.taken.count⟩
      · rw [← Option.some.inj hs]
        exact hby
      · refine ⟨a, rfl, ?_⟩
        by_contra hbad
        rw [if_neg (fun hc => hbad (hstatus ▸ hc.2))] at h0
        cases h0
  obtain ⟨q', hfree, hq', hui, hlu⟩ := htaken.free
  rw [hout]
  simp only [hw.head, hfree]
  refine
    { fresh := h.fresh, ids := h.ids
      used := by rw [hlu]; exact hlt
      own := fun r hr => ?_
      idle := fun _ => ⟨hq', by rw [hui, hlu, hused]⟩
      waiting := fun c' hc' => by simp at hc' }
  rcases List.mem_cons.mp hr with rfl | hr
  · refine ⟨⟨fun h0 => ?_, fun id hid => ?_⟩, hw.id⟩
    · obtain ⟨a, ha, hstatus⟩ := hok h0
      obtain ⟨hfits, -, hdata, -⟩ := hw.back a ha
      refine ⟨a, ha, hstatus, hfits, fun hnosrc => ?_⟩
      rw [if_pos ⟨h0, hnosrc⟩, hdata hstatus hnosrc]
    · rcases List.mem_append.mp hid with hid | hid
      · obtain ⟨slot, hslot, rfl⟩ : ∃ slot, entry = some slot ∧ s.usedBy slot = id := by
          simpa using hid
        exact hentry slot hslot
      · exact hw.touched id hid
  · exact h.own r hr

theorem BlkOk.step (h : BlkOk s) {op : BlkOp} (ht : Timely s op) : BlkOk (blkStep s op) := by
  cases op with
  | submit lba src =>
    show BlkOk (if s.current.isSome then s else s.submit lba src)
    split
    · exact h
    next hidle => exact h.submit (by simpa using hidle) lba src
  | complete id status late =>
    obtain ⟨c, hc, rfl⟩ := ht
    exact h.complete hc status late
  | irq =>
    obtain ⟨c, hc, ha⟩ := ht
    have hw := h.waiting c hc
    refine { h with waiting := fun c' hc' => ?_ }
    obtain rfl := Option.some.inj (hc.symm.trans hc')
    exact { hw with out := fun hnone => by rw [show s.answers c.id = none from hnone] at ha; simp at ha }
  | finish => exact h.finish ht

/-- In every run of driver and device in which the device is timely, the result of every call is
its own. -/
theorem request_answered_by_own_completion {sectors : Nat → Buf} {dataBuf : Buf} {s : VirtioBlk}
    (hr : Reach blkStep Timely (blkStart sectors dataBuf) s) : ∀ r ∈ s.results, r.Own s := by
  have hok : BlkOk s := by
    refine hr.inv BlkOk ?_ fun s op h ht => h.step ht
    exact ⟨fun _ _ => rfl, by simp [blkStart], Nat.zero_lt_succ 65535, by simp [blkStart],
      fun _ => ⟨⟨rfl, rfl, rfl, rfl, rfl⟩, rfl⟩, by simp [blkStart]⟩
  exact fun r hmem => (hok.own r hmem).1

/-- Sector `n` of the disk is filled with the byte `n`. -/
def countingDisk : Nat → Buf := fun n _ => UInt8.ofNat n

/-- A write to sector 7 times out and is never answered, and a read of sector 5 is. -/
theorem request_answered_by_own_completion_read :
    let s := [BlkOp.submit 7 (some fun _ => 9), .finish, .submit 5 none, .complete 1 0 true, .irq,
      .finish].foldl blkStep (blkStart countingDisk fun _ => 0)
    s.results.map (fun r => (r.call.lba, r.rc, r.read.map (· 0))) =
        [(5, 0, some 5), (7, -1, none)] ∧
      ∀ r ∈ s.results, r.Own s := by
  refine ⟨by decide +kernel, request_answered_by_own_completion (Reach.start.run ?_)⟩
  refine ⟨trivial, fun c hc hans => ?_, trivial, ⟨_, rfl, rfl⟩, ⟨_, rfl, rfl⟩, fun _ _ _ => rfl, trivial⟩
  cases hans

/-- A write to sector 7 times out, and a read of sector 5 follows; then the device completes the
write. The read returns 0 and delivers the bytes that were to be written, and the device has not
even begun with it. -/
theorem late_completion_answers_next :
    let s := [BlkOp.submit 7 (some fun _ => 9), .finish, .submit 5 none, .complete 0 0 false, .irq,
      .finish].foldl blkStep (blkStart countingDisk fun _ => 0)
    s.results.map (fun r => (r.call.id, r.call.lba, r.rc, r.read.map (· 0))) =
        [(1, 5, 0, some 9), (0, 7, -1, none)] ∧
      (s.answers 1).isNone = true ∧ countingDisk 5 0 = 5 := by
  decide +kernel

end Drunix.Arm64
