import Drunix.Mm.Exclusive
import Drunix.Mm.Isolation

/-!
# Copy-on-write exclusivity

The processes of the machine over one physical memory: fork, page faults, copies
into user memory, mprotect, munmap and exit, in any order.

`cow_exclusive`: a frame that two address spaces map privately is writable through
none of its private mappings, in every state of a run in which no mprotect gives
write access to a private page without `PG_COW` that another address space maps,
no fault hits a copy-on-write page hidden by `PROT_NONE`, and no fork finds an
emptied page table. `mprotect_shares_writable` is a run that breaks the first
condition: fork marks only pages that are writable at the time.

Mirroring notes:
- A process is known by its page directory; its `pd_phys` is that.
- What brk and mmap do to the table of areas is left open: `areas` puts any table
  in place. They map no page.
-/

namespace Drunix.Mm

open Lib Function

/-- The processes and the memory. -/
structure Machine where
  phys : Phys
  live : Finset Nat
  proc : Nat → Proc

/-- The process with the page directory `pd`. -/
def Machine.task (m : Machine) (pd : Nat) : Proc := { m.proc pd with pdPhys := pd }

/-- What happens to the machine's memory. -/
inductive CowOp where
  | spawn (p : Proc)
  | load (pd page : Nat)
  | areas (pd : Nat) (p : Proc)
  | fork (pd : Nat)
  | fault (pd : Nat) (readOk : Bool) (cr2 : Nat) (err : PfErr) (userEsp : Nat)
  | copyToUser (pd : Nat) (readOk : Nat → Bool) (dst len : Nat)
  | mprotect (pd : Nat) (k : Kmalloc) (addr len prot : Nat)
  | munmap (pd : Nat) (k : Kmalloc) (addr len : Nat)
  | destroy (pd : Nat)

/-- A call of the process `pd` that leaves memory and process as given. -/
def Machine.after (m : Machine) (pd : Nat) (r : Phys × Proc) : Machine :=
  { m with phys := r.1, proc := update m.proc pd r.2 }

/-- A new process with the directory returned; `0` is a failed call. -/
def Machine.join (m : Machine) (r : Nat × Phys) (p : Proc) : Machine :=
  if r.1 = 0 then { m with phys := r.2 }
  else { phys := r.2, live := insert r.1 m.live, proc := update m.proc r.1 p }

/-- The flags of a page of the program image. -/
def imageFlags : MapFlags := { present := true, read := true, write := true, user := true }

/-- One step. -/
def cowStep (m : Machine) : CowOp → Machine
  | .spawn p => m.join (pagingCreateUserSpace m.phys) p
  | .load pd page => { m with phys := (mapFresh m.phys pd page imageFlags).2 }
  | .areas pd p => m.after pd (m.phys, p)
  | .fork pd => m.join (pagingCloneUserSpace m.phys pd) (m.task pd)
  | .fault pd readOk cr2 err userEsp =>
    m.after pd (pagingHandleFault readOk m.phys (m.task pd) cr2 err userEsp).2
  | .copyToUser pd readOk dst len =>
    { m with phys := (uaccessCopyToUser readOk m.phys (m.task pd) dst len).2 }
  | .mprotect pd k addr len prot =>
    m.after pd (syscallCaseMprotect k m.phys (m.task pd) addr len prot).2
  | .munmap pd k addr len => m.after pd (syscallCaseMunmap k m.phys (m.task pd) addr len).2
  | .destroy pd => { m with phys := pagingDestroyUserSpace m.phys pd, live := m.live.erase pd }

/-- The process that makes the step exists. -/
def CowOp.Running (m : Machine) : CowOp → Prop
  | .spawn _ => True
  | .load pd _ => pd ∈ m.live
  | .areas pd _ => pd ∈ m.live
  | .fork pd => pd ∈ m.live
  | .fault pd _ _ _ _ => pd ∈ m.live
  | .copyToUser pd _ _ _ => pd ∈ m.live
  | .mprotect pd _ _ _ _ => pd ∈ m.live
  | .munmap pd _ _ _ => pd ∈ m.live
  | .destroy pd => pd ∈ m.live

/-- Write access is given to a page without `PG_COW` only if no other address space
maps its frame privately. -/
def GrantOk (m : Machine) (pd addr len prot : Nat) : Prop :=
  protWrite prot = true → ∀ page ∈ pageRange addr (u32 (addr + mapLen len)), ∀ e,
    userPte m.phys (slotOf pd page) = some e → e.isPrivate = true → e.cow = false →
    e.writable = false → SoleAt m.live (userPte m.phys) (slotOf pd page) e.addr

/-- What the steps of a run have to observe. -/
def CowSafe (m : Machine) : CowOp → Prop
  | .fork pd => CloneOk ⟨m.phys, m.live⟩ (.clone pd)
  | .fault pd _ cr2 _ _ => ∀ q, pagingQueryPage m.phys pd (cr2 / 4096 * 4096) = some q →
      q.flags.cow = true → q.flags.user = true
  | .mprotect pd _ addr len prot => GrantOk m pd addr len prot
  | _ => True

variable {p pd : Nat}

section Steps

variable {K live : Finset Nat} {s : Phys} {m : Machine}

/-! ## The page loops of munmap and mprotect -/

theorem PagesKeep.unmapRange {I : Phys → Prop} (k : PagesKeep K live I) (h : I s)
    (hp : p ∈ live) (start stop : Nat) : I (syscallUnmapUserRange s p start stop) := by
  refine List.foldlRecOn (motive := I) _ _ h fun s' h' page _ => ?_
  obtain ⟨hinv, hadj⟩ := (k.own h').unmapUserPage_spec hp page
  exact k.adjust h' hinv hadj

/-- The loop of mprotect changes the rights of the pages in its range, each seen
from the state before the loop. -/
theorem PagingInv.applyMprotect_spec (h : PagingInv K live (fun _ => 0) s)
    (hp : p ∈ live) (start stop prot : Nat) :
    PagingInv K live (fun _ => 0) (syscallApplyMprotect s p start stop prot) ∧
      ∀ y ∈ slots live, Adjusted
        ((∃ page ∈ pageRange start stop, y = slotOf p page) ∧ protWrite prot = true)
        (userPte s y) (userPte (syscallApplyMprotect s p start stop prot) y) := by
  refine List.foldlRecOn (motive := fun s' => PagingInv K live (fun _ => 0) s' ∧
    ∀ y ∈ slots live, Adjusted
      ((∃ page ∈ pageRange start stop, y = slotOf p page) ∧ protWrite prot = true)
      (userPte s y) (userPte s' y)) _ _ ⟨h, fun _ _ => Adjusted.refl _ _⟩ ?_
  rintro s' ⟨h', hadj⟩ page hpage
  obtain ⟨hinv, hstep⟩ := h'.applyMprotectPage_spec hp prot page
  refine ⟨hinv, fun y hy => (hadj y hy).trans ((hstep y hy).mono fun hc => ?_)⟩
  exact ⟨⟨page, hpage, hc.1⟩, hc.2⟩

/-- What mprotect does to the page tables: nothing, or its loop. -/
theorem mprotect_phys (k : Kmalloc) (s : Phys) (p : Proc) (addr len prot : Nat) :
    (syscallCaseMprotect k s p addr len prot).2.1 = s ∨
      (syscallCaseMprotect k s p addr len prot).2.1
        = syscallApplyMprotect s p.pdPhys addr (u32 (addr + mapLen len)) prot := by
  unfold syscallCaseMprotect
  dsimp only
  split
  · exact .inl rfl
  split
  · exact .inl rfl
  split
  · exact .inl rfl
  split
  · exact .inl rfl
  next p' hp' =>
  have hpd : p'.pdPhys = p.pdPhys := by
    split at hp'
    · obtain ⟨pages, rfl⟩ := vmCommitReserve_some hp'
      rfl
    · rw [← Option.some.inj hp']
  split
  · exact .inl rfl
  · rw [hpd]
    exact .inr rfl

theorem MemOk.mprotect (h : MemOk K m.live m.phys) (hp : pd ∈ m.live) (k : Kmalloc)
    (addr len prot : Nat) :
    MemOk K m.live (syscallCaseMprotect k m.phys (m.task pd) addr len prot).2.1 := by
  obtain ⟨hinv, hadj⟩ := h.own.applyMprotect_spec hp addr (u32 (addr + mapLen len)) prot
  rcases mprotect_phys k m.phys (m.task pd) addr len prot with he | he
  · rw [he]
    exact h
  · rw [he]
    exact ⟨hinv, h.frames.adjust hadj⟩

theorem CowOk.mprotect (h : CowOk K m.live m.phys) (hp : pd ∈ m.live) (k : Kmalloc)
    (addr len prot : Nat) (hg : GrantOk m pd addr len prot) :
    CowOk K m.live (syscallCaseMprotect k m.phys (m.task pd) addr len prot).2.1 := by
  obtain ⟨hinv, hadj⟩ := h.own.applyMprotect_spec hp addr (u32 (addr + mapLen len)) prot
  rcases mprotect_phys k m.phys (m.task pd) addr len prot with he | he
  · rw [he]
    exact h
  · rw [he]
    refine ⟨hinv, h.excl.adjust hadj ?_, h.frames.adjust hadj⟩
    rintro x - ⟨⟨page, hpage, rfl⟩, hw⟩ e he hep hcow hwr
    exact hg hw page hpage e he hep hcow hwr

theorem PagesKeep.munmap {I : Phys → Prop} (k : PagesKeep K m.live I) (h : I m.phys)
    (hp : pd ∈ m.live) (mem : Kmalloc) (addr len : Nat) :
    I (syscallCaseMunmap mem m.phys (m.task pd) addr len).2.1 := by
  unfold syscallCaseMunmap
  dsimp only
  split
  · exact h
  split
  · exact h
  split
  · exact h
  · exact k.unmapRange h hp _ _

/-! ## Processes come and go -/

/-- A fork that fails leaves the paging structures in use alone. -/
theorem userPte_of_clone_failed {s' : Phys}
    (hmem : ∀ a, uses K live s a ≠ 0 → s'.mem a = s.mem a) {y : Nat × Nat × Nat}
    (hy : y ∈ slots live) : userPte s' y = userPte s y := by
  obtain ⟨hq, hi, -⟩ := mem_slots.mp hy
  unfold userPte
  rw [hmem _ (uses_pos_of_live hq)]
  split
  next hu => rw [hmem _ (uses_pos_of_table hq hi hu)]
  · rfl

/-- The new address space shows nothing, the others are as before. -/
theorem PagingInv.spawn_view (h : PagingInv K m.live (fun _ => 0) m.phys) (p : Proc) :
    PagingInv K (m.join (pagingCreateUserSpace m.phys) p).live (fun _ => 0)
        (m.join (pagingCreateUserSpace m.phys) p).phys ∧
      ∀ y ∈ slots (m.join (pagingCreateUserSpace m.phys) p).live, ∀ e,
        userPte (m.join (pagingCreateUserSpace m.phys) p).phys y = some e →
        y ∈ slots m.live ∧ userPte m.phys y = some e := by
  unfold Machine.join
  rcases h.create with he | ⟨n, s', he, hn0, hnl, huses, hinv, hnew, hmem⟩
  · rw [he]
    exact ⟨h, fun y hy e hpte => ⟨hy, hpte⟩⟩
  · rw [he]
    rw [if_neg hn0]
    refine ⟨hinv, ?_⟩
    rintro ⟨q, i, j⟩ hy e hpte
    obtain ⟨hq, hi, hj⟩ := mem_slots.mp hy
    simp only at hq hi hj
    rcases Finset.mem_insert.mp hq with rfl | hq
    · simp [userPte, hnew i hi] at hpte
    · refine ⟨mem_slots.mpr ⟨hq, hi, hj⟩, ?_⟩
      have hqn : q ≠ n := fun hc => hnl (hc ▸ hq)
      unfold userPte at hpte ⊢
      rw [hmem q hqn] at hpte
      split at hpte
      next hu =>
        rw [hmem _ ((uses_zero huses).2.2.2 q hq i hi hu)] at hpte
        rw [if_pos hu]
        exact hpte
      · cases hpte

section

variable {live' : Finset Nat} {s' : Phys} (hinv : PagingInv K live' (fun _ => 0) s')
  (hview : ∀ y ∈ slots live', ∀ e, userPte s' y = some e → y ∈ slots live ∧ userPte s y = some e)

include hinv hview

/-- The invariants hold of address spaces that show no more than before. -/
theorem MemOk.sub (h : MemOk K live s) : MemOk K live' s' := by
  refine ⟨hinv, fun x hx e he => ?_⟩
  obtain ⟨hx', he'⟩ := hview x hx e he
  exact h.frames x hx' e he'

theorem CowOk.sub (h : CowOk K live s) : CowOk K live' s' := by
  refine ⟨hinv, fun x hx y hy hxy e f he hf => ?_, (h.memOk.sub hinv hview).frames⟩
  obtain ⟨hx', he'⟩ := hview x hx e he
  obtain ⟨hy', hf'⟩ := hview y hy f hf
  exact h.excl x hx' y hy' hxy e f he' hf'

end

theorem MemOk.spawn (h : MemOk K m.live m.phys) (p : Proc) :
    MemOk K (m.join (pagingCreateUserSpace m.phys) p).live
      (m.join (pagingCreateUserSpace m.phys) p).phys :=
  h.sub (h.own.spawn_view p).1 (h.own.spawn_view p).2

theorem CowOk.spawn (h : CowOk K m.live m.phys) (p : Proc) :
    CowOk K (m.join (pagingCreateUserSpace m.phys) p).live
      (m.join (pagingCreateUserSpace m.phys) p).phys :=
  h.sub (h.own.spawn_view p).1 (h.own.spawn_view p).2

theorem MemOk.fork (h : MemOk K m.live m.phys) (hp : pd ∈ m.live)
    (hc : CloneOk ⟨m.phys, m.live⟩ (.clone pd)) (p : Proc) :
    MemOk K (m.join (pagingCloneUserSpace m.phys pd) p).live
      (m.join (pagingCloneUserSpace m.phys pd) p).phys := by
  obtain ⟨n, s', he⟩ : ∃ n s', pagingCloneUserSpace m.phys pd = (n, s') := ⟨_, _, rfl⟩
  unfold Machine.join
  rw [he]
  rcases h.own.clone hp hc he with ⟨hn0, hinv, hmem⟩ | ⟨hn0, hnl, hinv, hot, hparent, hchild⟩
  · rw [if_pos hn0]
    exact MemOk.pagesKeep.same h hinv fun y hy => userPte_of_clone_failed hmem hy
  · rw [if_neg hn0]
    refine ⟨hinv, ?_⟩
    rintro ⟨q, i, j⟩ hx e he hcow
    obtain ⟨hq, hi, hj⟩ := mem_slots.mp hx
    simp only at hq hi hj
    -- an entry of parent or child is a marked one of the parent's
    have hmarked : userPte s' (q, i, j) = (userPte m.phys (pd, i, j)).map cloneEntry →
        e.io = false := by
      intro hm
      rw [hm] at he
      obtain ⟨e0, he0, rfl⟩ := Option.map_eq_some_iff.mp he
      exact cloneEntry_cow_io (h.frames _ (mem_slots.mpr ⟨hp, hi, hj⟩) e0 he0) hcow
    rcases Finset.mem_insert.mp hq with rfl | hq
    · exact hmarked (hchild i hi j hj)
    · have hy : (q, i, j) ∈ slots m.live := mem_slots.mpr ⟨hq, hi, hj⟩
      by_cases hqp : q = pd
      · subst hqp
        exact hmarked (hparent _ hy rfl)
      · rw [h.own.userPte_of_onlyTouches hot hp hy hqp] at he
        exact h.frames _ hy e he hcow

theorem CowOk.fork (h : CowOk K m.live m.phys) (hp : pd ∈ m.live)
    (hc : CloneOk ⟨m.phys, m.live⟩ (.clone pd)) (p : Proc) :
    CowOk K (m.join (pagingCloneUserSpace m.phys pd) p).live
      (m.join (pagingCloneUserSpace m.phys pd) p).phys := by
  obtain ⟨hinv', hframes⟩ := h.memOk.fork hp hc p
  refine ⟨hinv', ?_, hframes⟩
  obtain ⟨n, s', he⟩ : ∃ n s', pagingCloneUserSpace m.phys pd = (n, s') := ⟨_, _, rfl⟩
  unfold Machine.join
  rw [he]
  rcases h.own.clone hp hc he with ⟨hn0, -, hmem⟩ | ⟨hn0, hnl, -, hot, hparent, hchild⟩
  · rw [if_pos hn0]
    exact h.excl.congr fun y hy => userPte_of_clone_failed hmem hy
  · rw [if_neg hn0]
    exact h.excl.fork hp hnl (fun y e => userPte_userPresent) hparent hchild
      fun y hy hne => h.own.userPte_of_onlyTouches hot hp hy hne

/-- Parent and child of a fork show the same, marked copy-on-write. -/
theorem PagingInv.fork_view (h : PagingInv K m.live (fun _ => 0) m.phys) (hp : pd ∈ m.live)
    (hc : CloneOk ⟨m.phys, m.live⟩ (.clone pd))
    (hn : (pagingCloneUserSpace m.phys pd).1 ≠ 0) (hi : i < 1024) (hj : j < 1024) :
    userPte (cowStep m (.fork pd)).phys (pd, i, j) =
      (userPte m.phys (pd, i, j)).map cloneEntry ∧
    userPte (cowStep m (.fork pd)).phys ((pagingCloneUserSpace m.phys pd).1, i, j) =
      (userPte m.phys (pd, i, j)).map cloneEntry := by
  have hphys : (cowStep m (.fork pd)).phys = (pagingCloneUserSpace m.phys pd).2 := by
    show (m.join _ _).phys = _
    unfold Machine.join
    rw [if_neg hn]
  rw [hphys]
  rcases h.clone hp hc rfl with ⟨hn0, -⟩ | ⟨-, -, -, -, hparent, hchild⟩
  · exact absurd hn0 hn
  · exact ⟨hparent _ (mem_slots.mpr ⟨hp, hi, hj⟩) rfl, hchild i hi j hj⟩

/-- The other address spaces are as before. -/
theorem PagingInv.destroy_view (h : PagingInv K live (fun _ => 0) s) (hp : p ∈ live) :
    ∀ y ∈ slots (live.erase p), ∀ e, userPte (pagingDestroyUserSpace s p) y = some e →
      y ∈ slots live ∧ userPte s y = some e := by
  intro y hy e he
  obtain ⟨hq, hij⟩ := mem_slots.mp hy
  obtain ⟨hne, hq⟩ := Finset.mem_erase.mp hq
  have hy' := mem_slots.mpr ⟨hq, hij⟩
  exact ⟨hy', h.userPte_of_onlyTouches (h.destroy hp).2 hp hy' hne ▸ he⟩

theorem MemOk.destroy (h : MemOk K live s) (hp : p ∈ live) :
    MemOk K (live.erase p) (pagingDestroyUserSpace s p) :=
  h.sub (h.own.destroy hp).1 (h.own.destroy_view hp)

theorem CowOk.destroy (h : CowOk K live s) (hp : p ∈ live) :
    CowOk K (live.erase p) (pagingDestroyUserSpace s p) :=
  h.sub (h.own.destroy hp).1 (h.own.destroy_view hp)

/-! ## Runs -/

/-- One step. -/
theorem cowStep_ok (h : CowOk K m.live m.phys) {op : CowOp} (hr : op.Running m)
    (hs : CowSafe m op) : CowOk K (cowStep m op).live (cowStep m op).phys := by
  cases op with
  | spawn p => exact h.spawn p
  | load pd page => exact h.fresh hr page ⟨rfl, rfl, rfl, rfl⟩ rfl
  | areas pd p => exact h
  | fork pd => exact h.fork hr hs _
  | fault pd readOk cr2 err userEsp =>
    exact CowOk.pagesKeep.fault (p := m.task pd) h hr readOk cr2 err userEsp hs
  | copyToUser pd readOk dst len =>
    exact CowOk.pagesKeep.copyToUser (p := m.task pd) h hr readOk dst len
  | mprotect pd k addr len prot => exact h.mprotect hr k addr len prot hs
  | munmap pd k addr len => exact CowOk.pagesKeep.munmap h hr k addr len
  | destroy pd => exact h.destroy hr

/-- The machine before the first process. -/
def bootMachine (s : Phys) (proc : Nat → Proc) : Machine := ⟨s, ∅, proc⟩

/-- The runs in which processes that exist act, and safely. -/
abbrev CowRun (s : Phys) (proc : Nat → Proc) : Machine → Prop :=
  Reach cowStep (fun m op => op.Running m ∧ CowSafe m op) (bootMachine s proc)

theorem CowRun.ok {s : Phys} {proc : Nat → Proc} (hb : Booted K s) (h : CowRun s proc m) :
    CowOk K m.live m.phys := by
  refine h.inv (fun m => CowOk K m.live m.phys) ⟨hb.inv, ?_, ?_⟩
    fun m op hm hok => cowStep_ok hm hok.1 hok.2
  · intro x hx
    exact absurd (mem_slots.mp hx).1 (Finset.notMem_empty _)
  · intro x hx
    exact absurd (mem_slots.mp hx).1 (Finset.notMem_empty _)

/-- A frame that two address spaces map privately is writable through no private
mapping, in every state of a run. -/
theorem cow_exclusive (K : Finset Nat) (s : Phys) (hb : Booted K s) (proc : Nat → Proc)
    (m : Machine) (hr : CowRun s proc m) (frame : Nat) :
    ∀ x ∈ slots m.live, ∀ y ∈ slots m.live, x.1 ≠ y.1 →
      (∃ e, userPte m.phys x = some e ∧ e.isPrivate = true ∧ e.addr = frame) →
      (∃ e, userPte m.phys y = some e ∧ e.isPrivate = true ∧ e.addr = frame) →
      ∀ z ∈ slots m.live, ∀ e, userPte m.phys z = some e → e.isPrivate = true → e.addr = frame →
        e.writable = false := by
  have hex := (hr.ok hb).excl
  rintro x hx y hy hxy ⟨ex, hex1, hexp, hexa⟩ ⟨ey, hey1, heyp, heya⟩ z hz e he hep hea
  -- one of the two is another address space than that of `z`
  by_cases hzx : z.1 = x.1
  · exact hex z hz y hy (by rw [hzx]; exact hxy) e ey he hey1 hep heyp (by rw [hea, heya])
  · exact hex z hz x hx hzx e ex he hex1 hep hexp (by rw [hea, hexa])

end Steps

/-! ## mprotect on a page that was read-only at the time of fork -/

/-- A process with one private anonymous page, read-only. -/
def readerProc : Proc where
  pdPhys := 0
  vmas :=
    { areas := [{ start := 0x40000000, stop := 0x40001000, kind := .generic,
                  flags := { read := true, anon := true, priv := true } }]
      capacity := 32
      dynamic := true }
  brk := 0x300000
  rlimitData := 64 * 1024 * 1024
  committedPages := 0
  stackLowLimit := userStackBase

/-- It reads the page, forks, and the child asks for write access. -/
@[irreducible] def grantedMachine : Machine :=
  [.spawn readerProc, .fault 0x18000 true 0x40000000 ⟨false, false, true⟩ 0, .fork 0x18000,
    .mprotect 0x1B000 ⟨true, true⟩ 0x40000000 4096 3].foldl cowStep
    (bootMachine smallPhys fun _ => readerProc)

theorem grantedMachine_run :
    Reach cowStep (fun m op => op.Running m) (bootMachine smallPhys fun _ => readerProc)
      grantedMachine := by
  unfold grantedMachine
  refine Reach.start.run ⟨trivial, ?_, ?_, ?_, trivial⟩
  · show 0x18000 ∈ _
    decide +kernel
  · show 0x18000 ∈ _
    decide +kernel
  · show 0x1B000 ∈ _
    decide +kernel

set_option maxRecDepth 40000 in
/-- The child's page is writable, and it is the parent's frame. -/
theorem mprotect_shares_writable :
    Booted smallKernel smallPhys ∧
    Reach cowStep (fun m op => op.Running m) (bootMachine smallPhys fun _ => readerProc)
      grantedMachine ∧
    0x18000 ∈ grantedMachine.live ∧ 0x1B000 ∈ grantedMachine.live ∧
    userPte grantedMachine.phys (0x18000, 256, 0) =
      some { present := true, user := true, addr := 0x19000 } ∧
    userPte grantedMachine.phys (0x1B000, 256, 0) =
      some { present := true, user := true, writable := true, addr := 0x19000 } := by
  refine ⟨smallPhys_booted, grantedMachine_run, ?_⟩
  decide +kernel

/-- A process with one loaded page. -/
@[irreducible] def loadedMachine : Machine :=
  [.spawn readerProc, .load 0x18000 0x40000000].foldl cowStep
    (bootMachine smallPhys fun _ => readerProc)

theorem loadedMachine_run : CowRun smallPhys (fun _ => readerProc) loadedMachine := by
  unfold loadedMachine
  refine Reach.start.run ⟨⟨trivial, trivial⟩, ⟨?_, trivial⟩, trivial⟩
  show 0x18000 ∈ _
  decide +kernel

set_option maxRecDepth 40000 in
/-- Neither side of a fork can write to the page they share. -/
theorem cow_exclusive_forked :
    userPte loadedMachine.phys (0x18000, 256, 0) =
      some { present := true, user := true, writable := true, addr := 0x19000 } ∧
    ∀ z ∈ slots (cowStep loadedMachine (.fork 0x18000)).live, ∀ e,
      userPte (cowStep loadedMachine (.fork 0x18000)).phys z = some e →
      e.isPrivate = true → e.addr = 0x19000 → e.writable = false := by
  have hlive : 0x18000 ∈ loadedMachine.live := by decide +kernel
  have hclone : CloneOk ⟨loadedMachine.phys, loadedMachine.live⟩ (.clone 0x18000) := by
    unfold CloneOk
    decide +kernel
  have hpage : userPte loadedMachine.phys (0x18000, 256, 0) =
      some { present := true, user := true, writable := true, addr := 0x19000 } := by
    decide +kernel
  have hnew : (pagingCloneUserSpace loadedMachine.phys 0x18000).1 = 0x1B000 := by decide +kernel
  have hparent : 0x18000 ∈ (cowStep loadedMachine (.fork 0x18000)).live := by decide +kernel
  have hchild : 0x1B000 ∈ (cowStep loadedMachine (.fork 0x18000)).live := by decide +kernel
  obtain ⟨hparent', hchild'⟩ := (loadedMachine_run.ok smallPhys_booted).own.fork_view hlive hclone
    (by rw [hnew]; decide) (show 256 < 1024 by decide) (show 0 < 1024 by decide)
  rw [hpage] at hparent' hchild'
  rw [hnew] at hchild'
  exact ⟨hpage, cow_exclusive smallKernel smallPhys smallPhys_booted
    (fun _ => readerProc) _ (Reach.step (CowOp.fork 0x18000) loadedMachine_run ⟨hlive, hclone⟩)
    0x19000 (0x18000, 256, 0) (mem_slots.mpr ⟨hparent, by decide, by decide⟩)
    (0x1B000, 256, 0) (mem_slots.mpr ⟨hchild, by decide, by decide⟩) (by decide)
    ⟨_, hparent', rfl, rfl⟩ ⟨_, hchild', rfl, rfl⟩⟩

end Drunix.Mm
