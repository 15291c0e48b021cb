import Drunix.Mm.Cow

/-!
# What mprotect leaves of the pages of its range

`syscall_case_mprotect` changes the VMA table and then, page by page, the page tables
(`syscall_apply_mprotect`). The second part cannot report an error. Giving a page back
to the user goes through `paging_map_page`, and that takes a present PTE without
`PG_USER` for one of the kernel's and refuses: a page that `PROT_NONE` has taken away
stays away (`mprotect_none_is_final`).

Main result: `mprotect_agrees_iff`. A call that returns 0 leaves every resident page of
its range with its frame and with exactly the rights asked for, if and only if it does
not ask for access to a page that is there without `PG_USER`.
-/

namespace Drunix.Mm

open Lib

/-- What a page should be after `mprotect` with `prot`: the same frame, reachable
if `prot` grants any access, writable if it grants write and the page is not
copy-on-write. -/
structure Agrees (prot : Nat) (m m' : Mapping) : Prop where
  frame : m'.physAddr / 4096 = m.physAddr / 4096
  user : m'.flags.user = protHasUserAccess prot
  write : m'.flags.write = (protWrite prot && !m.flags.cow)
  cow : m'.flags.cow = m.flags.cow

theorem Agrees.trans {prot : Nat} {m m' m'' : Mapping} (h : Agrees prot m m') (h' : Agrees prot m' m'') :
    Agrees prot m m'' :=
  ⟨h'.frame.trans h.frame, h'.user, by rw [h'.write, h.cow], h'.cow.trans h.cow⟩

/-- The call may ask this of the page: no access, or the page is the user's. -/
def Entry.MayHave (e : Entry) (prot : Nat) : Prop := protHasUserAccess prot = true → e.user = true

/-- `e'` is what `mprotect` should make of the present PTE `e`. -/
def Entry.Protected (e : Entry) (prot : Nat) (e' : Entry) : Prop :=
  e'.present = true ∧ Agrees prot e.mapping e'.mapping

section Pages

variable {K live : Finset Nat} {X : Nat → Nat} {s : Phys} {p prot : Nat}

/-- A store to one PTE of a page table, as every page of the address space sees it. -/
theorem pteAt_setEntry {t : Nat} (ht : p ≠ t) (j : Nat) (e : Entry) (w : Nat) :
    pteAt (s.setEntry t j e) p w = pteAt s p w ∨
    pteAt s p w = s.mem t j ∧ pteAt (s.setEntry t j e) p w = e := by
  unfold pteAt
  rw [Phys.setEntry_mem_page e ht]
  split
  · rw [Phys.setEntry_mem]
    split
    next hc => exact .inr ⟨by rw [hc.1, hc.2], rfl⟩
    · exact .inl rfl
  · exact .inl rfl

/-- What one page of the loop does to the address space: nothing, because there is no
page or because the kernel has it; or the page gets its new PTE, and whoever had the
same PTE has the new one too. -/
inductive PageProtected (p prot page : Nat) (s s' : Phys) : Prop where
  | same (hno : (pteAt s p page).present = true → ¬ (pteAt s p page).MayHave prot)
      (hmem : s'.mem = s.mem)
  | done (hmay : (pteAt s p page).MayHave prot)
      (hpage : (pteAt s p page).Protected prot (pteAt s' p page))
      (hall : ∀ w, pteAt s' p w = pteAt s p w ∨
        pteAt s p w = pteAt s p page ∧ pteAt s' p w = pteAt s' p page)

/-- The page's own store. -/
theorem PagingInv.protected_store (h : PagingInv K live X s) (hp : p ∈ live) {page : Nat} {e : Entry}
    (he : s.mem (s.mem p (pdIndex page)).addr (ptIndex page) = e)
    (hpte : pteAt s p page = e) (hpres : (s.mem p (pdIndex page)).present = true)
    (hptr : physPtr (s.mem p (pdIndex page)).addr = true) {e' : Entry} (hmay : e.MayHave prot)
    (hprot : e.Protected prot e') :
    PageProtected p prot page s
      (s.setEntry (s.mem p (pdIndex page)).addr (ptIndex page) e') := by
  have hne : p ≠ (s.mem p (pdIndex page)).addr :=
    (h.table_ne hp (pdIndex_lt page) hpres (.inl rfl)).symm
  have hself : pteAt (s.setEntry (s.mem p (pdIndex page)).addr (ptIndex page) e') p page = e' := by
    unfold pteAt
    rw [Phys.setEntry_mem_page e' hne, hpres, hptr, Bool.and_self, if_pos rfl, Phys.setEntry_mem,
      if_pos ⟨rfl, rfl⟩]
  refine .done (hpte ▸ hmay) (by rw [hself, hpte]; exact hprot) fun w => ?_
  rw [hself, hpte, ← he]
  exact pteAt_setEntry hne _ _ w

/-- One page of `syscall_apply_mprotect`. -/
theorem PagingInv.applyMprotectPage_pteAt (h : PagingInv K live X s) (hp : p ∈ live) (page : Nat)
    (hword : (pteAt s p page).addr < 4294967296) :
    PageProtected p prot page s (applyMprotectPage p prot s page) := by
  have hquery := h.query_eq hp page
  rcases h.query_cases hp page with ⟨hq, -⟩ | ⟨e, he, hq, hpres, hpte, huser, -⟩
  · rw [hq] at hquery
    unfold applyMprotectPage
    rw [hq]
    refine .same (fun hpres => ?_) rfl
    rw [if_pos hpres] at hquery
    cases hquery
  -- the table behind the PDE was reached, so `pteAt` is its entry
  have hptr : physPtr (s.mem p (pdIndex page)).addr = true := by
    by_contra hno
    rw [hq, pteAt, if_neg (by simp [hno])] at hquery
    cases hquery
  have hat : pteAt s p page = e := by
    unfold pteAt
    rw [hpres, hptr, Bool.and_self, if_pos rfl, he]
  rw [hat] at hword
  rcases h.applyMprotectPage_cases hp prot he hq hpres hpte huser with
    ⟨hs, ⟨h1, h2⟩ | hfar⟩ | ⟨hmem, -, hu, hacc⟩ | ⟨hs, hsame, -⟩ | ⟨hs, -, hacc⟩
  · rw [hs]
    refine .done (by rw [hat]; exact fun hacc => h1 ▸ hacc) ?_ fun w => .inl rfl
    rw [hat]
    exact ⟨hpte, rfl, h1.symm, h2.symm, rfl⟩
  · omega
  · refine .same (fun _ hmay => ?_) hmem
    rw [hat] at hmay
    exact absurd ((hmay hacc).symm.trans hu) (by decide)
  · rw [hs]
    exact h.protected_store hp he hat hpres hptr (fun hacc => hsame.symm.trans hacc)
      ⟨hpte, rfl, hsame.symm, rfl, rfl⟩
  · rw [hs]
    refine h.protected_store hp he hat hpres hptr (fun hc => by rw [hacc] at hc; exact absurd hc (by simp))
      ⟨rfl, ?_, rfl, ?_, rfl⟩
    · show pageDown e.addr / 4096 = e.addr / 4096
      unfold pageDown pageSize
      omega
    · show ((protWrite prot && !e.cow) && !e.cow) = _
      rw [Bool.and_assoc, Bool.and_self]
      rfl

/-! ## The loop -/

/-- From `s0` to `s` each PTE is as it was, or what `mprotect` should make of it. -/
structure Protecting (K live : Finset Nat) (X : Nat → Nat) (p prot : Nat) (s₀ s : Phys) (done : List Nat) :
    Prop where
  inv : PagingInv K live X s
  all : ∀ w, pteAt s p w = pteAt s₀ p w ∨
    (pteAt s₀ p w).MayHave prot ∧ (pteAt s₀ p w).Protected prot (pteAt s p w)
  pages : ∀ w ∈ done, (pteAt s₀ p w).present = true → (pteAt s₀ p w).MayHave prot →
    (pteAt s₀ p w).Protected prot (pteAt s p w)

theorem Entry.Protected.trans {e e' e'' : Entry} (h : e.Protected prot e') (h' : e'.Protected prot e'') :
    e.Protected prot e'' := ⟨h'.1, h.2.trans h'.2⟩

theorem Protecting.step {s0 : Phys} {done : List Nat} (h : Protecting K live X p prot s0 s done)
    (hp : p ∈ live) {page : Nat} (hword : (pteAt s0 p page).addr < 4294967296) :
    Protecting K live X p prot s0 (applyMprotectPage p prot s page) (done ++ [page]) := by
  have hword' : (pteAt s p page).addr < 4294967296 := by
    rcases h.all page with he | ⟨-, -, hag⟩
    · rw [he]
      exact hword
    · have hframe : (pteAt s p page).addr / 4096 = (pteAt s0 p page).addr / 4096 := hag.frame
      omega
  have hinv := (h.inv.applyMprotectPage_spec hp prot page).1
  have hstep : PageProtected p prot page s (applyMprotectPage p prot s page) :=
    h.inv.applyMprotectPage_pteAt hp page hword'
  rcases hstep with ⟨hno, hmem⟩ | ⟨hmay, hpage, hall⟩
  · -- nothing changed; the page itself may not be touched
    have hpte : ∀ w, pteAt (applyMprotectPage p prot s page) p w = pteAt s p w :=
      fun w => pteAt_of_mem_eq hmem p w
    refine ⟨hinv, fun w => by rw [hpte]; exact h.all w, fun w hw hpres hmay => ?_⟩
    rw [hpte]
    rcases List.mem_append.mp hw with hw | hw
    · exact h.pages w hw hpres hmay
    · obtain rfl := List.mem_singleton.mp hw
      rcases h.all w with he | ⟨-, hprot⟩
      · exact absurd (he ▸ hmay) (hno (he ▸ hpres))
      · exact hprot
  · -- a PTE that changed is one that may, and is now what it should be
    have hnew : ∀ w, pteAt (applyMprotectPage p prot s page) p w = pteAt s p w ∨
        (pteAt s p w).MayHave prot ∧
          (pteAt s p w).Protected prot (pteAt (applyMprotectPage p prot s page) p w) := by
      intro w
      rcases hall w with he | ⟨he, he'⟩
      · exact .inl he
      · exact .inr ⟨he ▸ hmay, by rw [he, he']; exact hpage⟩
    have hthen : ∀ w, (pteAt s0 p w).Protected prot (pteAt s p w) →
        (pteAt s0 p w).Protected prot (pteAt (applyMprotectPage p prot s page) p w) := by
      intro w hprot
      rcases hnew w with he | ⟨-, he⟩
      · rw [he]
        exact hprot
      · exact hprot.trans he
    refine ⟨hinv, fun w => ?_, fun w hw hpres hmay' => ?_⟩
    · rcases h.all w with he | ⟨hm, hprot⟩
      · rw [← he]
        exact hnew w
      · exact .inr ⟨hm, hthen w hprot⟩
    · rcases List.mem_append.mp hw with hw | hw
      · exact hthen w (h.pages w hw hpres hmay')
      · obtain rfl := List.mem_singleton.mp hw
        rcases h.all w with he | ⟨-, hprot⟩
        · rw [← he]
          exact hpage
        · exact hthen w hprot

theorem Protecting.loop {s0 : Phys} (hp : p ∈ live) (pages : List Nat)
    (hword : ∀ w ∈ pages, (pteAt s0 p w).addr < 4294967296) :
    ∀ {s : Phys} {done : List Nat}, Protecting K live X p prot s0 s done →
      Protecting K live X p prot s0 (pages.foldl (applyMprotectPage p prot) s) (done ++ pages) := by
  induction pages with
  | nil =>
    intro s done h
    rw [List.append_nil]
    exact h
  | cons page pages ih =>
    intro s done h
    rw [List.append_cons]
    exact ih (fun w hw => hword w (List.mem_cons_of_mem _ hw))
      (h.step hp (hword page List.mem_cons_self))

end Pages

/-! ## The system call -/

/-- The pages of the range of a call. -/
def InRange (addr len page : Nat) : Prop := page ∈ pageRange addr (u32 (addr + mapLen len))

/-- A call that returns 0 ran the loop over the page tables. -/
theorem syscallCaseMprotect_zero {k : Kmalloc} {s s' : Phys} {p p' : Proc} {addr len prot : Nat}
    (h : syscallCaseMprotect k s p addr len prot = (0, s', p')) :
    s' = syscallApplyMprotect s p.pdPhys addr (u32 (addr + mapLen len)) prot := by
  have herr : errRet ≠ 0 := by decide
  unfold syscallCaseMprotect at h
  dsimp only at h
  split at h
  · exact absurd (Prod.mk.inj h).1 herr
  split at h
  · exact absurd (Prod.mk.inj h).1 herr
  split at h
  · exact absurd (Prod.mk.inj h).1 herr
  split at h
  · exact absurd (Prod.mk.inj h).1 herr
  next q hq =>
  have hpd : q.pdPhys = p.pdPhys := by
    split at hq
    · obtain ⟨pages, rfl⟩ := vmCommitReserve_some hq
      rfl
    · rw [← Option.some.inj hq]
  split at h
  · exact absurd (Prod.mk.inj h).1 herr
  · rw [← (Prod.mk.inj (Prod.mk.inj h).2).1, hpd]

/-- After a call that returns 0 each resident page of the range is what was asked for,
if and only if no access is asked for to a page without the user bit. (`hword`: a PTE is
a 32-bit word.) -/
theorem mprotect_agrees_iff {K live : Finset Nat} {X : Nat → Nat} {s s' : Phys} {p p' : Proc}
    (hinv : PagingInv K live X s) (hp : p.pdPhys ∈ live)
    {k : Kmalloc} {addr len prot : Nat}
    (hword : ∀ page, InRange addr len page → (pteAt s p.pdPhys page).addr < 4294967296)
    (hcall : syscallCaseMprotect k s p addr len prot = (0, s', p')) :
    (∀ page, InRange addr len page → ∀ m, pagingQueryPage s p.pdPhys page = some m →
      ∃ m', pagingQueryPage s' p.pdPhys page = some m' ∧ Agrees prot m m') ↔
    (protHasUserAccess prot = true → ∀ page, InRange addr len page → ∀ m,
      pagingQueryPage s p.pdPhys page = some m → m.flags.user = true) := by
  obtain rfl := syscallCaseMprotect_zero hcall
  have hloop : Protecting K live X p.pdPhys prot s
      (syscallApplyMprotect s p.pdPhys addr (u32 (addr + mapLen len)) prot)
      (pageRange addr (u32 (addr + mapLen len))) :=
    Protecting.loop hp _ hword (show Protecting K live X p.pdPhys prot s s [] from
      ⟨hinv, fun _ => .inl rfl, fun w hw => absurd hw List.not_mem_nil⟩)
  constructor
  · intro hall hacc page hpage m hm
    obtain ⟨m', hm', hag⟩ := hall page hpage m hm
    rw [hloop.inv.query_eq hp] at hm'
    rw [hinv.query_eq hp] at hm
    split at hm
    · cases hm
      rcases hloop.all page with he | ⟨hmay, -⟩
      · split at hm'
        · cases hm'
          rw [he] at hag
          exact hag.user.trans hacc
        · cases hm'
      · exact hmay hacc
    · cases hm
  · intro hmay page hpage m hm
    have hquery := hm
    rw [hinv.query_eq hp] at hm
    split at hm
    next hpres =>
      cases hm
      obtain ⟨hpres', hag⟩ := hloop.pages page hpage hpres fun hacc => hmay hacc page hpage _ hquery
      exact ⟨_, by rw [hloop.inv.query_eq hp, if_pos hpres'], hag⟩
    · cases hm

/-! ## `PROT_NONE` and back -/

/-- A process that has touched its page once. -/
@[irreducible] def touchedMachine : Machine :=
  [.spawn readerProc, .fault 0x18000 true 0x40000000 ⟨false, false, true⟩ 0].foldl cowStep
    (bootMachine smallPhys fun _ => readerProc)

/-- `mprotect` of that page. -/
def protectPage (s : Phys) (p : Proc) (prot : Nat) : Nat × Phys × Proc :=
  syscallCaseMprotect ⟨true, true⟩ s p 0x40000000 4096 prot

theorem touchedMachine_run : CowRun smallPhys (fun _ => readerProc) touchedMachine := by
  unfold touchedMachine
  refine Reach.step (CowOp.fault 0x18000 true 0x40000000 ⟨false, false, true⟩ 0) ?_ ⟨?_, ?_⟩
  · exact Reach.step (CowOp.spawn readerProc) Reach.start ⟨trivial, trivial⟩
  · show 0x18000 ∈ _
    decide +kernel
  · intro q hq
    have hno : pagingQueryPage (cowStep (bootMachine smallPhys fun _ => readerProc)
        (.spawn readerProc)).phys 0x18000 (0x40000000 / 4096 * 4096) = none := by
      decide +kernel
    rw [hno] at hq
    cases hq

/-- Write access to the page, while it is the user's. -/
theorem mprotect_agrees_touched :
    (protectPage touchedMachine.phys (touchedMachine.task 0x18000) 3).1 = 0 ∧
    ∃ m m', pagingQueryPage touchedMachine.phys 0x18000 0x40000000 = some m ∧
      pagingQueryPage (protectPage touchedMachine.phys (touchedMachine.task 0x18000) 3).2.1
        0x18000 0x40000000 = some m' ∧ Agrees 3 m m' := by
  have hlive : 0x18000 ∈ touchedMachine.live := by decide +kernel
  have hzero : (protectPage touchedMachine.phys (touchedMachine.task 0x18000) 3).1 = 0 := by
    decide +kernel
  have hrange : pageRange 0x40000000 (u32 (0x40000000 + mapLen 4096)) = [0x40000000] := by decide
  have hin : ∀ page, InRange 0x40000000 4096 page → page = 0x40000000 := by
    intro page hpage
    rw [InRange, hrange] at hpage
    exact List.mem_singleton.mp hpage
  obtain ⟨m, hm, hu⟩ : ∃ m, pagingQueryPage touchedMachine.phys 0x18000 0x40000000 = some m ∧
      m.flags.user = true := by
    have hmap : (pagingQueryPage touchedMachine.phys 0x18000 0x40000000).map (·.flags.user) =
        some true := by decide +kernel
    exact Option.map_eq_some_iff.mp hmap
  have hword : (pteAt touchedMachine.phys 0x18000 0x40000000).addr < 4294967296 := by decide +kernel
  obtain ⟨m', hm', hag⟩ := (mprotect_agrees_iff
      (touchedMachine_run.ok smallPhys_booted).own hlive
      (fun page hpage => by rw [hin page hpage]; exact hword)
      (Prod.ext hzero rfl : protectPage touchedMachine.phys (touchedMachine.task 0x18000) 3 =
        (0, _, _))).mpr
    (fun _ page hpage q hq => by
      rw [hin page hpage] at hq
      rw [← Option.some.inj (hm.symm.trans hq)]
      exact hu)
    0x40000000 (by rw [InRange, hrange]; exact List.mem_singleton_self _) m hm
  exact ⟨hzero, m, m', hm, hm', hag⟩

/-- The page is taken away with `PROT_NONE` and asked back with
`PROT_READ | PROT_WRITE`. Both calls return 0, and the page is still out of reach. -/
theorem mprotect_none_is_final :
    (pagingQueryPage touchedMachine.phys 0x18000 0x40000000).map (·.flags.user) = some true ∧
    (protectPage touchedMachine.phys (touchedMachine.task 0x18000) 0).1 = 0 ∧
    (protectPage (protectPage touchedMachine.phys (touchedMachine.task 0x18000) 0).2.1
      (protectPage touchedMachine.phys (touchedMachine.task 0x18000) 0).2.2 3).1 = 0 ∧
    (pagingQueryPage (protectPage (protectPage touchedMachine.phys (touchedMachine.task 0x18000) 0).2.1
      (protectPage touchedMachine.phys (touchedMachine.task 0x18000) 0).2.2 3).2.1
      0x18000 0x40000000).map (·.flags.user) = some false := by
  decide +kernel

end Drunix.Mm
