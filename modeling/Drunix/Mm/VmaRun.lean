import Drunix.Mm.VmaInv

/-!
# Runs of the memory calls of one process

`vma_table_run`: from a fresh process on, after any calls of brk, mmap, munmap and
mprotect with any arguments, the table is sorted and disjoint and `vma_find` finds
the one area around an address, provided every brk that is accepted stays below
the area after the heap (`BrkOk`, which `syscallCaseBrk_sorted_iff` shows to be
exact). `brk_overlaps_mapping` is a run in which it does not.
-/

namespace Drunix.Mm

open Lib

/-- A memory call of the process, or anything else that happens to physical
memory in between. -/
inductive MemOp where
  | brk (newBrk : Nat)
  | mmap (env : MmapEnv) (args : Option OldMmapArgs)
  | mmap2 (env : MmapEnv) (addr length prot flags fd pgoff : Nat)
  | munmap (k : Kmalloc) (addr len : Nat)
  | mprotect (k : Kmalloc) (addr len prot : Nat)
  | other (s : Phys)

/-- One step of the process. -/
def memStep (w : Phys × Proc) : MemOp → Phys × Proc
  | .brk newBrk => (syscallCaseBrk w.1 w.2 newBrk).2
  | .mmap env args => (syscallCaseMmap env w.1 w.2 args).2
  | .mmap2 env addr length prot flags fd pgoff =>
    (syscallCaseMmap2 env w.1 w.2 addr length prot flags fd pgoff).2
  | .munmap k addr len => (syscallCaseMunmap k w.1 w.2 addr len).2
  | .mprotect k addr len prot => (syscallCaseMprotect k w.1 w.2 addr len prot).2
  | .other s => (s, w.2)

/-- Every accepted brk stays below the area after the heap. -/
def MemSafe (w : Phys × Proc) : MemOp → Prop
  | .brk newBrk => BrkOk w.1 w.2 newBrk
  | _ => True

theorem memStep_sorted {w : Phys × Proc} {op : MemOp} (h : VmaSorted w.2.vmas.areas)
    (hok : MemSafe w op) : VmaSorted (memStep w op).2.vmas.areas := by
  cases op with
  | brk newBrk => exact (syscallCaseBrk_sorted_iff h).mpr hok
  | mmap env args =>
    cases args with
    | none => exact h
    | some a => exact mmapRequest_sorted h env _ _ _ _ _ _
  | mmap2 env addr length prot flags fd pgoff => exact mmapRequest_sorted h env _ _ _ _ _ _
  | munmap k addr len => exact syscallCaseMunmap_sorted h k addr len
  | mprotect k addr len prot => exact syscallCaseMprotect_sorted h k addr len prot
  | other s => exact h

/-- The first area of an empty table is alone in it. -/
theorem vmaInsertArea_nil {k : Kmalloc} {t : VmTable} {area : VmArea} (ht : t.areas = []) :
    ∀ v ∈ (vmaInsertArea k t area).2.areas, v = area := by
  unfold vmaInsertArea
  split
  · simp [ht]
  split
  · simp [ht]
  next t' ht' =>
    have hareas := vmaEnsureCapacity_areas ht'
    rw [hareas, ht]
    intro v hv
    exact List.mem_singleton.mp hv

/-- A fresh process has its image, its empty heap and its stack in order. -/
theorem processCreateVmas_sorted {pd imageStart imageEnd : Nat} {p : Proc}
    (h : processCreateVmas pd imageStart imageEnd = some p) : VmaSorted p.vmas.areas := by
  unfold processCreateVmas at h
  dsimp only at h
  -- the table with the image in it
  obtain ⟨t1, ht1⟩ : ∃ t1, (if imageStart < imageEnd
      then vmaAdd { grow := true, rebuild := true } { areas := [], capacity := 16, dynamic := false }
        imageStart imageEnd { read := true, write := true, exec := true, priv := true } .image
      else ((0 : Int), { areas := [], capacity := 16, dynamic := false })) = t1 := ⟨_, rfl⟩
  rw [ht1] at h
  have himage : VmaSorted t1.2.areas ∧ ∀ v ∈ t1.2.areas, v.stop = imageEnd := by
    rw [← ht1]
    split
    · refine ⟨vmaInsertArea_sorted _ _ Extents.nil nofun, fun v hv => ?_⟩
      rw [vmaInsertArea_nil rfl v hv]
    · exact ⟨Extents.nil, by simp⟩
  split at h
  · cases h
  have hheap := vmaInsertArea_sorted { grow := true, rebuild := true }
    { start := imageEnd, stop := imageEnd,
      flags := { read := true, write := true, anon := true, priv := true }, kind := .heap }
    himage.1 fun _ v hv _ _ => Nat.le_of_eq (himage.2 v hv)
  split at h
  · cases h
  split at h
  · cases h
  cases h
  exact vmaInsertArea_sorted _ _ hheap fun _ v _ hv hno =>
    stop_le_of_no_overlap (by decide) hv hno

/-- The VMA table of a process in every state it reaches. -/
theorem vma_table_run (pd imageStart imageEnd : Nat) (p₀ : Proc)
    (hp : processCreateVmas pd imageStart imageEnd = some p₀) (s₀ : Phys) (w : Phys × Proc)
    (hr : Reach memStep MemSafe (s₀, p₀) w) :
    (∀ a ∈ w.2.vmas.areas, a.start ≤ a.stop) ∧
    w.2.vmas.areas.Pairwise (fun a b => a.start ≤ b.start ∧ a.stop ≤ b.start) ∧
    ∀ a ∈ w.2.vmas.areas, ∀ addr, a.start ≤ addr → addr < a.stop → vmaFind w.2.vmas addr = some a := by
  have hs : VmaSorted w.2.vmas.areas :=
    hr.inv (fun w => VmaSorted w.2.vmas.areas) (processCreateVmas_sorted hp)
      fun _ _ h hok => memStep_sorted h hok
  refine ⟨hs.wf, ?_, fun a ha addr hlo hhi => hs.find_eq ha hlo hhi⟩
  refine hs.ordered.imp_of_mem fun {a b} ha _ hab => ⟨?_, hab⟩
  have := hs.wf a ha
  omega

/-! ## brk into a mapping -/

/-- Eight free frames and nothing mapped. -/
def freePhys : Phys where
  pmm := { bitmap := fun _ => 0, refcounts := fun _ => 0, maxPages := 8 }
  mem := fun _ _ => {}
  kernelEnd := 0

/-- No files, and a kernel heap that does not run out. -/
def plainEnv : MmapEnv where
  fd := fun _ => .other
  wmdevMmapPage := fun _ _ _ => none
  kmalloc := ⟨true, true⟩
  kmallocUndo := ⟨true, true⟩

/-- The process with its image at `[imageStart, imageEnd)`. -/
def freshProc (imageStart imageEnd : Nat) : Proc where
  pdPhys := 0x1000
  vmas :=
    { areas :=
        [{ start := imageStart, stop := imageEnd, kind := VmaKind.image,
           flags := { read := true, write := true, exec := true, priv := true } },
         { start := imageEnd, stop := imageEnd, kind := VmaKind.heap,
           flags := { read := true, write := true, anon := true, priv := true } },
         { start := userStackBase, stop := userStackTop, kind := VmaKind.stack,
           flags := { read := true, write := true, anon := true, priv := true, growsdown := true } }]
      capacity := 32
      dynamic := true }
  brk := imageEnd
  rlimitData := 64 * 1024 * 1024
  committedPages := 0
  stackLowLimit := userStackBase

/-- The image ends at `VM_MMAP_MIN`. An anonymous page is hinted at the break, then
the break moved over it. -/
def overlapRun : Phys × Proc :=
  [.mmap2 plainEnv 0x40000000 4096 1 0x22 0 0, .brk 0x40001000].foldl memStep
    (freePhys, freshProc 0x3FFFF000 0x40000000)

/-- The heap and the mapping both contain `0x40000000`. -/
theorem brk_overlaps_mapping :
    processCreateVmas 0x1000 0x3FFFF000 0x40000000 = some (freshProc 0x3FFFF000 0x40000000) ∧
    overlapRun.2.vmas.areas.map (fun a => (a.kind, a.start, a.stop)) =
      [(.image, 0x3FFFF000, 0x40000000), (.heap, 0x40000000, 0x40001000),
       (.generic, 0x40000000, 0x40001000), (.stack, userStackBase, userStackTop)] := by
  refine ⟨by rfl, by decide⟩

/-- An ordinary image, a page mapped, and the heap grown by a page. -/
def ordinaryRun : Phys × Proc :=
  [.mmap2 plainEnv 0 4096 1 0x22 0 0, .brk 0x804A000].foldl memStep
    (freePhys, freshProc 0x8048000 0x8049000)

theorem vma_table_run_ordinary :
    ordinaryRun.2.vmas.areas.Pairwise (fun a b => a.start ≤ b.start ∧ a.stop ≤ b.start) := by
  refine (vma_table_run 0x1000 0x8048000 0x8049000 (freshProc 0x8048000 0x8049000) rfl freePhys
    ordinaryRun ?_).2.1
  refine Reach.step (MemOp.brk 0x804A000)
    (Reach.step (MemOp.mmap2 plainEnv 0 4096 1 0x22 0 0) Reach.start trivial) ?_
  intro heap p' _ _ _ _ _
  decide

end Drunix.Mm
