import Ucore.Fork.Objects
import Ucore.Mm.Pmm
import Ucore.Proc.Table

/-!
# `do_fork`

Reference model of `do_fork` and `copy_mm` (`kern/process/proc.c`) with `dup_mmap`, `exit_mmap` and
`mm_destroy` (`kern/mm/vmm.c`), over the process table, the kernel objects and the page tables.

Every allocation fails or succeeds as an `Oracle` decides; nothing else happens when it fails.  The page
directory of an address space is under the address of its `mm_struct`.  What `copy_thread` writes to the
kernel stack is left out.
-/

namespace Ucore

def E_NO_FREE_PROC : Int := 5

def KSTACKPAGE : ℕ := 2

namespace Sys

variable (s : Sys)

/-- `alloc_pages`. -/
def allocPages (env : Env) (r : Option ℕ) (n : ℕ) : Option ℕ × Sys :=
  match r.filter fun f => decide (∀ i < n, s.free (f + i) = true) with
  | none => (none, s)
  | some f =>
    (some f, { s with
      free := fun g => if f ≤ g ∧ g < f + n then false else s.free g
      data := fun g => if f ≤ g ∧ g < f + n then env.junk g else s.data g })

/-- `free_pages`. -/
def freePages (f : ℕ) : ℕ → Sys
  | 0 => s
  | n + 1 => (freePages f n).freePage (f + n)

/-- `setup_pgdir`: the new directory has no page tables for user addresses. -/
def setupPgdir (env : Env) (r : Option ℕ) (mm : ℕ) : Option ℕ × Sys :=
  match s.allocPages env r 1 with
  | (none, s) => (none, s)
  | (some f, s) =>
    (some f, { s with
      pde := Function.update s.pde mm fun _ => none
      pte := fun x =>
        match x with
        | .user m _ => if m = mm then .zero else s.pte x
        | .shm _ _ => s.pte x })

end Sys

namespace Fork

open Process (Table MAX_PROCESS)

/-- Outcomes of the allocations of one call. -/
structure Oracle where
  kmalloc : Site → Option ℕ
  kstack : Option ℕ
  pgdir : Option ℕ
  env : Env
  /-- the memory of a red-black tree that is built when the copy of a VMA is inserted -/
  rbMem : ℕ → RbTree ℕ

/-- The state of the kernel, as far as `do_fork` goes. -/
structure Kernel where
  table : Table
  kobj : Heap
  mem : Sys
  procMmList : List ℕ

namespace Heap

variable (h : Heap) (o : Oracle)

/-! ## VMAs -/

/-- `rb_tree_create`: the objects of the tree. -/
def rbTreeCreate (v : ℕ) : Option (Option (ℕ × ℕ × ℕ) × Heap) :=
  match h.kmalloc (o.kmalloc (.rbTree v)) fun _ => ⟨0, .rbTree⟩ with
  | (none, h) => some (none, h)
  | (some tree, h) =>
    match h.kmalloc (o.kmalloc (.rbNil v)) fun _ => ⟨0, .rbNode⟩ with
    | (none, h) => (h.kfree tree).map fun h => (none, h)
    | (some nil, h) =>
      match h.kmalloc (o.kmalloc (.rbRoot v)) fun _ => ⟨0, .rbNode⟩ with
      | (none, h) => do
        let h ← h.kfree nil
        let h ← h.kfree tree
        return (none, h)
      | (some root, h) => some (some (tree, nil, root), h)

/-- `rb_tree_destroy`, if there is a tree. -/
def rbTreeDestroy : Option (ℕ × ℕ × ℕ) → Option Heap
  | none => some h
  | some (tree, nil, root) => do
    let h ← h.kfree root
    let h ← h.kfree nil
    h.kfree tree

/-- The part of `insert_vma_struct` that allocates: a tree, when there are enough VMAs for one. -/
def growTree (v : ℕ) (dst : MmStruct) : Option (Option (ℕ × ℕ × ℕ) × Heap) :=
  if dst.vm.mmapTree.isNone ∧ RB_MIN_MAP_COUNT ≤ dst.vm.mapCount + 1 then h.rbTreeCreate o v
  else some (none, h)

/-- `insert_vma_struct` of the copy `n` of the VMA `v`. -/
def insertVmaStruct (v n : ℕ) (dst : MmStruct) : Option (MmStruct × Heap) := do
  let (tree, h) ← h.growTree o v dst
  let vm ← dst.vm.insertVmaStruct (tree.map fun _ => o.rbMem v) n
  return ({ dst with vm := vm, tree := tree.or dst.tree }, h)

/-- `dup_mmap` between `vma_create` and `insert_vma_struct`. -/
def dupShare (x y : Vma) : Option (Vma × Heap) :=
  if x.vmFlags &&& VM_SHARE ≠ 0 then
    (h.add x.shmem aRef).map fun r => ({ y with shmem := x.shmem, shmemOff := x.shmemOff }, r.2)
  else some (y, h)

/-- `dup_mmap` for the VMA `v`, up to `copy_range`; no address space is a failed `vma_create`. -/
def dupVma (v : ℕ) (x : Vma) (dst : MmStruct) : Option (Option MmStruct × Heap) :=
  match h.kmalloc (o.kmalloc (.vma v)) fun _ => ⟨0, .vma⟩ with
  | (none, h) => some (none, h)
  | (some n, h) => do
    let (y, h) ← h.dupShare x ⟨none, x.vmStart, x.vmEnd, x.vmFlags, 0, 0⟩
    let (dst, h) ← h.insertVmaStruct o v n { dst with vm := dst.vm.setVma n y }
    return (some dst, h)

/-- `shmem_ref_dec` and, for the last reference, `shmem_destroy`, without the pages of the object. -/
def shmemPut (shmem : ℕ) : Option Heap := do
  let (x, h) ← h.add shmem (-aRef)
  if x.count = 0 then h.kfree shmem else some h

/-- `vma_destroy`. -/
def vmaDestroy (v : ℕ) (x : Vma) : Option Heap := do
  let h ← if x.vmFlags &&& VM_SHARE ≠ 0 then h.shmemPut x.shmem else some h
  h.kfree v

/-- The loop of `mm_destroy`. -/
def mmDestroyLoop (vm : Mm) : List ℕ → Heap → Option Heap
  | [], h => some h
  | v :: vs, h => do
    let x ← vm.vmas v
    let h ← h.vmaDestroy v x
    mmDestroyLoop vm vs h

/-! ## Address spaces -/

/-- The structure at `mm`. -/
def mmAt (mm : ℕ) : Option MmStruct :=
  match h mm with
  | some ⟨_, .mm x⟩ => some x
  | _ => none

/-- `mm_create`. -/
def mmCreate : Option ℕ × Heap :=
  h.kmalloc (o.kmalloc .mm) fun a => ⟨anUp, .mm ⟨Mm.mmCreate a fun _ => none, none, none, 0, 0⟩⟩

/-- `mm_destroy`. -/
def mmDestroy (mm : ℕ) : Option Heap := do
  let x ← h mm
  guard (x.count = 0)
  let y ← h.mmAt mm
  let h ← h.rbTreeDestroy y.tree
  let h ← mmDestroyLoop y.vm y.vm.mmapList h
  h.kfree mm

end Heap

/-- The loop of `dup_mmap` over the VMAs of `src`, from the last to the first. -/
def dupMmapLoop (o : Oracle) (mm src : ℕ) (vm : Mm) :
    List ℕ → MmStruct → Heap → Sys → Option (Int × MmStruct × Heap × Sys)
  | [], dst, h, s => some (0, dst, h, s)
  | v :: vs, dst, h, s => do
    let x ← vm.vmas v
    let (r, h) ← h.dupVma o v x dst
    match r with
    | none => some (-E_NO_MEM, dst, h, s)
    | some dst => do
      let (ret, s) ← s.copyRange o.env mm src x.vmStart x.vmEnd (decide (x.vmFlags &&& VM_SHARE ≠ 0))
      if ret ≠ 0 then some (-E_NO_MEM, dst, h, s) else dupMmapLoop o mm src vm vs dst h s

/-- `dup_mmap`. -/
def dupMmap (o : Oracle) (mm src : ℕ) (h : Heap) (s : Sys) : Option (Int × Heap × Sys) := do
  let dst ← h.mmAt mm
  let y ← h.mmAt src
  let (ret, dst, h, s) ← dupMmapLoop o mm src y.vm y.vm.mmapList.reverse dst h s
  let h ← h.setBody mm (.mm dst)
  return (ret, h, s)

/-- A loop of `exit_mmap`. -/
def eachVma (vm : Mm) (f : ℕ → ℕ → Sys → Option Sys) : List ℕ → Sys → Option Sys
  | [], s => some s
  | v :: vs, s => do
    let x ← vm.vmas v
    let s ← f x.vmStart x.vmEnd s
    eachVma vm f vs s

/-- `exit_mmap`. -/
def exitMmap (mm : ℕ) (h : Heap) (s : Sys) : Option Sys := do
  let x ← h mm
  guard (x.count = 0)
  let y ← h.mmAt mm
  let s ← eachVma y.vm (fun start stop s => s.unmapRange mm start stop) y.vm.mmapList s
  eachVma y.vm (fun start stop s => s.exitRange mm start stop) y.vm.mmapList s

/-- `put_pgdir`. -/
def putPgdir (mm : ℕ) (h : Heap) (s : Sys) : Option Sys := do
  let y ← h.mmAt mm
  let f ← y.pgdir
  return s.freePage f

/-- `copy_mm` between `lock_mm` and `unlock_mm`, and the cleanup when `dup_mmap` fails. -/
def copyMmap (o : Oracle) (mm oldmm : ℕ) (h : Heap) (s : Sys) : Option (Int × Heap × Sys) := do
  let h ← h.down oldmm
  let (ret, h, s) ← dupMmap o mm oldmm h s
  let h ← h.up oldmm
  if ret ≠ 0 then do
    let s ← exitMmap mm h s
    let s ← putPgdir mm h s
    let h ← h.mmDestroy mm
    return (ret, h, s)
  else return (0, h, s)

namespace Kernel

variable (k : Kernel) (o : Oracle)

/-- `copy_mm` from `good_mm` on, for a new `mm`. -/
def goodMm (mm oldmm : ℕ) : Option Kernel := do
  let x ← k.kobj.mmAt mm
  let y ← k.kobj.mmAt oldmm
  let h ← k.kobj.setBody mm (.mm { x with brkStart := y.brkStart, brk := y.brk })
  let (_, h) ← h.add mm aRef
  return { k with kobj := h, procMmList := mm :: k.procMmList }

/-- `copy_mm`: the return value, `proc->mm`, and the state. -/
def copyMm (cloneFlags : UInt32) (old : Option ℕ) : Option (Int × Option ℕ × Kernel) :=
  match old with
  | none => some (0, none, k)
  | some oldmm =>
    if cloneFlags &&& CLONE_VM ≠ 0 then
      (k.kobj.add oldmm aRef).map fun y => (0, some oldmm, { k with kobj := y.2 })
    else
      match k.kobj.mmCreate o with
      | (none, h) => some (-E_NO_MEM, none, { k with kobj := h })
      | (some mm, h) =>
        match k.mem.setupPgdir o.env o.pgdir mm with
        | (none, s) => do
          let h ← h.mmDestroy mm
          return (-E_NO_MEM, none, { k with kobj := h, mem := s })
        | (some f, s) => do
          let x ← h.mmAt mm
          let h ← h.setBody mm (.mm { x with pgdir := some f })
          let (ret, h, s) ← copyMmap o mm oldmm h s
          let k := { k with kobj := h, mem := s }
          if ret ≠ 0 then return (ret, none, k)
          else do
            let k ← k.goodMm mm oldmm
            return (0, some mm, k)

/-- `bad_fork_cleanup_proc`. -/
def cleanupProc (p c : ℕ) : Option (Int × Kernel) := do
  let h ← k.kobj.kfree c
  let t ← k.table.forkFail p c
  return (-E_NO_MEM, { k with kobj := h, table := t })

/-- `bad_fork_cleanup_kstack`. -/
def cleanupKstack (p c kstack : ℕ) : Option (Int × Kernel) :=
  cleanupProc { k with mem := k.mem.freePages kstack KSTACKPAGE } p c

/-- `bad_fork_cleanup_sem`. -/
def cleanupSem (p c kstack : ℕ) (semQueue : Option ℕ) : Option (Int × Kernel) := do
  let h ← k.kobj.putSemQueue semQueue
  cleanupKstack { k with kobj := h } p c kstack

/-- `bad_fork_cleanup_fs`. -/
def cleanupFs (p c kstack : ℕ) (semQueue fsStruct : Option ℕ) : Option (Int × Kernel) := do
  let h ← k.kobj.putFs fsStruct
  cleanupSem { k with kobj := h } p c kstack semQueue

/-- The fields of `current` that are not in the process table. -/
def current (p : ℕ) : Option Resources :=
  match k.kobj p with
  | some ⟨_, .proc x⟩ => some x
  | _ => none

/-- `do_fork` from `copy_sem` on, for the parent's `x`. -/
def forkCopy (p c kstack : ℕ) (cloneFlags : UInt32) (x : Resources) : Option (Int × Kernel) := do
  let (ret, semQueue, h) ← k.kobj.copySem o.kmalloc cloneFlags x.semQueue
  let k := { k with kobj := h }
  if ret ≠ 0 then k.cleanupKstack p c kstack
  else do
    let (ret, fsStruct, h) ← k.kobj.copyFs o.kmalloc cloneFlags x.fsStruct
    let k := { k with kobj := h }
    if ret ≠ 0 then k.cleanupSem p c kstack semQueue
    else do
      let (ret, mm, k) ← k.copyMm o cloneFlags x.mm
      if ret ≠ 0 then k.cleanupFs p c kstack semQueue fsStruct
      else do
        let t ← k.table.forkEnd p c cloneFlags
        let h ← k.kobj.setBody c (.proc ⟨kstack, semQueue, fsStruct, mm, x.timeSlice / 2⟩)
        return (t.pid c, { k with table := t, kobj := h })

/-- `do_fork` of the process `p`: the return value and the state. -/
def doFork (p : ℕ) (cloneFlags : UInt32) : Option (Int × Kernel) :=
  if k.table.nrProcess ≥ MAX_PROCESS then some (-E_NO_FREE_PROC, k)
  else
    match k.kobj.kmalloc (o.kmalloc .proc) fun _ => ⟨0, .proc ⟨0, none, none, none, 0⟩⟩ with
    | (none, h) => some (-E_NO_MEM, { k with kobj := h })
    | (some c, h) => do
      let x ← k.current p
      let t ← k.table.forkBegin p c
      guard (0 ≤ x.timeSlice)
      let h ← h.setBody p (.proc { x with timeSlice := x.timeSlice - x.timeSlice / 2 })
      match k.mem.allocPages o.env o.kstack KSTACKPAGE with
      | (none, s) => cleanupProc { k with table := t, kobj := h, mem := s } p c
      | (some kstack, s) =>
        forkCopy { k with table := t, kobj := h, mem := s } o p c kstack cloneFlags x

end Kernel

end Fork

end Ucore
