import Ucore.Mm.Layout
import Ucore.Rb.RbTree

/-!
# Virtual memory areas

Reference model of the VMA bookkeeping of `kern/mm/vmm.c`: `mm_create`, `find_vma`,
`insert_vma_struct`, `remove_vma_struct`, `mm_map`, `mm_unmap` and `mm_brk`.

* A `vma_struct *` is the address of a live object; `vmas` holds the live objects.  `kmalloc`
  returns `NULL` or any address without a live object, as an argument of the call decides.
* `mmap_list` is the list of these addresses; the tree has the addresses as nodes.
* `rb_tree_create` fails or finds arbitrary memory for its nodes, as an argument decides.
* The calls into the page table (`unmap_range`) and into shared memory (`shmem_ref_dec`) are
  returned, in order, as effects.

A failed assertion, or the use of a freed object, is `none`.
-/

namespace Ucore

def VM_READ : UInt32 := 0x00000001

def VM_WRITE : UInt32 := 0x00000002

def VM_SHARE : UInt32 := 0x00000010

/-- If there are at least so many VMAs, the red-black tree is used. -/
def RB_MIN_MAP_COUNT : ℕ := 32

/-- `struct vma_struct`, without its links; `shmem` is a pointer, `0` for `NULL`. -/
structure Vma where
  vmMm : Option ℕ
  vmStart : ℕ
  vmEnd : ℕ
  vmFlags : UInt32
  shmem : ℕ
  shmemOff : ℕ
  deriving DecidableEq, Repr, Inhabited

/-- `struct mm_struct`, as far as the VMAs go; `self` is its address. -/
structure Mm where
  self : ℕ
  mmapList : List ℕ
  mmapTree : Option (RbTree ℕ)
  mmapCache : Option ℕ
  mapCount : ℕ
  vmas : ℕ → Option Vma

/-- Calls that leave the VMA bookkeeping. -/
inductive VmEffect where
  | unmapRange (start stop : ℕ)
  | shmemRefDec (shmem : ℕ)
  deriving DecidableEq, Repr

namespace Mm

/-- `mm_create`; `vmas` are the objects that are live elsewhere. -/
def mmCreate (self : ℕ) (vmas : ℕ → Option Vma) : Mm where
  self := self
  mmapList := []
  mmapTree := none
  mmapCache := none
  mapCount := 0
  vmas := vmas

/-- The object `v`, if it is live. -/
def vma (mm : Mm) (v : ℕ) : Vma := (mm.vmas v).getD default

/-- Store an object. -/
def setVma (mm : Mm) (v : ℕ) (x : Vma) : Mm :=
  { mm with vmas := Function.update mm.vmas v (some x) }

/-- Fuel for the loops over the tree of the VMAs. -/
def treeFuel (mm : Mm) : ℕ := mm.mapCount + 2

/-- `kmalloc` of a `vma_struct`: `NULL`, or the address `a` if no live object has it. -/
def kmalloc (mm : Mm) (a : Option ℕ) : Option ℕ := a.filter fun v => (mm.vmas v).isNone

/-- `vma_create`. -/
def vmaCreate (a : Option ℕ) (vmStart vmEnd : ℕ) (vmFlags : UInt32) (mm : Mm) : Option ℕ × Mm :=
  match mm.kmalloc a with
  | none => (none, mm)
  | some v => (some v, mm.setVma v ⟨none, vmStart, vmEnd, vmFlags, 0, 0⟩)

/-- `vma_destroy`. -/
def vmaDestroy (v : ℕ) (mm : Mm) : Option (List VmEffect × Mm) := do
  let x ← mm.vmas v
  let effects := if x.vmFlags &&& VM_SHARE ≠ 0 then [.shmemRefDec x.shmem] else []
  return (effects, { mm with vmas := Function.update mm.vmas v none })

/-- The loop of `find_vma_rb`: `node` goes down, `vma` is the best so far. -/
def findVmaRb (mm : Mm) (tree : RbTree ℕ) (addr : ℕ) :
    ℕ → Option ℕ → Option ℕ → Option (Option ℕ)
  | _, none, vma => some vma
  | 0, some _, _ => none
  | fuel + 1, some node, vma => do
    let tmp ← mm.vmas node
    if tmp.vmEnd > addr then
      if tmp.vmStart ≤ addr then some (some node)
      else findVmaRb mm tree addr fuel (tree.rbNodeLeft node) (some node)
    else findVmaRb mm tree addr fuel (tree.rbNodeRight node) vma

/-- The list scan of `find_vma`. -/
def findVmaList (mm : Mm) (addr : ℕ) : List ℕ → Option (Option ℕ)
  | [] => some none
  | v :: vs => do
    let x ← mm.vmas v
    if addr < x.vmEnd then some (some v) else findVmaList mm addr vs

/-- `find_vma` on a cache miss. -/
def findVmaMiss (addr : ℕ) (mm : Mm) : Option (Option ℕ) :=
  match mm.mmapTree with
  | some tree => findVmaRb mm tree addr mm.treeFuel tree.rbNodeRoot none
  | none => findVmaList mm addr mm.mmapList

/-- Whether `mmap_cache` is a VMA that contains the address. -/
def cacheHit (addr : ℕ) (mm : Mm) : Option Bool :=
  match mm.mmapCache with
  | none => some false
  | some v => (mm.vmas v).map fun x => decide (x.vmStart ≤ addr ∧ x.vmEnd > addr)

/-- `find_vma`. -/
def findVma (addr : ℕ) (mm : Mm) : Option (Option ℕ × Mm) := do
  let hit ← mm.cacheHit addr
  let vma ← if hit then some mm.mmapCache else mm.findVmaMiss addr
  return (vma, if vma ≠ none then { mm with mmapCache := vma } else mm)

/-- `vma_compare`. -/
def vmaCompare (mm : Mm) (v w : ℕ) : Int :=
  let start1 := (mm.vma v).vmStart
  let start2 := (mm.vma w).vmStart
  if start1 < start2 then -1 else if start1 > start2 then 1 else 0

/-- `insert_vma_rb`, with the VMA before the new one. -/
def insertVmaRb (mm : Mm) (vma : ℕ) (tree : RbTree ℕ) : Option (RbTree ℕ × Option ℕ) := do
  let tree ← tree.rbInsert mm.vmaCompare mm.treeFuel vma
  let prev ← tree.rbNodePrev mm.treeFuel vma
  return (tree, prev)

/-- The list walk of `insert_vma_struct`: the last VMA that does not start behind `start`. -/
def walkPrev (mm : Mm) (start : ℕ) : List ℕ → Option ℕ → Option (Option ℕ)
  | [], prev => some prev
  | v :: vs, prev => do
    let x ← mm.vmas v
    if x.vmStart > start then some prev else walkPrev mm start vs (some v)

/-- `list_next`; `none` is the head of the list. -/
def listNext : List ℕ → Option ℕ → Option ℕ
  | l, none => l.head?
  | [], some _ => none
  | u :: us, some v => if u = v then us.head? else listNext us (some v)

/-- `list_add_after`. -/
def listAddAfter (x : ℕ) : List ℕ → Option ℕ → List ℕ
  | l, none => x :: l
  | [], some _ => []
  | u :: us, some v => if u = v then u :: x :: us else u :: listAddAfter x us (some v)

/-- `check_vma_overlap`: its three assertions. -/
def checkVmaOverlap (prev next : Vma) : Option Unit :=
  guard (prev.vmStart < prev.vmEnd ∧ prev.vmEnd ≤ next.vmStart ∧ next.vmStart < next.vmEnd)

/-- `check_vma_overlap` against a neighbour, if there is one. -/
def checkNeighbour (mm : Mm) (check : Vma → Option Unit) : Option ℕ → Option Unit
  | none => some ()
  | some v => (mm.vmas v).bind check

/-- The end of `insert_vma_struct`: the tree is built when there are enough VMAs. -/
def buildTree (mem : Option (RbTree ℕ)) (mm : Mm) : Option Mm :=
  match mm.mmapTree, mem with
  | none, some mem =>
    if RB_MIN_MAP_COUNT ≤ mm.mapCount then do
      let tree ← mm.mmapList.foldlM (fun tree v => tree.rbInsert mm.vmaCompare mm.treeFuel v)
        (RbTree.rbTreeCreate mem)
      return { mm with mmapTree := some tree }
    else some mm
  | _, _ => some mm

/-- First part of `insert_vma_struct`: the place of the new VMA. -/
def insertPlace (vma : ℕ) (x : Vma) (mm : Mm) : Option (Option ℕ × Mm) :=
  match mm.mmapTree with
  | some tree => do
    let (tree, prev) ← mm.insertVmaRb vma tree
    return (prev, { mm with mmapTree := some tree })
  | none => do
    let prev ← mm.walkPrev x.vmStart mm.mmapList none
    return (prev, mm)

/-- `insert_vma_struct`. -/
def insertVmaStruct (mem : Option (RbTree ℕ)) (vma : ℕ) (mm : Mm) : Option Mm := do
  let x ← mm.vmas vma
  guard (x.vmStart < x.vmEnd)
  let (prev, mm) ← mm.insertPlace vma x
  let next := listNext mm.mmapList prev
  mm.checkNeighbour (fun p => checkVmaOverlap p x) prev
  mm.checkNeighbour (fun n => checkVmaOverlap x n) next
  let mm := mm.setVma vma { x with vmMm := some mm.self }
  buildTree mem
    { mm with mmapList := listAddAfter vma mm.mmapList prev, mapCount := mm.mapCount + 1 }

/-- The tree without the VMA, if there is a tree. -/
def deleteVmaRb (vma : ℕ) (mm : Mm) : Option (Option (RbTree ℕ)) :=
  match mm.mmapTree with
  | some tree => (tree.rbDelete mm.treeFuel (.node vma)).map some
  | none => some none

/-- `remove_vma_struct`. -/
def removeVmaStruct (vma : ℕ) (mm : Mm) : Option Mm := do
  let x ← mm.vmas vma
  guard (x.vmMm = some mm.self)
  let tree ← mm.deleteVmaRb vma
  return { mm with
    mmapTree := tree
    mmapList := mm.mmapList.erase vma
    mmapCache := if mm.mmapCache = some vma then none else mm.mmapCache
    mapCount := mm.mapCount - 1 }

/-- `vma_create` and, if it succeeds, `insert_vma_struct`. -/
def createInsert (start stop : ℕ) (vmFlags : UInt32) (a : Option ℕ)
    (mem : ℕ → Option (RbTree ℕ)) (mm : Mm) : Option (Option ℕ × Mm) :=
  match mm.vmaCreate a start stop vmFlags with
  | (none, mm) => some (none, mm)
  | (some v, mm) => do
    let mm ← mm.insertVmaStruct (mem v) v
    return (some v, mm)

/-- `vma != NULL && end > vma->vm_start`. -/
def startsBelow (stop : ℕ) (mm : Mm) : Option ℕ → Option Bool
  | none => some false
  | some v => (mm.vmas v).map fun x => decide (stop > x.vmStart)

/-- `mm_map`; the result has the return value and `*vma_store`. -/
def mmMap (addr len : ℕ) (vmFlags : UInt32) (a : Option ℕ) (mem : ℕ → Option (RbTree ℕ))
    (mm : Mm) : Option (Int × Option ℕ × Mm) :=
  let start := rounddown addr
  let stop := roundup (wadd addr len)
  if ¬ USER_ACCESS start stop then some (-E_INVAL, none, mm)
  else do
    let (vma, mm) ← mm.findVma start
    let overlap ← mm.startsBelow stop vma
    if overlap then some (-E_INVAL, none, mm)
    else do
      let (vma, mm) ← mm.createInsert start stop (vmFlags &&& ~~~VM_SHARE) a mem
      return (if vma = none then -E_NO_MEM else 0, vma, mm)

/-- `vma_resize`. -/
def vmaResize (v start stop : ℕ) (mm : Mm) : Option Mm := do
  let x ← mm.vmas v
  guard (start % PGSIZE = 0 ∧ stop % PGSIZE = 0)
  guard (x.vmStart ≤ start ∧ start < stop ∧ stop ≤ x.vmEnd)
  let shmemOff :=
    if x.vmFlags &&& VM_SHARE ≠ 0 then wadd x.shmemOff (start - x.vmStart) else x.shmemOff
  return mm.setVma v { x with vmStart := start, vmEnd := stop, shmemOff := shmemOff }

/-- First loop of `mm_unmap`: the VMAs that begin before `stop` move to `free_list`. -/
def collect (stop : ℕ) : ℕ → ℕ → List ℕ → Mm → Option (List ℕ × Mm)
  | 0, _, _, _ => none
  | fuel + 1, vma, free, mm => do
    let x ← mm.vmas vma
    if x.vmStart < stop then
      let le := listNext mm.mmapList (some vma)
      let mm ← mm.removeVmaStruct vma
      match le with
      | none => some (vma :: free, mm)
      | some next => collect stop fuel next (vma :: free) mm
    else some (free, mm)

/-- Body of the second loop of `mm_unmap`: the part outside the range goes back. -/
def release (start stop : ℕ) (mem : ℕ → Option (RbTree ℕ)) (v : ℕ) (mm : Mm) :
    Option (List VmEffect × Mm) := do
  let x ← mm.vmas v
  if x.vmStart < start then
    let mm ← mm.vmaResize v x.vmStart start
    let mm ← mm.insertVmaStruct (mem v) v
    return ([.unmapRange start x.vmEnd], mm)
  else if stop < x.vmEnd then
    let mm ← mm.vmaResize v stop x.vmEnd
    let mm ← mm.insertVmaStruct (mem v) v
    return ([.unmapRange x.vmStart stop], mm)
  else
    let (effects, mm) ← mm.vmaDestroy v
    return (effects ++ [.unmapRange x.vmStart x.vmEnd], mm)

/-- Second loop of `mm_unmap`. -/
def releaseAll (start stop : ℕ) (mem : ℕ → Option (RbTree ℕ)) :
    List ℕ → Mm → Option (List VmEffect × Mm)
  | [], mm => some ([], mm)
  | v :: vs, mm => do
    let (effects, mm) ← mm.release start stop mem v
    let (rest, mm) ← releaseAll start stop mem vs mm
    return (effects ++ rest, mm)

/-- `mm_unmap` of a range that meets `vma`, when the range is strictly inside: the VMA is split. -/
def unmapSplit (start stop : ℕ) (a : Option ℕ) (mem : ℕ → Option (RbTree ℕ)) (v : ℕ) (x : Vma)
    (mm : Mm) : Option (Int × List VmEffect × Mm) :=
  match mm.vmaCreate a x.vmStart start x.vmFlags with
  | (none, mm) => some (-E_NO_MEM, [], mm)
  | (some nvma, mm) => do
    let mm ← mm.vmaResize v stop x.vmEnd
    let mm ← mm.insertVmaStruct (mem nvma) nvma
    return (0, [.unmapRange start stop], mm)

/-- `mm_unmap` of a range that meets `vma`. -/
def unmapVma (start stop : ℕ) (a : Option ℕ) (mem : ℕ → Option (RbTree ℕ)) (v : ℕ) (mm : Mm) :
    Option (Int × List VmEffect × Mm) := do
  let x ← mm.vmas v
  if x.vmStart < start ∧ stop < x.vmEnd then mm.unmapSplit start stop a mem v x
  else do
    let (free, mm) ← collect stop (mm.mmapList.length + 1) v [] mm
    let (effects, mm) ← mm.releaseAll start stop mem free
    return (0, effects, mm)

/-- `mm_unmap`; `a` decides the allocation of a split, `mem v` that of a tree built when `v` is
inserted. -/
def mmUnmap (addr len : ℕ) (a : Option ℕ) (mem : ℕ → Option (RbTree ℕ)) (mm : Mm) :
    Option (Int × List VmEffect × Mm) :=
  let start := rounddown addr
  let stop := roundup (wadd addr len)
  if ¬ USER_ACCESS start stop then some (-E_INVAL, [], mm)
  else do
    let (vma, mm) ← mm.findVma start
    let meets ← mm.startsBelow stop vma
    match vma with
    | some v => if meets then mm.unmapVma start stop a mem v else some (0, [], mm)
    | none => some (0, [], mm)

/-- `mm_brk` makes a new VMA. -/
def brkCreate (start stop : ℕ) (a : Option ℕ) (mem : ℕ → Option (RbTree ℕ)) (mm : Mm) :
    Option (Int × Mm) := do
  let (vma, mm) ← mm.createInsert start stop (VM_READ ||| VM_WRITE) a mem
  return (if vma = none then -E_NO_MEM else 0, mm)

/-- The end of `mm_brk`: the VMA that ends at `start` grows, or a new one is made. -/
def brkExtend (start stop : ℕ) (a : Option ℕ) (mem : ℕ → Option (RbTree ℕ)) (mm : Mm) :
    Option (Int × Mm) := do
  let (vma, mm) ← mm.findVma (start - 1)
  match vma with
  | none => mm.brkCreate start stop a mem
  | some v => do
    let x ← mm.vmas v
    if x.vmEnd = start ∧ x.vmFlags = VM_READ ||| VM_WRITE then
      some (0, mm.setVma v { x with vmEnd := stop })
    else mm.brkCreate start stop a mem

/-- `mm_brk`; `a` decides the allocation of its `mm_unmap`, `b` its own. -/
def mmBrk (addr len : ℕ) (a b : Option ℕ) (mem : ℕ → Option (RbTree ℕ)) (mm : Mm) :
    Option (Int × List VmEffect × Mm) :=
  let start := rounddown addr
  let stop := roundup (wadd addr len)
  if ¬ USER_ACCESS start stop then some (-E_INVAL, [], mm)
  else do
    let (ret, effects, mm) ← mm.mmUnmap start (stop - start) a mem
    if ret ≠ 0 then some (ret, effects, mm)
    else do
      let (ret, mm) ← mm.brkExtend start stop b mem
      return (ret, effects, mm)

end Mm

end Ucore
