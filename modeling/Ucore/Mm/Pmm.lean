import Ucore.Mm.Swap
import Ucore.Mm.Vmm

/-!
# Page tables, page faults and swapping out

Reference model of the page table functions of `kern/mm/pmm.c`, of the entries of shared memory
objects (`kern/mm/shmem.c`), of `do_pgfault` (`kern/mm/vmm.c`) and of `swap_out_vma`
(`kern/mm/swap.c`).  The invalidation of the TLB and the locks are left out.
-/

namespace Ucore

/-- Bytes mapped by one page table. -/
def PTSIZE : ℕ := PGSIZE * 1024

def VM_EXEC : UInt32 := 0x00000004

def VM_STACK : UInt32 := 0x00000008

namespace Sys

variable (s : Sys)

/-- `*ptep = e`. -/
def setPte (x : Loc) (e : Pte) : Sys := { s with pte := Function.update s.pte x e }

/-- The entry of the address `la`. -/
def ptep (mm la : ℕ) : Loc := .user mm (la / PGSIZE)

/-- A new, empty page table in the frame `f`. -/
def addTable (mm idx f : ℕ) : Sys :=
  { s.setPageRef f 1 with
    pde := Function.update s.pde mm (Function.update (s.pde mm) idx (some f))
    pte := fun x =>
      match x with
      | .user m vpn => if m = mm ∧ vpn / 1024 = idx then .zero else s.pte x
      | .shm _ _ => s.pte x }

/-- `get_pte`; the result tells whether the entry exists. -/
def getPte (env : Env) (mm la : ℕ) (create : Bool) : Bool × Sys :=
  match s.pde mm (la / PTSIZE) with
  | some _ => (true, s)
  | none =>
    if create then
      match s.allocPage env (.table la) with
      | (none, s) => (false, s)
      | (some f, s) => (true, s.addTable mm (la / PTSIZE) f)
    else (false, s)

/-- `page_remove_pte`, and likewise `shmem_remove_entry_pte`. -/
def pageRemovePte (x : Loc) : Option Sys :=
  match s.pte x with
  | .page f perm =>
    if ¬ s.pageSwap f then
      let s := s.pageRefDec f
      let s := if s.pageRef f = 0 then s.freePage f else s
      some (s.setPte x .zero)
    else
      let s := if perm.d then s.setPageDirty f true else s
      let s := s.pageRefDec f
      some (s.setPte x .zero)
  | .swap o => (s.swapRemoveEntry o).map fun s => s.setPte x .zero
  | .zero => some s

/-- `page_remove`. -/
def pageRemove (mm la : ℕ) : Option Sys :=
  match s.pde mm (la / PTSIZE) with
  | some _ => s.pageRemovePte (ptep mm la)
  | none => some s

/-- `page_insert` once the entry exists. -/
def insertPte (x : Loc) (f : ℕ) (perm : Perm) : Option Sys :=
  let s := s.pageRefInc f
  match s.pte x with
  | .zero => some (s.setPte x (.page f perm))
  | .page g _ =>
    if g = f then some ((s.pageRefDec f).setPte x (.page f perm))
    else (s.pageRemovePte x).map fun s => s.setPte x (.page f perm)
  | .swap _ => (s.pageRemovePte x).map fun s => s.setPte x (.page f perm)

/-- `page_insert`. -/
def pageInsert (env : Env) (mm f la : ℕ) (perm : Perm) : Option (Int × Sys) :=
  match s.getPte env mm la true with
  | (false, s) => some (-E_NO_MEM, s)
  | (true, s) => (s.insertPte (ptep mm la) f perm).map fun s => (0, s)

/-- `pgdir_alloc_page`; the result tells whether it succeeded. -/
def pgdirAllocPage (env : Env) (mm la : ℕ) (perm : Perm) : Option (Bool × Sys) :=
  match s.allocPage env .newpage with
  | (none, s) => some (false, s)
  | (some f, s) => do
    let (ret, s) ← s.pageInsert env mm f la perm
    if ret ≠ 0 then return (false, s.freePage f) else return (true, s)

/-! ## Ranges -/

/-- `ROUNDDOWN(start + PTSIZE, PTSIZE)`: the first address of the next page table. -/
def nextTable (start : ℕ) : ℕ := (start + PTSIZE) / PTSIZE * PTSIZE

theorem lt_nextTable (start : ℕ) : start < nextTable start := by
  unfold nextTable PTSIZE PGSIZE
  omega

/-- The loop of `unmap_range`. -/
def unmapLoop (mm stop start : ℕ) (s : Sys) : Option Sys :=
  match s.pde mm (start / PTSIZE) with
  | none =>
    if nextTable start ≠ 0 ∧ nextTable start < stop then unmapLoop mm stop (nextTable start) s
    else some s
  | some _ => do
    let s ← s.pageRemovePte (ptep mm start)
    if start + PGSIZE ≠ 0 ∧ start + PGSIZE < stop then unmapLoop mm stop (start + PGSIZE) s
    else some s
termination_by stop - start
decreasing_by
  · have hlt := lt_nextTable start
    omega
  · have hpos : 0 < PGSIZE := by decide
    omega

/-- `unmap_range`. -/
def unmapRange (mm start stop : ℕ) : Option Sys := do
  guard (start % PGSIZE = 0 ∧ stop % PGSIZE = 0)
  guard (USER_ACCESS start stop)
  unmapLoop mm stop start s

/-- `copy_range` takes the right to write from the source of a private page. -/
def copyProtect (env : Env) (src f la : ℕ) (share : Bool) (perm : Perm) : Option Sys :=
  if ! share && perm.w then (s.pageInsert env src f la { perm with w := false }).map Prod.snd
  else some s

/-- `copy_range` for one entry, which is not zero. -/
def copyPte (env : Env) (dst src la : ℕ) (share : Bool) : Option Sys :=
  match s.pte (ptep src la) with
  | .zero => none
  | .swap o => (s.swapDuplicate o).map fun s => s.setPte (ptep dst la) (.swap o)
  | .page f perm => do
    let s ← s.copyProtect env src f la share perm
    let (ret, s) ← s.pageInsert env dst f la
      { u := perm.u, w := perm.w && share, a := false, d := false }
    guard (ret = 0)
    return s

/-- Body of the loop of `copy_range`, for an entry that exists. -/
def copyPage (env : Env) (dst src la : ℕ) (share : Bool) : Option (Int × Sys) :=
  if s.pte (ptep src la) = .zero then some (0, s)
  else
    match s.getPte env dst la true with
    | (false, s) => some (-E_NO_MEM, s)
    | (true, s) =>
      if s.pte (ptep src la) ≠ .zero ∧ s.pte (ptep dst la) = .zero then
        (s.copyPte env dst src la share).map fun s => (0, s)
      else none

/-- The loop of `copy_range`. -/
def copyLoop (env : Env) (dst src : ℕ) (share : Bool) (stop start : ℕ) (s : Sys) :
    Option (Int × Sys) :=
  match s.pde src (start / PTSIZE) with
  | none =>
    if nextTable start ≠ 0 ∧ nextTable start < stop then
      copyLoop env dst src share stop (nextTable start) s
    else some (0, s)
  | some _ => do
    let (ret, s) ← s.copyPage env dst src start share
    if ret ≠ 0 then some (ret, s)
    else if start + PGSIZE ≠ 0 ∧ start + PGSIZE < stop then
      copyLoop env dst src share stop (start + PGSIZE) s
    else some (0, s)
termination_by stop - start
decreasing_by
  · have hlt := lt_nextTable start
    omega
  · have hpos : 0 < PGSIZE := by decide
    omega

/-- `copy_range`. -/
def copyRange (env : Env) (dst src start stop : ℕ) (share : Bool) : Option (Int × Sys) := do
  guard (start % PGSIZE = 0 ∧ stop % PGSIZE = 0)
  guard (USER_ACCESS start stop)
  copyLoop env dst src share stop start s

/-- The body of the loop of `exit_range`: the page table at one place of the directory is freed. -/
def exitTable (mm idx : ℕ) : Sys :=
  match s.pde mm idx with
  | none => s
  | some f =>
    { s.freePage f with pde := Function.update s.pde mm (Function.update (s.pde mm) idx none) }

/-- The loop of `exit_range`. -/
def exitLoop (mm stop start : ℕ) (s : Sys) : Sys :=
  let s := s.exitTable mm (start / PTSIZE)
  if start + PTSIZE ≠ 0 ∧ start + PTSIZE < stop then exitLoop mm stop (start + PTSIZE) s else s
termination_by stop - start
decreasing_by
  have hpos : 0 < PTSIZE := by decide
  omega

/-- `exit_range`. -/
def exitRange (mm start stop : ℕ) : Option Sys := do
  guard (start % PGSIZE = 0 ∧ stop % PGSIZE = 0)
  guard (USER_ACCESS start stop)
  return exitLoop mm stop (start / PTSIZE * PTSIZE) s

/-! ## Shared memory objects -/

/-- A new, empty node of a shared memory object in the frame `f`. -/
def addShmn (shmem idx f : ℕ) : Sys :=
  { s with
    shmn := Function.update s.shmn shmem (Function.update (s.shmn shmem) idx (some f))
    pte := fun x =>
      match x with
      | .user _ _ => s.pte x
      | .shm h i => if h = shmem ∧ i / 1024 = idx then .zero else s.pte x }

/-- `shmem_get_entry` on an existing node: a missing page is allocated if wanted. -/
def shmemEntryPage (env : Env) (shmem idx : ℕ) (create : Bool) : Sys :=
  if s.pte (.shm shmem idx) = .zero ∧ create then
    match s.allocPage env .shmPage with
    | (none, s) => s
    | (some f, s) =>
      (s.setPte (.shm shmem idx) (.page f ⟨false, false, false, false⟩)).pageRefInc f
  else s

/-- `shmem_get_entry`; the result is the place of the entry, if there is one. -/
def shmemGetEntry (env : Env) (shmem addr : ℕ) (create : Bool) : Option (Option Loc × Sys) :=
  if addr < s.shmLen shmem then
    let idx := addr / PGSIZE
    match s.shmn shmem (idx / 1024) with
    | some _ => some (some (.shm shmem idx), s.shmemEntryPage env shmem idx create)
    | none =>
      if create then
        match s.allocPage env .shmn with
        | (none, s) => some (none, s)
        | (some f, s) =>
          some (some (.shm shmem idx), (s.addShmn shmem (idx / 1024) f).shmemEntryPage env shmem idx
            create)
      else some (none, s)
  else none

/-- `shmem_insert_entry` of a swap entry. -/
def shmemInsertSwap (env : Env) (shmem addr o : ℕ) : Option Sys := do
  let (x, s) ← s.shmemGetEntry env shmem addr true
  match x with
  | none => some s
  | some x => do
    let s ← s.pageRemovePte x
    let s ← s.swapDuplicate o
    return s.setPte x (.swap o)

/-! ## Page faults -/

/-- The checks at the beginning of `do_pgfault`, for the result `vma` of `find_vma`. -/
def pgfaultAllowed (vma : Vma) (errorCode addr : ℕ) : Bool :=
  decide (vma.vmStart ≤ addr) &&
  ! (decide (vma.vmFlags &&& VM_STACK ≠ 0) && decide (addr < vma.vmStart + PGSIZE)) &&
  match errorCode % 4 with
  | 0 => decide (vma.vmFlags &&& (VM_READ ||| VM_EXEC) ≠ 0)
  | 1 => false
  | _ => decide (vma.vmFlags &&& VM_WRITE ≠ 0)

/-- `do_pgfault` on an empty entry of a shared VMA. -/
def pgfaultShared (env : Env) (mm : ℕ) (vma : Vma) (la : ℕ) (perm : Perm) :
    Option (Int × Sys) := do
  let (x, s) ← s.shmemGetEntry env vma.shmem (la - vma.vmStart + vma.shmemOff) true
  match x with
  | none => some (-E_NO_MEM, s)
  | some x =>
    match s.pte x with
    | .zero => some (-E_NO_MEM, s)
    | .page f _ => (s.pageInsert env mm f la perm).map fun r => (0, r.2)
    | .swap o => do
      -- the source duplicates `*ptep`, the entry that is still zero
      let s ← s.swapDuplicate 0
      return (0, s.setPte (ptep mm la) (.swap o))

/-- `do_pgfault` on an empty entry. -/
def pgfaultEmpty (env : Env) (mm : ℕ) (vma : Vma) (la : ℕ) (perm : Perm) : Option (Int × Sys) :=
  if vma.vmFlags &&& VM_SHARE = 0 then do
    let (ok, s) ← s.pgdirAllocPage env mm la perm
    return (if ok then 0 else -E_NO_MEM, s)
  else s.pgfaultShared env mm vma la perm

/-- `cow` in `do_pgfault`. -/
def isCow (vma : Vma) : Bool := decide (vma.vmFlags &&& (VM_SHARE ||| VM_WRITE) = VM_WRITE)

/-- `free_page(newpage)` if there is one. -/
def freeNewpage : Option ℕ → Sys → Sys
  | none, s => s
  | some f, s => s.freePage f

/-- Whether `do_pgfault` has to copy the page: others have it, mapped or swapped out. -/
def mustCopy (page : ℕ) (mayCopy : Bool) : Option Bool :=
  if mayCopy then
    (s.swapPageCount page).map fun count : ℕ => decide (s.pageRef page + (count : Int) > 1)
  else some false

/-- The end of `do_pgfault`: `page` is mapped, or a copy of it; `ret` is what a failure returns. -/
def pgfaultMap (env : Env) (mm la page : ℕ) (newpage : Option ℕ) (mayCopy : Bool) (ret : Int)
    (perm : Perm) : Option (Int × Sys) := do
  let copy ← s.mustCopy page mayCopy
  if copy then
    match newpage with
    | none => some (ret, s)
    | some f => do
      let s := { s with data := Function.update s.data f (s.data page) }
      let (_, s) ← s.pageInsert env mm f la perm
      return (0, s)
  else do
    let (_, s) ← s.pageInsert env mm page la perm
    return (0, freeNewpage newpage s)

/-- `newpage = alloc_page()`, if the VMA is copied on write. -/
def allocNewpage (env : Env) (cow : Bool) : Option ℕ × Sys :=
  if cow then s.allocPage env .newpage else (none, s)

/-- `do_pgfault` on an entry that is not empty. -/
def pgfaultEntry (env : Env) (mm : ℕ) (vma : Vma) (errorCode la : ℕ) (perm : Perm) :
    Option (Int × Sys) :=
  let cow := isCow vma
  let write : Bool := errorCode / 2 % 2 = 1
  match s.pte (ptep mm la) with
  | .zero => none
  | .page f p =>
    if write ∧ ¬ p.w ∧ cow then
      match s.allocNewpage env cow with
      | (newpage, s) => s.pgfaultMap env mm la f newpage true (-E_NO_MEM) perm
    else none
  | .swap o =>
    match s.allocNewpage env cow with
    | (newpage, s) => do
      let (ret, f, s) ← s.swapInPage env o
      if ret ≠ 0 then some (ret, freeNewpage newpage s)
      else
        let readOnly : Bool := ! write && cow
        s.pgfaultMap env mm la f newpage (cow && ! readOnly) 0
          { perm with w := perm.w && ! readOnly }

/-- `do_pgfault`, for the result `vma` of `find_vma`. -/
def doPgfault (env : Env) (mm : ℕ) (vma : Option Vma) (errorCode addr : ℕ) :
    Option (Int × Sys) :=
  match vma with
  | none => some (-E_INVAL, s)
  | some vma =>
    if pgfaultAllowed vma errorCode addr then
      let perm : Perm := ⟨true, decide (vma.vmFlags &&& VM_WRITE ≠ 0), false, false⟩
      let la := rounddown addr
      match s.getPte env mm la true with
      | (false, s) => some (-E_NO_MEM, s)
      | (true, s) =>
        if s.pte (ptep mm la) = .zero then s.pgfaultEmpty env mm vma la perm
        else s.pgfaultEntry env mm vma errorCode la perm
    else some (-E_INVAL, s)

/-! ## Swapping out -/

/-- The end of `swap_out_vma` for a shared VMA: the object's own entry follows. -/
def swapOutShared (env : Env) (vma : Vma) (addr f o : ℕ) : Option Sys :=
  if vma.vmFlags &&& VM_SHARE ≠ 0 ∧ s.pageRef f = 1 then do
    let shmemAddr := addr - vma.vmStart + vma.shmemOff
    let (x, s) ← s.shmemGetEntry env vma.shmem shmemAddr false
    match x with
    | none => none
    | some x =>
      match s.pte x with
      | .zero => none
      | .page _ _ => s.shmemInsertSwap env vma.shmem shmemAddr o
      | .swap _ => some s
  else some s

/-- The page enters the swap cache, if it is not there, or takes over the dirty bit; the result
tells whether it has an entry. -/
def swapOutEnter (f : ℕ) (perm : Perm) : Option (Bool × Sys) :=
  if ¬ s.pageSwap f then do
    let (ok, s) ← s.swapPageAddNew f
    if ok then do
      let s ← s.swapActiveListAdd f
      return (true, s)
    else some (false, s)
  else some (true, if perm.d then s.setPageDirty f true else s)

/-- Body of the loop of `swap_out_vma`; the result tells whether the page was swapped out. -/
def swapOutPte (env : Env) (mm : ℕ) (vma : Vma) (addr : ℕ) : Option (Bool × Sys) :=
  match s.pte (ptep mm addr) with
  | .page f perm =>
    if s.pageReserved f then none
    else if perm.a then
      some (false, s.setPte (ptep mm addr) (.page f { perm with a := false }))
    else do
      let (ok, s) ← s.swapOutEnter f perm
      if ok then do
        let o := s.pageIndex f
        let s ← s.swapDuplicate o
        let s := (s.pageRefDec f).setPte (ptep mm addr) (.swap o)
        let s ← s.swapOutShared env vma addr f o
        return (true, s)
      else some (false, s)
  | _ => some (false, s)

/-- The loop of `swap_out_vma`. -/
def swapOutLoop (env : Env) (mm : ℕ) (vma : Vma) (stop addr require : ℕ) (s : Sys) :
    Option Sys :=
  if addr < stop ∧ require ≠ 0 then
    match s.pde mm (addr / PTSIZE) with
    | none => swapOutLoop env mm vma stop (nextTable addr) require s
    | some _ => do
      let (out, s) ← s.swapOutPte env mm vma addr
      swapOutLoop env mm vma stop (addr + PGSIZE) (if out then require - 1 else require) s
  else some s
termination_by stop - addr
decreasing_by
  · have hlt := lt_nextTable addr
    omega
  · have hpos : 0 < PGSIZE := by decide
    omega

/-- `swap_out_vma`. -/
def swapOutVma (env : Env) (mm : ℕ) (vma : Vma) (addr require : ℕ) : Option Sys :=
  if require = 0 ∨ ¬ (vma.vmStart ≤ addr ∧ addr < vma.vmEnd) then some s
  else swapOutLoop env mm vma (roundup vma.vmEnd) (rounddown addr) require s

end Sys

end Ucore
