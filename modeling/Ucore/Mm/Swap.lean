import Ucore.Mm.Layout
import Mathlib.Logic.Function.Basic

/-!
# Swapping: the swap cache and its lists

Reference model of `kern/mm/swap.c`, over the state that it shares with the page tables:

* page frames with their descriptors (one map per field of `struct Page`) and contents, and which
  of them the allocator has free;
* `mem_map`, the hash of the swap cache, the active and the inactive list;
* the slots of the swap device;
* the page directories and page table entries of all address spaces, and the entries of the
  shared memory objects.

A swap entry `o << 8` is represented by its offset `o`.  `alloc_page` returns `NULL` or any free
frame, with any contents, and `swapfs_read`, `swapfs_write` succeed or fail, as the environment
`Env` of a call decides.  A failed assertion, a `panic` or an endless loop is `none`.
-/

set_option linter.constructorNameAsVariable false

namespace Ucore

/-- The bytes of one page. -/
abbrev Data := ℕ → UInt8

/-- Where a page table entry is: in the table of an address space, or in a shared memory object. -/
inductive Loc where
  | user (mm vpn : ℕ)
  | shm (shmem idx : ℕ)
  deriving DecidableEq, Repr

/-- The bits of a `pte_t` that the kernel uses, for a present page. -/
structure Perm where
  u : Bool
  w : Bool
  a : Bool
  d : Bool
  deriving DecidableEq, Repr

/-- A `pte_t`: zero, a present page, or a swap entry. -/
inductive Pte where
  | zero
  | page (f : ℕ) (perm : Perm)
  | swap (o : ℕ)
  deriving DecidableEq, Repr

/-- The entry maps the frame `f`. -/
def Pte.Maps (f : ℕ) (e : Pte) : Prop := ∃ perm, e = .page f perm

/-- The entry is the swap entry `o`. -/
def Pte.Holds (o : ℕ) (e : Pte) : Prop := e = .swap o

/-- `swap_list_t`. -/
structure SwapList where
  pages : List ℕ
  nrPages : ℕ

/-- The memory of the machine, as far as paging goes. -/
structure Sys where
  maxSwapOffset : ℕ
  pageRef : ℕ → Int
  pageReserved : ℕ → Bool
  pageSwap : ℕ → Bool
  pageActive : ℕ → Bool
  pageDirty : ℕ → Bool
  pageIndex : ℕ → ℕ
  data : ℕ → Data
  free : ℕ → Bool
  memMap : ℕ → ℕ
  hashList : ℕ → List ℕ
  activeList : SwapList
  inactiveList : SwapList
  next : ℕ
  disk : ℕ → Data
  /-- the frame of the page table, by address space and index in the page directory -/
  pde : ℕ → ℕ → Option ℕ
  /-- the frame of the entries of a shared memory object, by object and index of the node -/
  shmn : ℕ → ℕ → Option ℕ
  shmLen : ℕ → ℕ
  pte : Loc → Pte

/-- A call of `alloc_page`, by what it is for. -/
inductive AllocSite where
  | table (la : ℕ)
  | shmn
  | shmPage
  | newpage
  | swapIn
  deriving DecidableEq, Repr

/-- What the machine decides during one call. -/
structure Env where
  /-- the frame `alloc_page` finds, if any -/
  pick : AllocSite → Option ℕ
  /-- what a newly allocated frame holds -/
  junk : ℕ → Data
  /-- whether `swapfs_read` succeeds -/
  readOk : Bool
  /-- what a failing `swapfs_write` of a frame leaves on the slot; `none` if it succeeds -/
  write : ℕ → Option Data

/-- `SWAP_UNUSED`. -/
def SWAP_UNUSED : ℕ := 0xFFFF

/-- `MAX_SWAP_REF`. -/
def MAX_SWAP_REF : ℕ := 0xFFFE

def E_SWAP_FAULT : Int := 7

namespace Sys

variable (s : Sys)

/-! ## Page descriptors and frames -/

/-- `SetPageSwap`, `ClearPageSwap`. -/
def setPageSwap (f : ℕ) (b : Bool) : Sys :=
  { s with pageSwap := Function.update s.pageSwap f b }

/-- `SetPageActive`, `ClearPageActive`. -/
def setPageActive (f : ℕ) (b : Bool) : Sys :=
  { s with pageActive := Function.update s.pageActive f b }

/-- `SetPageDirty`, `ClearPageDirty`. -/
def setPageDirty (f : ℕ) (b : Bool) : Sys :=
  { s with pageDirty := Function.update s.pageDirty f b }

/-- `page->index = entry`. -/
def setIndex (f o : ℕ) : Sys := { s with pageIndex := Function.update s.pageIndex f o }

/-- `set_page_ref`. -/
def setPageRef (f : ℕ) (n : Int) : Sys := { s with pageRef := Function.update s.pageRef f n }

/-- `page_ref_inc`. -/
def pageRefInc (f : ℕ) : Sys := s.setPageRef f (s.pageRef f + 1)

/-- `page_ref_dec`. -/
def pageRefDec (f : ℕ) : Sys := s.setPageRef f (s.pageRef f - 1)

/-- `alloc_page`. -/
def allocPage (env : Env) (site : AllocSite) : Option ℕ × Sys :=
  match (env.pick site).filter fun f => s.free f with
  | none => (none, s)
  | some f =>
    (some f, { s with
      free := Function.update s.free f false
      data := Function.update s.data f (env.junk f) })

/-- `free_page`: the allocator clears the flags and the reference count. -/
def freePage (f : ℕ) : Sys :=
  { s with
    pageRef := Function.update s.pageRef f 0
    pageReserved := Function.update s.pageReserved f false
    pageSwap := Function.update s.pageSwap f false
    pageActive := Function.update s.pageActive f false
    pageDirty := Function.update s.pageDirty f false
    free := Function.update s.free f true }

/-! ## The lists -/

/-- `swap_active_list_add`. -/
def swapActiveListAdd (f : ℕ) : Option Sys :=
  if s.pageSwap f then
    some { s.setPageActive f true with
      activeList := ⟨s.activeList.pages ++ [f], s.activeList.nrPages + 1⟩ }
  else none

/-- `swap_inactive_list_add`. -/
def swapInactiveListAdd (f : ℕ) : Option Sys :=
  if s.pageSwap f then
    some { s.setPageActive f false with
      inactiveList := ⟨s.inactiveList.pages ++ [f], s.inactiveList.nrPages + 1⟩ }
  else none

/-- `swap_list_del`: the count of the list that `PG_active` names goes down, and the page is
unlinked from the list it is on. -/
def swapListDel (f : ℕ) : Option Sys :=
  if s.pageSwap f then
    let act := s.pageActive f
    some { s with
      activeList :=
        ⟨s.activeList.pages.erase f,
          if act then s.activeList.nrPages - 1 else s.activeList.nrPages⟩
      inactiveList :=
        ⟨s.inactiveList.pages.erase f,
          if act then s.inactiveList.nrPages else s.inactiveList.nrPages - 1⟩ }
  else none

/-! ## The hash of the swap cache -/

/-- `entry_hashfn` of the entry `o << 8`: `hash32` to ten bits. -/
def entryHashfn (o : ℕ) : ℕ := ((o * 256 * 0x9e370001) % 2 ^ 32) / 2 ^ 22

/-- The check in the macro `swap_offset`. -/
def swapOffset (o : ℕ) : Option ℕ := if 0 < o ∧ o < s.maxSwapOffset then some o else none

/-- `swap_hash_find`. -/
def swapHashFind (o : ℕ) : Option ℕ :=
  (s.hashList (entryHashfn o)).find? fun f => s.pageIndex f = o

/-- `swap_page_del`. -/
def swapPageDel (f : ℕ) : Option Sys :=
  if s.pageSwap f then
    some { s.setPageSwap f false with hashList := fun b => (s.hashList b).erase f }
  else none

/-- `swap_free_page`. -/
def swapFreePage (f : ℕ) : Option Sys :=
  if s.pageSwap f ∧ s.pageRef f = 0 then (s.swapPageDel f).map fun s => s.freePage f else none

/-- `mem_map[offset] = n`. -/
def setMemMap (o n : ℕ) : Sys := { s with memMap := Function.update s.memMap o n }

/-- The loop of `try_alloc_swap_entry`: `next` goes round until it finds an unused entry or is back
at `stop`; the result is `next`, `empty`, `zero`. -/
def scanEntry (stop : ℕ) : ℕ → ℕ → ℕ → Option (ℕ × ℕ × ℕ)
  | 0, _, _ => none
  | fuel + 1, next, zero =>
    let empty := if s.memMap next = SWAP_UNUSED then next else 0
    let zero := if s.memMap next = 0 ∧ zero = 0 then next else zero
    let next := if next + 1 = s.maxSwapOffset then 1 else next + 1
    if empty = 0 ∧ next ≠ stop then scanEntry stop fuel next zero else some (next, empty, zero)

/-- The page whose entry `try_alloc_swap_entry` takes leaves the cache, or goes altogether. -/
def stealPage (f : ℕ) : Option Sys :=
  if s.pageRef f = 0 then s.swapFreePage f else s.swapPageDel f

/-- `try_alloc_swap_entry` takes the entry of a page that no one has swapped out. -/
def stealEntry (zero : ℕ) : Option Sys := do
  let f ← s.swapHashFind zero
  let s ← s.swapListDel f
  let s ← s.stealPage f
  return s.setMemMap zero SWAP_UNUSED

/-- `try_alloc_swap_entry`; the result `0` is a failure. -/
def tryAllocSwapEntry : Option (ℕ × Sys) := do
  let (next, empty, zero) ← s.scanEntry s.next s.maxSwapOffset s.next 0
  let s := { s with next := next }
  if empty ≠ 0 then some (empty, s)
  else if zero ≠ 0 then do
    let s ← s.stealEntry zero
    return (zero, s)
  else some (0, s)

/-- The end of `swap_page_add`: the page enters the hash under the entry. -/
def hashAdd (f o : ℕ) : Sys :=
  let s := (s.setPageSwap f true).setIndex f o
  { s with
    hashList := Function.update s.hashList (entryHashfn o) (f :: s.hashList (entryHashfn o)) }

/-- `swap_page_add(page, entry)` with `entry != 0`. -/
def swapPageAdd (f o : ℕ) : Option Sys :=
  if s.pageSwap f then none else some (s.hashAdd f o)

/-- `swap_page_add(page, 0)`: a new entry is allocated and the page is dirty. -/
def swapPageAddNew (f : ℕ) : Option (Bool × Sys) :=
  if s.pageSwap f then none
  else do
    let (o, s) ← s.tryAllocSwapEntry
    if o = 0 then some (false, s)
    else do
      guard (s.memMap o = SWAP_UNUSED)
      return (true, ((s.setMemMap o 0).setPageDirty f true).hashAdd f o)

/-! ## Reference counts of entries -/

/-- `swap_remove_entry` when the last holder has gone: the page goes, unless it is mapped. -/
def swapRemoveLast (o : ℕ) : Option Sys :=
  match s.swapHashFind o with
  | none => some (s.setMemMap o SWAP_UNUSED)
  | some f =>
    if s.pageRef f ≠ 0 then some s
    else do
      let s ← s.swapListDel f
      let s ← s.swapFreePage f
      return s.setMemMap o SWAP_UNUSED

/-- `swap_remove_entry`. -/
def swapRemoveEntry (o : ℕ) : Option Sys := do
  let o ← s.swapOffset o
  guard (0 < s.memMap o)
  let s := s.setMemMap o (s.memMap o - 1)
  if s.memMap o = 0 then s.swapRemoveLast o else some s

/-- `swap_page_count`. -/
def swapPageCount (f : ℕ) : Option ℕ :=
  if s.pageSwap f then (s.swapOffset (s.pageIndex f)).map s.memMap else some 0

/-- `swap_duplicate`. -/
def swapDuplicate (o : ℕ) : Option Sys := do
  let o ← s.swapOffset o
  guard (s.memMap o < MAX_SWAP_REF)
  return s.setMemMap o (s.memMap o + 1)

/-! ## Reading and writing slots -/

/-- `swap_in_page` after `alloc_page` has found a frame. -/
def swapRead (env : Env) (o f : ℕ) : Option (Int × ℕ × Sys) :=
  if env.readOk then do
    let s := { s with data := Function.update s.data f (s.disk o) }
    let s ← s.swapPageAdd f o
    let s ← s.swapActiveListAdd f
    return (0, f, s)
  else some (-E_SWAP_FAULT, 0, s.freePage f)

/-- `swap_in_page`; the result has the return value and `*pagep`. -/
def swapInPage (env : Env) (o : ℕ) : Option (Int × ℕ × Sys) := do
  let o ← s.swapOffset o
  match s.swapHashFind o with
  | some f => some (0, f, s)
  | none =>
    match s.allocPage env .swapIn with
    | (none, s) => some (-E_NO_MEM, 0, s)
    | (some f, s) => s.swapRead env o f

/-- `try_free_swap_entry`. -/
def tryFreeSwapEntry (o : ℕ) : Option (Bool × Sys) := do
  let o ← s.swapOffset o
  if s.memMap o = 0 then some (true, s.setMemMap o SWAP_UNUSED) else some (false, s)

/-- `swapfs_write`; the result tells whether it succeeded. -/
def swapfsWrite (env : Env) (o f : ℕ) : Bool × Sys :=
  match env.write f with
  | none => (true, { s with disk := Function.update s.disk o (s.data f) })
  | some junk => (false, { s with disk := Function.update s.disk o junk })

/-- `page_launder` writes the page to its slot; after a failure it is dirty again. -/
def launderIo (env : Env) (o f : ℕ) : Option Sys := do
  let s ← (s.setPageDirty f false).swapDuplicate o
  let (ok, s) := s.swapfsWrite env o f
  let s := if ok then s else s.setPageDirty f true
  return s.setMemMap o (s.memMap o - 1)

/-- The part of `page_launder` for a dirty page; the result tells whether the page can be freed. -/
def launderDirty (env : Env) (o f : ℕ) : Option (Bool × Sys) := do
  let s ← s.launderIo env o f
  if s.pageRef f ≠ 0 then (s.swapActiveListAdd f).map fun s => (false, s)
  else if s.pageDirty f then (s.swapInactiveListAdd f).map fun s => (false, s)
  else (s.tryFreeSwapEntry o).map fun r => (true, r.2)

/-- `page_launder` writes the page, if its entry is in use and the page is dirty; the result tells
whether the page can be freed. -/
def launderWrite (env : Env) (o f : ℕ) : Option (Bool × Sys) := do
  let (unused, s) ← s.tryFreeSwapEntry o
  if ¬ unused ∧ s.pageDirty f then s.launderDirty env o f else some (true, s)

/-- `page_launder` for a page that is not mapped: it is written if need be, and freed. -/
def launderUnmapped (env : Env) (f : ℕ) : Option Sys := do
  let (done, s) ← s.launderWrite env (s.pageIndex f) f
  if done then s.swapFreePage f else some s

/-- Body of the loop of `page_launder`. -/
def launderPage (env : Env) (f : ℕ) : Option Sys :=
  if s.pageSwap f ∧ ¬ s.pageActive f then do
    let s ← s.swapListDel f
    if s.pageRef f ≠ 0 then s.swapActiveListAdd f else s.launderUnmapped env f
  else none

/-- `list_next` on a list of pages; `none` is the head. -/
def nextPage : List ℕ → ℕ → Option ℕ
  | [], _ => none
  | g :: l, f => if g = f then l.head? else nextPage l f

/-- The loop of `page_launder`; the fuel is `maxscan`. -/
def launderLoop (env : Env) : ℕ → Option ℕ → Sys → Option Sys
  | 0, _, s => some s
  | _, none, s => some s
  | maxscan + 1, some f, s => do
    let le := nextPage s.inactiveList.pages f
    let s ← s.launderPage env f
    launderLoop env maxscan le s

/-- `page_launder`. -/
def pageLaunder (env : Env) : Option Sys :=
  launderLoop env s.inactiveList.nrPages s.inactiveList.pages.head? s

/-- Body of the loop of `refill_inactive_scan`. -/
def refillPage (f : ℕ) : Option Sys :=
  if s.pageSwap f ∧ s.pageActive f then
    if s.pageRef f = 0 then do
      let s ← s.swapListDel f
      s.swapInactiveListAdd f
    else some s
  else none

/-- The loop of `refill_inactive_scan`; the fuel is `maxscan`. -/
def refillLoop : ℕ → Option ℕ → Sys → Option Sys
  | 0, _, s => some s
  | _, none, s => some s
  | maxscan + 1, some f, s => do
    let le := nextPage s.activeList.pages f
    let s ← s.refillPage f
    refillLoop maxscan le s

/-- `refill_inactive_scan`. -/
def refillInactiveScan : Option Sys :=
  refillLoop s.activeList.nrPages s.activeList.pages.head? s

end Sys

end Ucore
