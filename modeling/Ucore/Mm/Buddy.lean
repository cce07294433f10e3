import Ucore.Mm.Page
import Mathlib.Tactic

/-!
# The buddy page allocator (`kern/mm/buddy_pmm.c`)

Executable model of `buddy_init`, `buddy_init_memmap`, `buddy_alloc_pages`, `buddy_free_pages`
and `buddy_nr_free_pages`.

* A `struct Page *` is an index into `pages`; pointer arithmetic on it is arithmetic on the index.
* A free list is the list of the frame numbers on it, first element first; `list_add` puts its
  element at the front and `list_del` takes it off whatever list it is on.
* `assert` and `panic` are `none`.
* `order_size` is always `1 << order` in the source, so it is written `2 ^ order` here.
-/

namespace Ucore

def MAX_ORDER : Nat := 10

def MAX_ZONE_NUM : Nat := 10

/-- `free_area_t`. -/
structure FreeArea where
  freeList : List Nat
  nrFree : Nat
  deriving DecidableEq, Repr

/-- The globals of the allocator: the page array, `free_area`, `zones` and the static counter
`zone_num` of `buddy_init_memmap`. -/
structure Buddy where
  npage : Nat
  pages : Nat → Page
  freeArea : Nat → FreeArea
  zones : Nat → Nat
  zoneNum : Nat

namespace Buddy

def setPage (s : Buddy) (p : Nat) (pg : Page) : Buddy :=
  { s with pages := Function.update s.pages p pg }

def setArea (s : Buddy) (k : Nat) (a : FreeArea) : Buddy :=
  { s with freeArea := Function.update s.freeArea k a }

/-- `nr_free(order) --`. -/
def decNrFree (s : Buddy) (order : Nat) : Buddy :=
  s.setArea order { s.freeArea order with nrFree := (s.freeArea order).nrFree - 1 }

/-- `list_del(&(p->page_link))`. -/
def listDel (s : Buddy) (p : Nat) : Buddy :=
  { s with freeArea := fun k => { s.freeArea k with freeList := (s.freeArea k).freeList.erase p } }

/-- `ClearPageProperty(p)`. -/
def clearPageProperty (s : Buddy) (p : Nat) : Buddy := s.setPage p (s.pages p).clearProperty

/-- `p->property = order; SetPageProperty(p); nr_free(order) ++;
list_add(&free_list(order), &(p->page_link))`: a block of `2 ^ order` pages enters its list. -/
def listAddBlock (s : Buddy) (order p : Nat) : Buddy :=
  (s.setPage p { s.pages p with property := order }.setProperty).setArea order
    ⟨p :: (s.freeArea order).freeList, (s.freeArea order).nrFree + 1⟩

/-- `buddy_init`. -/
def buddyInit (s : Buddy) : Buddy :=
  { s with freeArea := fun i => if i ≤ MAX_ORDER then ⟨[], 0⟩ else s.freeArea i }

/-- `for (; p != base + n; p ++)` over the page array: check each page, then replace it. -/
def pageLoop (ok : Page → Bool) (f : Page → Page) : Nat → Nat → Buddy → Option Buddy
  | _, 0, s => some s
  | p, n + 1, s =>
    if ok (s.pages p) then pageLoop ok f (p + 1) n (s.setPage p (f (s.pages p))) else none

/-- First loop of `buddy_init_memmap`: reset `n` pages from `base` on. -/
def memmapPages (base n : Nat) (s : Buddy) : Option Buddy :=
  pageLoop (fun p => p.flags.reserved)
    (fun p => { p with flags := PageFlags.zero, property := 0, zoneNum := s.zoneNum, ref := 0 })
    base n s

/-- Inner loop of `buddy_init_memmap`: `while (n >= order_size)`. -/
def memmapRun (order n p : Nat) (s : Buddy) : Nat × Nat × Buddy :=
  if 2 ^ order ≤ n then memmapRun order (n - 2 ^ order) (p + 2 ^ order) (s.listAddBlock order p)
  else (n, p, s)
termination_by n
decreasing_by have := Nat.two_pow_pos order; omega

/-- Outer loop of `buddy_init_memmap`: `while (n != 0)`.  The inner loop at order `0` leaves
`n = 0`, so the loop ends before `order --` could wrap around. -/
def memmapBlocks (order n p : Nat) (s : Buddy) : Buddy :=
  if n = 0 then s
  else
    let (n', p', s') := memmapRun order n p s
    match order with
    | 0 => s'
    | order' + 1 => memmapBlocks order' n' p' s'

/-- `buddy_init_memmap`. -/
def buddyInitMemmap (base n : Nat) (s : Buddy) : Option Buddy := do
  guard (0 < n ∧ s.zoneNum < MAX_ZONE_NUM)
  let s ← memmapPages base n s
  let s := { s with zones := Function.update s.zones s.zoneNum base, zoneNum := s.zoneNum + 1 }
  some (memmapBlocks MAX_ORDER n base s)

/-- `getorder`: the least `order ≤ MAX_ORDER` with `n ≤ 2 ^ order`; `panic` if there is none. -/
def getorder (n : Nat) : Option Nat :=
  (List.range (MAX_ORDER + 1)).find? (fun order => n ≤ 2 ^ order)

/-- Inner loop of `buddy_alloc_pages_sub`: `while (cur_order > order)`, give back the upper half
of the block. -/
def splitLoop (page order : Nat) : Nat → Buddy → Buddy
  | 0, s => s
  | curOrder + 1, s =>
    if order < curOrder + 1 then
      splitLoop page order curOrder (s.listAddBlock curOrder (page + 2 ^ curOrder))
    else s

/-- `buddy_alloc_pages_sub`. -/
def buddyAllocPagesSub (order : Nat) (s : Buddy) : Option (Option Nat × Buddy) := do
  guard (order ≤ MAX_ORDER)
  match (List.range' order (MAX_ORDER + 1 - order)).find?
      (fun k => (s.freeArea k).freeList ≠ []) with
  | none => some (none, s)
  | some curOrder =>
    let page := (s.freeArea curOrder).freeList.headD 0
    let s := (s.decNrFree curOrder).listDel page
    let s := splitLoop page order curOrder s
    some (some page, s.clearPageProperty page)

/-- `page_is_buddy`. -/
def pageIsBuddy (s : Buddy) (page order zoneNum : Nat) : Bool :=
  if page < s.npage then
    if (s.pages page).zoneNum = zoneNum then
      !(s.pages page).flags.reserved && (s.pages page).flags.property &&
        (s.pages page).property == order
    else false
  else false

/-- `page2idx`. -/
def page2idx (s : Buddy) (page : Nat) : Nat := page - s.zones (s.pages page).zoneNum

/-- `idx2page`. -/
def idx2page (s : Buddy) (zoneNum idx : Nat) : Nat := s.zones zoneNum + idx

/-- First loop of `buddy_free_pages_sub`: check and reset `n` pages from `base` on. -/
def resetPages (base n : Nat) (s : Buddy) : Option Buddy :=
  pageLoop (fun p => !p.flags.reserved && !p.flags.property)
    (fun p => { p with flags := PageFlags.zero, ref := 0 }) base n s

/-- Second loop of `buddy_free_pages_sub`: `while (order < MAX_ORDER)`, take the buddy off its
list and go on with the merged block. -/
def mergeLoop (zoneNum pageIdx order : Nat) (s : Buddy) : Nat × Nat × Buddy :=
  if order < MAX_ORDER then
    let buddyIdx := pageIdx ^^^ 2 ^ order
    let buddy := s.idx2page zoneNum buddyIdx
    if s.pageIsBuddy buddy order zoneNum then
      mergeLoop zoneNum (pageIdx &&& buddyIdx) (order + 1)
        (((s.decNrFree order).listDel buddy).clearPageProperty buddy)
    else (pageIdx, order, s)
  else (pageIdx, order, s)
termination_by MAX_ORDER - order

/-- `buddy_free_pages_sub`. -/
def buddyFreePagesSub (base order : Nat) (s : Buddy) : Option Buddy := do
  let pageIdx := s.page2idx base
  guard (pageIdx &&& (2 ^ order - 1) = 0)
  let s ← resetPages base (2 ^ order) s
  let zoneNum := (s.pages base).zoneNum
  let (pageIdx, order, s) := mergeLoop zoneNum pageIdx order s
  some (s.listAddBlock order (s.idx2page zoneNum pageIdx))

/-- First loop of `buddy_free_pages`: `while (n >= order_size)`, free the blocks that bring the
start of the range to a multiple of the next order. -/
def freeAscend (order base n : Nat) (s : Buddy) : Option (Nat × Nat × Nat × Buddy) :=
  if 2 ^ order ≤ n then
    if order ≤ MAX_ORDER then
      if s.page2idx base &&& 2 ^ order ≠ 0 then
        (buddyFreePagesSub base order s).bind fun s' =>
          freeAscend (order + 1) (base + 2 ^ order) (n - 2 ^ order) s'
      else freeAscend (order + 1) base n s
    else none
  else some (order, base, n, s)
termination_by n - order
decreasing_by
  all_goals
    have hlt := Nat.lt_two_pow_self (n := order)
    omega

/-- Second loop of `buddy_free_pages`: `while (n != 0)`, lower the order to the size of the rest
and free a block of that order. -/
def freeDescend (order base n : Nat) (s : Buddy) : Option Buddy :=
  if n = 0 then some s
  else if n < 2 ^ order then freeDescend (order - 1) base n s
  else
    (buddyFreePagesSub base order s).bind fun s' =>
      freeDescend order (base + 2 ^ order) (n - 2 ^ order) s'
termination_by n + order
decreasing_by
  · have : order ≠ 0 := by rintro rfl; omega
    omega
  · have := Nat.two_pow_pos order; omega

/-- `buddy_free_pages`. -/
def buddyFreePages (base n : Nat) (s : Buddy) : Option Buddy := do
  guard (0 < n)
  if n = 1 then buddyFreePagesSub base 0 s
  else
    let (order, base, n, s) ← freeAscend 0 base n s
    freeDescend order base n s

/-- `buddy_alloc_pages`; the tail beyond `n` pages goes back through `free_pages`. -/
def buddyAllocPages (n : Nat) (s : Buddy) : Option (Option Nat × Buddy) := do
  guard (0 < n)
  let order ← getorder n
  match ← buddyAllocPagesSub order s with
  | (none, s) => some (none, s)
  | (some page, s) =>
    if n ≠ 2 ^ order then
      let s ← buddyFreePages (page + n) (2 ^ order - n) s
      some (some page, s)
    else some (some page, s)

/-- `buddy_nr_free_pages`. -/
def buddyNrFreePages (s : Buddy) : Nat :=
  (List.range (MAX_ORDER + 1)).foldl (fun ret order => ret + (s.freeArea order).nrFree * 2 ^ order) 0

end Buddy

end Ucore
