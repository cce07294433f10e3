import Mathlib.Algebra.Group.Nat.Defs
import Mathlib.Data.List.Basic
import Mathlib.Logic.Function.Basic

/-!
# The user's heap

Reference model of `user/libs/malloc.c`, with as much of `do_brk` and `do_shmem`
(`kern/process/proc.c`) as decides what a program's memory is.

* `Heap` — the headers in the memory that is mapped, and the static variables;
* `freeLocked`, `morecoreBrk`, `morecoreShmem` — `none` is an access to memory that is not mapped, or
  a loop that does not end within `fuel` rounds;
* `step` — `mem_lock` is held during a call, and a step is one round of the loop of `malloc_locked`; a
  program frees what it was given, once, and writes nowhere else.
-/

namespace Ucore.Malloc

/-- `sizeof(header_t)`. -/
def HEADER : ℕ := 64

/-- The range of `size_t` and of addresses. -/
def WORD : ℕ := 2 ^ 32

def PGSIZE : ℕ := 4096

def USERBASE : ℕ := 0x200000

def USERTOP : ℕ := 0xB0000000

/-- `header_t`; `type` is set for shared memory. -/
structure Header where
  ptr : ℕ
  size : ℕ
  type : Bool
  deriving DecidableEq, Repr

/-- `mm->brk_start`, `mm->brk`, and the vmas that are not the heap's. -/
structure Kernel where
  brkStart : ℕ
  brk : ℕ
  areas : List (ℕ × ℕ)
  deriving DecidableEq, Repr

/-- The memory, by its addresses, with the headers that are read and written there; `freep`, and the
`brk` of `morecore_brk_locked`. -/
structure Heap where
  mem : ℕ → Option Header
  freep : Option ℕ
  brk : ℕ
  kern : Kernel

/-- `ROUNDUP(x, PGSIZE)`. -/
def roundup (x : ℕ) : ℕ := (x + (PGSIZE - 1)) / PGSIZE * PGSIZE % WORD

/-- `find_vma_intersection`. -/
def Kernel.meets (k : Kernel) (start stop : ℕ) : Bool := k.areas.any fun r => start < r.2 && r.1 < stop

namespace Heap

variable (h : Heap)

/-- A write to a header. -/
def set (a : ℕ) (f : Header → Header) : Option Heap :=
  (h.mem a).map fun x => { h with mem := Function.update h.mem a (some (f x)) }

/-- New pages, and pages that go. -/
def remap (start stop : ℕ) (x : Option Header) : Heap :=
  { h with mem := fun a => if start ≤ a ∧ a < stop then x else h.mem a }

/-- `sys_brk`: what it stores; `grant` tells whether the kernel has the memory for the request. -/
def sysBrk (grant : Bool) (brk : ℕ) : ℕ × Heap :=
  let k := h.kern
  let newbrk := roundup brk
  if brk < k.brkStart then (k.brk, h)
  else if newbrk = k.brk then (k.brk, h)
  else if newbrk < k.brk then
    if grant ∧ USERBASE ≤ newbrk then
      (newbrk, { h.remap newbrk k.brk none with kern := { k with brk := newbrk } })
    else (k.brk, h)
  else if grant ∧ newbrk ≤ USERTOP ∧ k.meets k.brk (newbrk + PGSIZE) = false then
    (newbrk, { h.remap k.brk newbrk (some ⟨0, 0, false⟩) with kern := { k with brk := newbrk } })
  else (k.brk, h)

/-- `sys_shmem` with `mem = 0`: the address that it stores; `grant` is the one that `get_unmapped_area`
finds, if the kernel has the memory for the request. -/
def sysShmem (grant : Option ℕ) (len : ℕ) : Option (ℕ × Heap) :=
  let k := h.kern
  match grant with
  | none => none
  | some a =>
    if len ≠ 0 ∧ a % PGSIZE = 0 ∧ USERBASE ≤ a ∧ a + len ≤ USERTOP ∧ k.meets a (a + len) = false ∧
        (a + len ≤ k.brkStart ∨ k.brk ≤ a) then
      some (a, { h.remap a (a + len) (some ⟨0, 0, false⟩) with
        kern := { k with areas := (a, a + len) :: k.areas } })
    else none

/-- The loop of `free_locked`. -/
def findGap (bp : ℕ) : ℕ → ℕ → Option ℕ
  | 0, _ => none
  | fuel + 1, p => do
    let x ← h.mem p
    if p < bp ∧ bp < x.ptr then some p
    else if p ≥ x.ptr ∧ (p < bp ∨ bp < x.ptr) then some p
    else findGap bp fuel x.ptr

/-- `free_locked`, behind `p`: the block at `bp` takes in the one behind it. -/
def linkNext (bp p : ℕ) : Option Heap := do
  let x ← h.mem p
  let b ← h.mem bp
  let n ← h.mem x.ptr
  if b.type = n.type ∧ (bp + b.size * HEADER) % WORD = x.ptr then
    h.set bp fun b => { b with size := (b.size + n.size) % WORD, ptr := n.ptr }
  else h.set bp fun b => { b with ptr := x.ptr }

/-- `free_locked`, behind `p`: the block at `p` takes in the one at `bp`. -/
def linkPrev (bp p : ℕ) : Option Heap := do
  let x ← h.mem p
  let b ← h.mem bp
  if x.type = b.type ∧ (p + x.size * HEADER) % WORD = bp then
    h.set p fun x => { x with size := (x.size + b.size) % WORD, ptr := b.ptr }
  else h.set p fun x => { x with ptr := bp }

/-- `free_locked`, of the block with the header at `bp`. -/
def freeLocked (fuel bp : ℕ) : Option Heap := do
  let f ← h.freep
  let p ← h.findGap bp fuel f
  let h ← h.linkNext bp p
  let h ← h.linkPrev bp p
  return { h with freep := some p }

/-- `sys_brk(&brk)`, the first time. -/
def initBrk (grant : Bool) : Heap :=
  if h.brk = 0 then { (h.sysBrk grant 0).2 with brk := (h.sysBrk grant 0).1 } else h

/-- `morecore_brk_locked`. -/
def morecoreBrk (fuel nu : ℕ) (grant : Bool) : Option (Bool × Heap) :=
  let h := h.initBrk grant
  if h.brk = 0 then some (false, h)
  else
    let p := h.brk
    let newbrk := (h.sysBrk grant ((p + nu * HEADER) % WORD)).1
    let h := (h.sysBrk grant ((p + nu * HEADER) % WORD)).2
    if newbrk ≤ p then some (false, h)
    else do
      let h ← h.set p fun x => { x with size := (newbrk - p) / HEADER, type := false }
      let h ← h.freeLocked fuel p
      return (true, { h with brk := newbrk })

/-- The size that `morecore_shmem_locked` asks for. -/
def shmemSize (nu : ℕ) : ℕ := (nu * HEADER + 0xfff) % WORD / PGSIZE * PGSIZE

/-- `morecore_shmem_locked`. -/
def morecoreShmem (fuel nu : ℕ) (grant : Option ℕ) : Option (Bool × Heap) :=
  match h.sysShmem grant (shmemSize nu) with
  | none => some (false, h)
  | some (p, h) => do
    let h ← h.set p fun x => { x with size := shmemSize nu / HEADER, type := true }
    let h ← h.freeLocked fuel p
    return (true, h)

/-- `morecore_locked`, of a type. -/
def morecore (fuel nu : ℕ) (type : Bool) (grant : Option ℕ) : Option (Bool × Heap) :=
  if type then h.morecoreShmem fuel nu grant else h.morecoreBrk fuel nu grant.isSome

end Heap

/-- A call of `malloc_locked` at the head of its loop; `asked` counts its calls of `morecore_locked`. -/
structure Call where
  size : ℕ
  type : Bool
  prevp : ℕ
  p : ℕ
  asked : ℕ
  deriving DecidableEq, Repr

/-- The units of a request. -/
def units (size : ℕ) : ℕ := (size + HEADER - 1) % WORD / HEADER + 1

def Call.nunits (c : Call) : ℕ := units c.size

/-- The block is of the type of the call, and large enough. -/
def Call.fits (c : Call) (x : Header) : Bool := x.type = c.type && c.nunits ≤ x.size

/-- `malloc_locked` takes the block at `p`, or the front of it. -/
def Heap.take (h : Heap) (c : Call) : Option Heap := do
  let x ← h.mem c.p
  let h ←
    if x.size = c.nunits then h.set c.prevp fun y => { y with ptr := x.ptr }
    else do
      let np := (c.p + c.nunits * HEADER) % WORD
      let h ← h.set c.prevp fun y => { y with ptr := np }
      let x ← h.mem c.p
      let h ← h.set np fun _ => ⟨x.ptr, x.size - c.nunits, c.type⟩
      h.set c.p fun y => { y with size := c.nunits }
  return { h with freep := some c.prevp }

/-- The heap and the call that is in it; the blocks that were handed out and not freed, and what the last
step has returned, if it was the end of a call: no function reads these. -/
structure Sys where
  heap : Heap
  call : Option Call
  live : List ℕ
  result : Option (Call × Option ℕ)

inductive Act where
  | malloc (size : ℕ) (type : Bool)
  | visit (grant : Option ℕ)
  | free (bp : ℕ)
  deriving DecidableEq, Repr

namespace Sys

variable (s : Sys)

/-- The head of `malloc_locked`. -/
def malloc (base size : ℕ) (type : Bool) : Option Sys := do
  let heap ←
    match s.heap.freep with
    | some _ => some s.heap
    | none => (s.heap.set base fun x => { x with ptr := base, size := 0 }).map fun h =>
      { h with freep := some base }
  let prevp ← heap.freep
  let x ← heap.mem prevp
  return { s with heap, call := some ⟨size, type, prevp, x.ptr, 0⟩, result := none }

/-- A round of the loop of `malloc_locked`. -/
def visit (fuel : ℕ) (grant : Option ℕ) : Option Sys := do
  let c ← s.call
  let x ← s.heap.mem c.p
  if c.fits x then
    let heap ← s.heap.take c
    return ⟨heap, none, c.p :: s.live, some (c, some (c.p + HEADER))⟩
  else if s.heap.freep = some c.p then
    let (ok, heap) ← s.heap.morecore fuel c.nunits c.type grant
    let c := { c with asked := c.asked + 1 }
    if ok then
      let x ← heap.mem c.p
      return { s with heap, call := some { c with prevp := c.p, p := x.ptr }, result := none }
    else return { s with heap, call := none, result := some (c, none) }
  else return { s with call := some { c with prevp := c.p, p := x.ptr }, result := none }

/-- `free`. -/
def free (fuel bp : ℕ) : Option Sys := do
  let heap ← s.heap.freeLocked fuel bp
  return { s with heap, live := s.live.erase bp, result := none }

/-- One step. -/
def step (base fuel : ℕ) : Act → Option Sys
  | .malloc size type => s.malloc base size type
  | .visit grant => s.visit fuel grant
  | .free bp => s.free fuel bp

/-- A call begins when none is in the heap. -/
def Enabled : Act → Prop
  | .malloc size _ => s.call = none ∧ size < WORD
  | .visit _ => s.call ≠ none
  | .free bp => s.call = none ∧ bp ∈ s.live

instance : (a : Act) → Decidable (s.Enabled a)
  | .malloc _ _ => inferInstanceAs (Decidable (_ ∧ _))
  | .visit _ => inferInstanceAs (Decidable (_ ≠ _))
  | .free _ => inferInstanceAs (Decidable (_ ∧ _))

end Sys

/-- A block of the free list. -/
inductive Heap.Free (h : Heap) : ℕ → Prop
  | head {p : ℕ} (hp : h.freep = some p) : Free h p
  | next {p : ℕ} {x : Header} (hp : Free h p) (hx : h.mem p = some x) : Free h x.ptr

/-- A run in which every step meets a condition on the state before it. -/
inductive RunIf (P : Sys → Act → Prop) (base : ℕ) (s₀ : Sys) : Sys → Prop
  | nil : RunIf P base s₀ s₀
  | cons {s s' : Sys} {a : Act} (fuel : ℕ) (hrun : RunIf P base s₀ s) (hmeets : P s a) (henabled : s.Enabled a)
      (hstep : s.step base fuel a = some s') : RunIf P base s₀ s'

end Ucore.Malloc
