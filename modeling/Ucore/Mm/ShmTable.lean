import Ucore.Mm.Pmm

/-!
# The entry table of a shared memory object

Reference model of `kern/mm/shmem.c`, over the pages and the swap entries of `Sys`: the list of nodes with its
one-node cache, the pages that the nodes' entries are in, and the references that the entries hold.

* a `shmn_t *` is the address that `kmalloc` has returned, a `pte_t *` is a frame and an index in it;
* `kmalloc` returns `NULL` or a free address, `alloc_page` what the environment of the call decides;
* a failed assertion, and a pointer to nothing, is no result.
-/

namespace Ucore

namespace Sys

variable (s : Sys)

/-- What `shmem_remove_entry_pte` does with the value of an entry. -/
def dropPte : Pte → Option Sys
  | .zero => some s
  | .page f perm =>
    if ¬ s.pageSwap f then
      let s := s.pageRefDec f
      some (if s.pageRef f = 0 then s.freePage f else s)
    else
      let s := if perm.d then s.setPageDirty f true else s
      some (s.pageRefDec f)
  | .swap o => s.swapRemoveEntry o

/-- What `shmem_insert_entry` does with the value of an entry. -/
def takePte : Pte → Option Sys
  | .zero => some s
  | .page f _ => some (s.pageRefInc f)
  | .swap o => s.swapDuplicate o

/-- `page_remove_pte` does the same, and clears the entry. -/
theorem pageRemovePte_eq (x : Loc) : s.pageRemovePte x = (s.dropPte (s.pte x)).map fun s => s.setPte x .zero := by
  unfold pageRemovePte
  cases hx : s.pte x with
  | zero =>
    simp only [dropPte, Option.map_some, Sys.setPte, ← hx]
    rw [Function.update_eq_self]
  | page f perm =>
    simp only [dropPte]
    split <;> rfl
  | swap o => rfl

end Sys

namespace Shmn

/-- `SHMN_NENTRY`. -/
def SHMN_NENTRY : ℕ := PGSIZE / 4

/-- The bytes that a node covers. -/
def NODESIZE : ℕ := PGSIZE * SHMN_NENTRY

/-- `shmn_t`, without its link; `stop` is `end`, and `entry` the frame of the entries. -/
structure Node where
  start : ℕ
  stop : ℕ
  entry : ℕ
  deriving DecidableEq, Repr

/-- `pte_t *`. -/
abbrev Slot := ℕ × ℕ

/-- `struct shmem_struct`, without its references and its semaphore, and the memory that it is in. -/
structure Shmem where
  sys : Sys
  mem : Slot → Pte
  shmn : ℕ → Option Node
  shmnList : List ℕ
  shmnCache : Option ℕ
  len : ℕ

namespace Shmem

variable (s : Shmem)

/-- `*ptep = e`. -/
def setMem (x : Slot) (e : Pte) : Shmem := { s with mem := Function.update s.mem x e }

/-- `shmn_create`.  The assertion multiplies the remainder, as `%` and `*` group to the left. -/
def shmnCreate (kmalloc : Option ℕ) (env : Env) (start : ℕ) : Option (Option ℕ × Shmem) := do
  guard (start % PGSIZE * SHMN_NENTRY = 0)
  match kmalloc with
  | none => return (none, s)
  | some p =>
    match s.sys.allocPage env .shmn with
    | (none, sys) => return (none, { s with sys := sys })
    | (some f, sys) =>
      return (some p,
        { s with
          sys := sys
          mem := fun x => if x.1 = f then .zero else s.mem x
          shmn := Function.update s.shmn p (some ⟨start, wadd start NODESIZE, f⟩) })

/-- The loop of `find_shmn`. -/
def findLoop (addr : ℕ) : List ℕ → Option (Option ℕ)
  | [] => some none
  | p :: ps => do
    let tmp ← s.shmn p
    if tmp.start ≤ addr ∧ addr < tmp.stop then return some p else findLoop addr ps

/-- `shmn != NULL && shmn->start <= addr && addr < shmn->end`. -/
def inCache (addr : ℕ) : Option Bool :=
  match s.shmnCache with
  | none => some false
  | some p => (s.shmn p).map fun shmn => decide (shmn.start ≤ addr ∧ addr < shmn.stop)

/-- `find_shmn`. -/
def findShmn (addr : ℕ) : Option (Option ℕ × Shmem) := do
  let hit ← s.inCache addr
  let shmn ← if hit then some s.shmnCache else s.findLoop addr s.shmnList
  return (shmn, if shmn = none then s else { s with shmnCache := shmn })

/-- `check_shmn_overlap`. -/
def checkShmnOverlap (prev next : Node) : Prop :=
  prev.start < prev.stop ∧ prev.stop ≤ next.start ∧ next.start < next.stop

instance (prev next : Node) : Decidable (checkShmnOverlap prev next) := inferInstanceAs (Decidable (_ ∧ _))

/-- The loop of `insert_shmn`: the nodes up to `le_prev`, and the others. -/
def splitLoop (start : ℕ) : List ℕ → Option (List ℕ × List ℕ)
  | [] => some ([], [])
  | p :: ps => do
    let prev ← s.shmn p
    if prev.start > start then return ([], p :: ps)
    else
      let (front, back) ← splitLoop start ps
      return (p :: front, back)

/-- The check of two neighbours; the list's head is not checked. -/
def checkPair (prev next : Option ℕ) : Option Unit :=
  match prev, next with
  | some p, some q => do
    let prev ← s.shmn p
    let next ← s.shmn q
    guard (checkShmnOverlap prev next)
  | _, _ => some ()

/-- `insert_shmn`. -/
def insertShmn (p : ℕ) : Option Shmem := do
  let shmn ← s.shmn p
  let (front, back) ← s.splitLoop shmn.start s.shmnList
  s.checkPair front.getLast? (some p)
  s.checkPair (some p) back.head?
  return { s with shmnList := front ++ p :: back }

/-- The end of `shmem_get_entry`: a missing page is allocated if wanted. -/
def entryPage (env : Env) (p addr : ℕ) (create : Bool) : Option (Option Slot × Shmem) := do
  let shmn ← s.shmn p
  let x : Slot := (shmn.entry, (addr - shmn.start) / PGSIZE)
  if s.mem x = .zero ∧ create = true then
    match s.sys.allocPage env .shmPage with
    | (none, sys) => return (some x, { s with sys := sys })
    | (some f, sys) =>
      return (some x, Shmem.setMem { s with sys := sys.pageRefInc f } x (.page f ⟨false, false, false, false⟩))
  else
    return (some x, s)

/-- `shmem_get_entry`. -/
def shmemGetEntry (kmalloc : Option ℕ) (env : Env) (addr : ℕ) (create : Bool) :
    Option (Option Slot × Shmem) := do
  guard (addr < s.len)
  let addr := rounddown addr
  let (shmn, s) ← s.findShmn addr
  match shmn with
  | some p =>
    let x ← s.shmn p
    guard (x.start ≤ addr ∧ addr < x.stop)
    s.entryPage env p addr create
  | none =>
    if create = true then
      let (shmn, s) ← s.shmnCreate kmalloc env (addr - addr % NODESIZE)
      match shmn with
      | none => return (none, s)
      | some p =>
        let s ← s.insertShmn p
        s.entryPage env p addr create
    else
      return (none, s)

/-- `shmem_remove_entry_pte`. -/
def shmemRemoveEntryPte (x : Slot) : Option Shmem :=
  (s.sys.dropPte (s.mem x)).map fun sys => Shmem.setMem { s with sys := sys } x .zero

/-- `shmem_insert_entry`. -/
def shmemInsertEntry (kmalloc : Option ℕ) (env : Env) (addr : ℕ) (entry : Pte) : Option (Int × Shmem) := do
  let (ptep, s) ← s.shmemGetEntry kmalloc env addr true
  match ptep with
  | none => return (-E_NO_MEM, s)
  | some x =>
    let s ← if s.mem x ≠ .zero then s.shmemRemoveEntryPte x else some s
    let sys ← s.sys.takePte entry
    return (0, Shmem.setMem { s with sys := sys } x entry)

/-- `shmem_remove_entry`. -/
def shmemRemoveEntry (kmalloc : Option ℕ) (env : Env) (addr : ℕ) : Option (Int × Shmem) :=
  s.shmemInsertEntry kmalloc env addr .zero

end Shmem

end Shmn

end Ucore
