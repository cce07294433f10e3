import Ucore.Mm.PteWrite
import Ucore.Mm.UserMem
import Ucore.Mm.VmmRun

/-!
# Page faults of several threads

Reference model of `lock_mm`, `try_lock_mm`, `unlock_mm` and `do_pgfault` (`kern/mm/vmm.c`) for threads
that share an address space.  The processor decides the error code when the fault is raised;
`do_pgfault` compares it with the page table entry when it has the lock.  A thread gives up the
processor in `lock_mm`, in `alloc_page` and in `swap_in_page`, and what it does between two such places
is one step.
-/

namespace Ucore.Fault

open Sys (ptep)

/-- A call of `do_pgfault`: its arguments, and `need_unlock`. -/
structure Call where
  errorCode : ℕ
  addr : ℕ
  needUnlock : Bool
  deriving DecidableEq, Repr

/-- `ROUNDDOWN(addr, PGSIZE)`. -/
def Call.la (c : Call) : ℕ := rounddown c.addr

/-- `error_code & 2`. -/
def Call.write (c : Call) : Bool := decide (c.errorCode / 2 % 2 = 1)

/-- The access that the processor has refused. -/
def Call.access (c : Call) : Access := if c.write then .store else .load

/-- Where a thread is. -/
inductive Pc where
  /-- not in `do_pgfault` -/
  | run
  /-- asleep in `lock_mm`, which `do_pgfault` or some other function has called -/
  | wait (call : Option Call)
  /-- before `find_vma` -/
  | locked (c : Call)
  /-- in the `alloc_page` of `get_pte` -/
  | table (c : Call) (vma : Vma)
  /-- the entry is zero; in `pgdir_alloc_page` or `shmem_get_entry` -/
  | empty (c : Call) (vma : Vma)
  /-- in `newpage = alloc_page()` -/
  | newpage (c : Call) (vma : Vma)
  /-- in `swap_in_page` for the swap entry `o` -/
  | swapIn (c : Call) (vma : Vma) (o : ℕ) (newpage : Option ℕ)
  /-- `do_pgfault` has returned -/
  | ret (c : Call) (ret : Int)

/-- The VMA that a call has found. -/
def Pc.area : Pc → Option (Call × Vma)
  | .table c vma | .empty c vma | .newpage c vma | .swapIn c vma _ _ => some (c, vma)
  | _ => none

/-- An address space `mm`, its lock, and the threads that share it, by their pids; `lockedBy` is zero
if nobody is on record. -/
structure Threads where
  sys : Sys
  mm : Mm
  semValue : ℕ
  waitQueue : List ℕ
  lockedBy : ℕ
  pc : ℕ → Pc

namespace Threads

variable (s : Threads)

def setPc (t : ℕ) (pc : Pc) : Threads := { s with pc := Function.update s.pc t pc }

/-! ## The lock -/

/-- `down` succeeds. -/
def takeLock (t : ℕ) (pc : Pc) : Threads :=
  { s with semValue := s.semValue - 1, lockedBy := t }.setPc t pc

/-- `down` sleeps. -/
def sleep (t : ℕ) (call : Option Call) : Threads :=
  { s with waitQueue := s.waitQueue ++ [t] }.setPc t (.wait call)

/-- `unlock_mm`: `up` hands the lock to the first thread in the queue. -/
def unlockMm : Threads :=
  match s.waitQueue with
  | [] => { s with semValue := s.semValue + 1, lockedBy := 0 }
  | _ :: ts => { s with waitQueue := ts, lockedBy := 0 }

/-! ## `do_pgfault` -/

/-- `do_pgfault` up to the lock. -/
def enter (t errorCode addr : ℕ) : Threads :=
  if s.semValue > 0 then s.takeLock t (.locked ⟨errorCode, addr, true⟩)
  else if s.lockedBy = t then s.setPc t (.locked ⟨errorCode, addr, false⟩)
  else s.sleep t (some ⟨errorCode, addr, true⟩)

/-- `do_pgfault` from `failed` on. -/
def finish (t : ℕ) (c : Call) (ret : Int) : Threads :=
  if c.needUnlock then (s.setPc t (.ret c ret)).unlockMm else s.setPc t (.ret c ret)

/-- The rights of the pages of a VMA. -/
def perm (vma : Vma) : Perm := ⟨true, decide (vma.vmFlags &&& VM_WRITE ≠ 0), false, false⟩

/-- `assert(!(*ptep & PTE_P) || ((error_code & 2) && !(*ptep & PTE_W) && cow))`. -/
def pteAssert (e : Pte) (c : Call) (vma : Vma) : Bool :=
  match e with
  | .page _ p => c.write && !p.w && Sys.isCow vma
  | _ => true

/-- `do_pgfault` once the entry exists. -/
def entry (t : ℕ) (c : Call) (vma : Vma) : Option Threads :=
  match s.sys.pte (ptep s.mm.self c.la) with
  | .zero => some (s.setPc t (.empty c vma))
  | .page f p =>
    if pteAssert (.page f p) c vma then some (s.setPc t (.newpage c vma)) else none
  | .swap o =>
    if Sys.isCow vma then some (s.setPc t (.newpage c vma))
    else some (s.setPc t (.swapIn c vma o none))

/-- `do_pgfault` from `find_vma` on. -/
def locked (t : ℕ) (c : Call) : Option Threads := do
  let (v, mm) ← s.mm.findVma c.addr
  let s := { s with mm := mm }
  match v.map mm.vma with
  | none => some (s.finish t c (-E_INVAL))
  | some vma =>
    if Sys.pgfaultAllowed vma c.errorCode c.addr then
      match s.sys.pde mm.self (c.la / PTSIZE) with
      | none => some (s.setPc t (.table c vma))
      | some _ => s.entry t c vma
    else some (s.finish t c (-E_INVAL))

/-- The end of `do_pgfault`: the page `f` is mapped, or a copy of it. -/
def map (env : Env) (t : ℕ) (c : Call) (f : ℕ) (newpage : Option ℕ) (mayCopy : Bool) (fail : Int)
    (perm : Perm) : Option Threads := do
  let (ret, sys) ← s.sys.pgfaultMap env s.mm.self c.la f newpage mayCopy fail perm
  return { s with sys := sys }.finish t c ret

/-- A thread goes on in `do_pgfault`, to the next place where it gives up the processor; a failed
assertion is `none`. -/
def go (env : Env) (t : ℕ) : Option Threads :=
  match s.pc t with
  | .locked c => s.locked t c
  | .table c vma =>
    match s.sys.allocPage env (.table c.la) with
    | (none, sys) => some ({ s with sys := sys }.finish t c (-E_NO_MEM))
    | (some f, sys) => { s with sys := sys.addTable s.mm.self (c.la / PTSIZE) f }.entry t c vma
  | .empty c vma => do
    let (ret, sys) ← s.sys.pgfaultEmpty env s.mm.self vma c.la (perm vma)
    return { s with sys := sys }.finish t c ret
  | .newpage c vma =>
    let (newpage, sys) := s.sys.allocPage env .newpage
    let s := { s with sys := sys }
    match sys.pte (ptep s.mm.self c.la) with
    | .zero => none
    | .page f _ => s.map env t c f newpage true (-E_NO_MEM) (perm vma)
    | .swap o => some (s.setPc t (.swapIn c vma o newpage))
  | .swapIn c vma o newpage => do
    let (ret, f, sys) ← s.sys.swapInPage env o
    if ret ≠ 0 then return { s with sys := Sys.freeNewpage newpage sys }.finish t c ret
    else
      let readOnly := !c.write && Sys.isCow vma
      { s with sys := sys }.map env t c f newpage (Sys.isCow vma && !readOnly) 0
        { perm vma with w := (perm vma).w && !readOnly }
  | _ => none

/-! ## Runs -/

end Threads

/-- What can happen next. -/
inductive Action where
  /-- an access of the thread raises a page fault -/
  | raise (t addr : ℕ) (acc : Access)
  /-- a thread that has been handed the lock goes on -/
  | resume (t : ℕ)
  | go (env : Env) (t : ℕ)
  /-- the access is repeated -/
  | back (t : ℕ)
  /-- another function calls `lock_mm`, `unlock_mm` -/
  | lock (t : ℕ)
  | unlock (t : ℕ)
  /-- the processor, the swap daemon and other address spaces -/
  | others (sys : Sys)

namespace Threads

variable (s : Threads)

/-- When an action can happen. -/
def Enabled : Action → Prop
  | .raise t addr acc => t ≠ 0 ∧ (∃ code, s.sys.accessFault s.mm.self addr acc = some code) ∧
      s.pc t = .run
  | .resume t => (∃ call, s.pc t = .wait call) ∧ t ∉ s.waitQueue
  | .go _ t => (∃ c, s.pc t = .locked c) ∨ ∃ x, (s.pc t).area = some x
  | .back t => ∃ c, s.pc t = .ret c 0
  | .lock t => t ≠ 0 ∧ s.pc t = .run ∧ s.lockedBy ≠ t
  | .unlock t => s.pc t = .run ∧ s.lockedBy = t ∧ t ≠ 0
  | .others sys => Sys.Leaves s.mm.self s.sys sys

def step : Action → Option Threads
  | .raise t addr acc => (s.sys.accessFault s.mm.self addr acc).map fun code => s.enter t code addr
  | .resume t =>
    match s.pc t with
    | .wait (some c) => some ({ s with lockedBy := t }.setPc t (.locked c))
    | .wait none => some ({ s with lockedBy := t }.setPc t .run)
    | _ => none
  | .go env t => s.go env t
  | .back t => some (s.setPc t .run)
  | .lock t => some (if s.semValue > 0 then s.takeLock t .run else s.sleep t none)
  | .unlock _ => some s.unlockMm
  | .others sys => some { s with sys := sys }

/-- The page of the call is accessible, for the access that has raised the fault. -/
def Accessible (c : Call) : Prop := s.sys.accessFault s.mm.self c.addr c.access = none

/-- The present pages of a shared area that may be written can be written. -/
def SharedWritable : Prop :=
  ∀ v ∈ s.mm.mmapList, ∀ a, (s.mm.vma v).Has a → (s.mm.vma v).vmFlags &&& VM_SHARE ≠ 0 →
    (s.mm.vma v).vmFlags &&& VM_WRITE ≠ 0 → ∀ p, s.sys.mapped s.mm.self a = some p → p.w = true

/-- No fault is under way. -/
structure Idle : Prop where
  mm : s.mm.Inv
  semValue : s.semValue = 1
  waitQueue : s.waitQueue = []
  lockedBy : s.lockedBy = 0
  pc : ∀ t, s.pc t = .run
  shared : s.SharedWritable

end Threads

/-- The states of the runs in which every step meets the condition `C`. -/
inductive Reaches (C : Threads → Action → Prop) : Threads → Prop where
  | idle {s : Threads} : s.Idle → Reaches C s
  | step {s s' : Threads} (a : Action) : Reaches C s → s.Enabled a → C s a → s.step a = some s' →
      Reaches C s'

end Ucore.Fault
