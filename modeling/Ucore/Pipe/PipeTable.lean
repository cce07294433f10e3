import Mathlib.Logic.Function.Basic
import Mathlib.Data.Nat.Notation

/-!
# The table of named pipes

Reference model of `pipe_root_create` and `pipe_root_lookup` (`kern/fs/pipe/pipe_root.c`), of
`pipe_create_inode` and `pipe_inode_reclaim` (`pipe_inode.c`), of the `ref_count` of a `pipe_state`
(`pipe_state.c`) and of the reference counts of `kern/fs/vfs/inode.c`, run by any number of processes.

A call is cut where the process can be switched out: while it waits for `pipe_sem` (which `up` hands to the
process that has waited longest), and in `kmalloc`, which waits for `kswapd` when memory is short.  `Phase`
says where a process is.  A failed assertion is `none`.  The pipes of `pipe_open` have no name and are not in
the table.

* `State.step` — one step of one process; `State.Enabled` says when it can make it.
* `Reachable` — the states of all interleavings, from `pipe_fs_init` on.
-/

namespace Ucore.PipeFs

/-- `struct inode` with its `pipe_inode`; `readonly` is `pin_type`. -/
structure Inode (N : Type) where
  name : N
  readonly : Bool
  state : ℕ
  refCount : ℕ
  openCount : ℕ
  reclaimCount : ℕ
  deriving DecidableEq, Repr

/-- What follows a `vop_ref_dec`: nothing, or the rest of `pipe_root_create` from `out` on, with `node[1]`. -/
inductive Cont where
  | done
  | out (node : Option ℕ)
  deriving DecidableEq, Repr

/-- Where a process is. -/
inductive Phase (N : Type) where
  /-- In none of the calls. -/
  | idle
  /-- In `pipe_root_create`, from `lock_pipe` on. -/
  | create (name : N) (readonly excl : Bool)
  /-- In `pipe_root_create` with `pipe_sem`: in `pipe_state_create`. -/
  | makeState (name : N) (readonly : Bool)
  /-- In `pipe_root_create` with `pipe_sem`: in `pipe_create_inode`. -/
  | makeInode (name : N) (readonly : Bool) (state : ℕ) (node : Option ℕ)
  /-- In `pipe_root_lookup`, from `lock_pipe` on. -/
  | lookup (name : N) (readonly : Bool)
  /-- In `pipe_inode_reclaim`, from `lock_pipe` on. -/
  | reclaim (x : ℕ) (k : Cont)
  deriving DecidableEq, Repr

/-- Inodes and pipe states are named by the order of their allocation. -/
structure State (N : Type) where
  obj : ℕ → Inode N
  next : ℕ
  /-- `pipe_list`. -/
  list : List ℕ
  /-- `ref_count` of a `pipe_state`. -/
  refCount : ℕ → ℕ
  nextState : ℕ
  /-- `pipe_sem`: the process that has it, and those that wait. -/
  owner : Option ℕ
  queue : List ℕ
  phase : ℕ → Phase N
  /-- The references: who has one to what. -/
  refs : List (ℕ × ℕ)
  /-- The references of open files. -/
  opens : List (ℕ × ℕ)
  /-- The inodes that were given to `vop_kill`, and the states that were freed, in reverse order. -/
  kills : List ℕ
  frees : List ℕ

namespace State

variable {N : Type} [DecidableEq N] (s : State N)

def setObj (x : ℕ) (i : Inode N) : State N := { s with obj := Function.update s.obj x i }

def setPhase (p : ℕ) (ph : Phase N) : State N := { s with phase := Function.update s.phase p ph }

/-- `lock_pipe`, up to where the process has the semaphore or waits. -/
def lockPipe (p : ℕ) : State N :=
  match s.owner with
  | none => { s with owner := some p }
  | some _ => { s with queue := s.queue ++ [p] }

def unlockPipe : State N :=
  match s.queue with
  | [] => { s with owner := none }
  | q :: rest => { s with owner := some q, queue := rest }

/-- `vop_ref_inc`. -/
def refInc (p x : ℕ) : State N :=
  { s.setObj x { s.obj x with refCount := (s.obj x).refCount + 1 } with refs := (p, x) :: s.refs }

/-- `lookup_pipe_nolock` once it has found `x`. -/
def lookupFound (p x : ℕ) : State N :=
  let s := s.refInc p x
  if (s.obj x).refCount = 1 then
    s.setObj x { s.obj x with reclaimCount := (s.obj x).reclaimCount + 1 }
  else s

/-- The loop of `lookup_pipe_nolock`. -/
def lookupPipe (p : ℕ) (name : N) : List ℕ → State N → Option ℕ → Option ℕ →
    Option (State N × Option ℕ × Option ℕ)
  | [], s, rnode, wnode => some (s, rnode, wnode)
  | x :: rest, s, rnode, wnode =>
    if (s.obj x).name = name then
      if (s.obj x).readonly then
        if rnode = none then lookupPipe p name rest (s.lookupFound p x) (some x) wnode else none
      else if wnode = none then lookupPipe p name rest (s.lookupFound p x) rnode (some x) else none
    else lookupPipe p name rest s rnode wnode

/-- `lookup_pipe_nolock`, and the swap of the two ends: `node[0]` is the one that is asked for. -/
def lookupNodes (p : ℕ) (name : N) (readonly : Bool) : Option (State N × Option ℕ × Option ℕ) :=
  (lookupPipe p name s.list s none none).map fun (s, rnode, wnode) =>
    if readonly then (s, rnode, wnode) else (s, wnode, rnode)

/-- `inode_ref_dec`: the process that drops the last reference goes on to `pipe_inode_reclaim`, and then to `k`;
else it goes on with `rest`. -/
def refDec (p x : ℕ) (k : Cont) (rest : State N → Option (State N)) : Option (State N) :=
  let i := s.obj x
  if 0 < i.refCount then
    let s := { s.setObj x { i with refCount := i.refCount - 1 } with refs := s.refs.erase (p, x) }
    if i.refCount - 1 = 0 then some ((s.setPhase p (.reclaim x k)).lockPipe p) else rest s
  else none

/-- The last `vop_ref_dec` of a call. -/
def drop (p x : ℕ) : Option (State N) := s.refDec p x .done some

/-- The end of a call that has `pipe_sem`. -/
def leave (p : ℕ) : State N := (s.setPhase p .idle).unlockPipe

/-- The end of `pipe_root_create` and of `pipe_root_lookup`, with `node[1]`. -/
def out (p : ℕ) : Option ℕ → Option (State N)
  | none => some (s.leave p)
  | some y => (s.leave p).drop p y

/-- `pipe_state_acquire`. -/
def acquire (st : ℕ) : Option (State N) :=
  if 0 < s.refCount st then some { s with refCount := Function.update s.refCount st (s.refCount st + 1) } else none

/-- `pipe_state_release`. -/
def release (st : ℕ) : Option (State N) :=
  if 0 < s.refCount st then
    let s := { s with refCount := Function.update s.refCount st (s.refCount st - 1) }
    if s.refCount st = 0 then some { s with frees := st :: s.frees } else some s
  else none

/-- `vop_kill`. -/
def kill (x : ℕ) : Option (State N) :=
  if (s.obj x).refCount = 0 ∧ (s.obj x).openCount = 0 then some { s with kills := x :: s.kills } else none

/-- `pipe_root_create` with `pipe_sem`, up to the first `kmalloc`. -/
def createLocked (p : ℕ) (name : N) (readonly excl : Bool) : Option (State N) :=
  (s.lookupNodes p name readonly).bind fun (s, node0, node1) =>
    match node0, node1 with
    | some x, _ => if excl then s.refDec p x (.out node1) (·.out p node1) else s.out p node1
    | none, none => some (s.setPhase p (.makeState name readonly))
    | none, some y =>
      (s.acquire (s.obj y).state).map (·.setPhase p (.makeInode name readonly (s.obj y).state (some y)))

/-- `pipe_root_create` after `pipe_state_create`; `ok` says that there was memory. -/
def madeState (p : ℕ) (name : N) (readonly ok : Bool) : Option (State N) :=
  if ok then
    some ({ s with
      refCount := Function.update s.refCount s.nextState 1
      nextState := s.nextState + 1 }.setPhase p (.makeInode name readonly s.nextState none))
  else s.out p none

/-- `pipe_create_inode` and `list_add`. -/
def addInode (p : ℕ) (name : N) (readonly : Bool) (st : ℕ) : State N :=
  { s.setObj s.next ⟨name, readonly, st, 1, 0, 1⟩ with
    next := s.next + 1
    list := s.next :: s.list
    refs := (p, s.next) :: s.refs }

/-- `pipe_root_create` after `pipe_create_inode`; `ok` says that there was memory. -/
def madeInode (p : ℕ) (name : N) (readonly : Bool) (st : ℕ) (node : Option ℕ) (ok : Bool) : Option (State N) :=
  if ok then (s.addInode p name readonly st).out p node else (s.release st).bind (·.out p node)

/-- What follows `pipe_inode_reclaim`. -/
def resume (p : ℕ) : Cont → Option (State N)
  | .done => some (s.setPhase p .idle)
  | .out node => s.out p node

/-- `pipe_inode_reclaim` with `pipe_sem`. -/
def reclaimLocked (p x : ℕ) (k : Cont) : Option (State N) :=
  let i := s.obj x
  if 0 < i.reclaimCount then
    let s := s.setObj x { i with reclaimCount := i.reclaimCount - 1 }
    if i.reclaimCount - 1 ≠ 0 ∨ i.refCount ≠ 0 then s.unlockPipe.resume p k
    else
      ({ s with list := s.list.erase x }.unlockPipe.release i.state).bind fun s =>
        (s.kill x).bind (·.resume p k)
  else none

end State

/-- A step of a process. -/
inductive Act (N : Type) where
  | create (p : ℕ) (name : N) (readonly excl : Bool)
  | lookup (p : ℕ) (name : N) (readonly : Bool)
  | refInc (p x : ℕ)
  | refDec (p x : ℕ)
  /-- `vop_open_inc` and `vop_open_dec` by a process that has a reference. -/
  | openInc (p x : ℕ)
  | openDec (p x : ℕ)
  /-- The process goes on; `ok` is the outcome of the `kmalloc` that it was in. -/
  | run (p : ℕ) (ok : Bool)
  deriving DecidableEq, Repr

namespace State

variable {N : Type} [DecidableEq N] (s : State N)

/-- The process can make the step: it is outside, or does not wait for the semaphore. -/
def Enabled : Act N → Prop
  | .create p _ _ _ => s.phase p = .idle
  | .lookup p _ _ => s.phase p = .idle
  | .refInc p x => s.phase p = .idle ∧ (p, x) ∈ s.refs
  | .refDec p x => s.phase p = .idle ∧ s.opens.count (p, x) < s.refs.count (p, x)
  | .openInc p x => s.phase p = .idle ∧ s.opens.count (p, x) < s.refs.count (p, x)
  | .openDec p x => s.phase p = .idle ∧ (p, x) ∈ s.opens
  | .run p _ => s.phase p ≠ .idle ∧ p ∉ s.queue

def step : Act N → Option (State N)
  | .create p name readonly excl => some ((s.setPhase p (.create name readonly excl)).lockPipe p)
  | .lookup p name readonly => some ((s.setPhase p (.lookup name readonly)).lockPipe p)
  | .refInc p x => some (s.refInc p x)
  | .refDec p x => s.drop p x
  | .openInc p x =>
    let i := s.obj x
    some { s.setObj x { i with openCount := i.openCount + 1 } with opens := (p, x) :: s.opens }
  | .openDec p x =>
    let i := s.obj x
    some { s.setObj x { i with openCount := i.openCount - 1 } with opens := s.opens.erase (p, x) }
  | .run p ok =>
    match s.phase p with
    | .idle => some s
    | .create name readonly excl => s.createLocked p name readonly excl
    | .makeState name readonly => s.madeState p name readonly ok
    | .makeInode name readonly st node => s.madeInode p name readonly st node ok
    | .lookup name readonly => (s.lookupNodes p name readonly).bind fun (s, _, node1) => s.out p node1
    | .reclaim x k => s.reclaimLocked p x k

end State

/-- `pipe_fs_init`. -/
def pipeFsInit (N : Type) [Inhabited N] : State N where
  obj _ := ⟨default, true, 0, 0, 0, 0⟩
  next := 0
  list := []
  refCount _ := 0
  nextState := 0
  owner := none
  queue := []
  phase _ := .idle
  refs := []
  opens := []
  kills := []
  frees := []

inductive Reachable {N : Type} [DecidableEq N] [Inhabited N] : State N → Prop where
  | init : Reachable (pipeFsInit N)
  | step {s t : State N} {a : Act N} (hr : Reachable s) (he : s.Enabled a) (hs : s.step a = some t) : Reachable t

end Ucore.PipeFs
