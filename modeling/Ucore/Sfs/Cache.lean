import Mathlib.Logic.Function.Basic
import Mathlib.Data.Nat.Notation

/-!
# The inode cache and the reclaim protocol

Reference model of `lookup_sfs_nolock`, `sfs_load_inode` and `sfs_reclaim` of
`kern/fs/sfs/sfs_inode.c` with the reference counts of `kern/fs/vfs/inode.c`, run by any number of
processes.

A call is cut where the process can be switched out: while it waits for `fs_sem` (which `up` hands
to the process that has waited longest), during device transfers, and while `vop_fsync` waits for
the inode.  `Phase` says where a process is.  A failed assertion of `inode_ref_dec`, `sfs_reclaim`
or `inode_kill` is `none`.

* `State.step` — one step of one process; `State.Enabled` says when it can make it.
* `Reachable` — the states of all interleavings, from the mounted file system on.
-/

namespace Ucore.Icache

/-- `struct inode` with its `sfs_inode`, and what the protocol reads of the disk inode. -/
structure Inode where
  ino : ℕ
  refCount : ℕ
  openCount : ℕ
  reclaimCount : ℕ
  nlinks : ℕ
  dirty : Bool
  deriving DecidableEq, Repr

/-- Where a process is. -/
inductive Phase where
  /-- In none of the calls. -/
  | idle
  /-- In `sfs_load_inode`, from `lock_sfs_fs` on. -/
  | load (ino : ℕ)
  /-- In `sfs_load_inode` with `fs_sem`: the inode is not cached and is read. -/
  | read (ino : ℕ)
  /-- In `sfs_reclaim`, from `lock_sfs_fs` on. -/
  | reclaim (x : ℕ)
  /-- In `sfs_reclaim` with `fs_sem`: the blocks of an inode without links are freed. -/
  | truncate (x : ℕ)
  /-- In `sfs_reclaim` with `fs_sem`: in `vop_fsync`. -/
  | fsync (x : ℕ)
  /-- In `sfs_reclaim` after `unlock_sfs_fs`: the last blocks are freed. -/
  | release (x : ℕ)
  deriving DecidableEq, Repr

/-- An in-memory inode is named by the order of its allocation; `cache` is `inode_list`, which
`sfs_set_links` keeps together with the hash lists. -/
structure State where
  obj : ℕ → Inode
  next : ℕ
  cache : List ℕ
  /-- `fs_sem`: the process that has it, and those that wait. -/
  owner : Option ℕ
  queue : List ℕ
  phase : ℕ → Phase
  /-- The references: who has one to what. -/
  refs : List (ℕ × ℕ)
  /-- The references of open files. -/
  opens : List (ℕ × ℕ)
  /-- The inodes that were given to `vop_kill`, in reverse order. -/
  kills : List ℕ

namespace State

variable (s : State)

def setObj (x : ℕ) (i : Inode) : State := { s with obj := Function.update s.obj x i }

def setPhase (p : ℕ) (ph : Phase) : State := { s with phase := Function.update s.phase p ph }

/-- `lock_sfs_fs`, up to where the process has the semaphore or waits. -/
def lockFs (p : ℕ) : State :=
  match s.owner with
  | none => { s with owner := some p }
  | some _ => { s with queue := s.queue ++ [p] }

def unlockFs : State :=
  match s.queue with
  | [] => { s with owner := none }
  | q :: rest => { s with owner := some q, queue := rest }

/-- The cached inode of a number. -/
def find (ino : ℕ) : Option ℕ := s.cache.find? fun x => (s.obj x).ino = ino

/-- `vop_ref_inc`. -/
def refInc (p x : ℕ) : State :=
  { s.setObj x { s.obj x with refCount := (s.obj x).refCount + 1 } with refs := (p, x) :: s.refs }

/-- `lookup_sfs_nolock` once it has found `x`. -/
def lookupFound (p x : ℕ) : State :=
  let s := s.refInc p x
  if (s.obj x).refCount = 1 then
    s.setObj x { s.obj x with reclaimCount := (s.obj x).reclaimCount + 1 }
  else s

/-- `inode_ref_dec`: the process that drops the last reference goes on to `sfs_reclaim`. -/
def refDec (p x : ℕ) : Option State :=
  let i := s.obj x
  if 0 < i.refCount then
    let s := { s.setObj x { i with refCount := i.refCount - 1 } with refs := s.refs.erase (p, x) }
    if i.refCount - 1 = 0 then some ((s.setPhase p (.reclaim x)).lockFs p) else some s
  else none

/-- `sfs_create_inode` and `sfs_set_links`, for process `p`. -/
def create (p ino nlinks : ℕ) : State :=
  { s.setObj s.next ⟨ino, 1, 0, 1, nlinks, false⟩ with
    next := s.next + 1
    cache := s.next :: s.cache
    refs := (p, s.next) :: s.refs }

/-- `sfs_remove_links`, after which the process gives `fs_sem` back. -/
def removeLinks (p x : ℕ) : State :=
  ({ s with cache := s.cache.erase x }.setPhase p (.release x)).unlockFs

/-- The return of a process from one of the calls that has `fs_sem`. -/
def leave (p : ℕ) : State := (s.setPhase p .idle).unlockFs

/-- `sfs_load_inode` with `fs_sem`; `fail` says that `kmalloc` found no memory. -/
def loadLocked (p ino : ℕ) (fail : Bool) : State :=
  match s.find ino with
  | some x => (s.lookupFound p x).leave p
  | none => if fail then s.leave p else s.setPhase p (.read ino)

/-- `sfs_reclaim` with `fs_sem`, up to the first transfer. -/
def reclaimLocked (p x : ℕ) : Option State :=
  let i := s.obj x
  if 0 < i.reclaimCount then
    let s := s.setObj x { i with reclaimCount := i.reclaimCount - 1 }
    if i.reclaimCount - 1 ≠ 0 then some (s.leave p)
    else if i.refCount = 0 ∧ i.openCount = 0 then
      if i.nlinks = 0 then some (s.setPhase p (.truncate x))
      else if i.dirty then some (s.setPhase p (.fsync x))
      else some (s.removeLinks p x)
    else none
  else none

/-- `vop_kill`. -/
def kill (p x : ℕ) : Option State :=
  if (s.obj x).refCount = 0 ∧ (s.obj x).openCount = 0 then
    some { s.setPhase p .idle with kills := x :: s.kills }
  else none

end State

/-- A step of a process. -/
inductive Act where
  | load (p ino : ℕ)
  | refInc (p x : ℕ)
  | refDec (p x : ℕ)
  /-- `vop_open_inc` and `vop_open_dec` by a process that has a reference. -/
  | openInc (p x : ℕ)
  | openDec (p x : ℕ)
  /-- Another operation on a referenced inode changes its disk inode. -/
  | modify (p x nlinks : ℕ) (dirty : Bool)
  /-- The process goes on; `fail` is the outcome of what it waited for, `nlinks` what it read. -/
  | run (p : ℕ) (fail : Bool) (nlinks : ℕ)
  deriving DecidableEq, Repr

namespace State

variable (s : State)

/-- The process can make the step.  What `sfs_load_inode` reads is an inode with links. -/
def Enabled : Act → Prop
  | .load p _ => s.phase p = .idle
  | .refInc p x => s.phase p = .idle ∧ (p, x) ∈ s.refs
  | .refDec p x => s.phase p = .idle ∧ s.opens.count (p, x) < s.refs.count (p, x)
  | .openInc p x => s.phase p = .idle ∧ s.opens.count (p, x) < s.refs.count (p, x)
  | .openDec p x => s.phase p = .idle ∧ (p, x) ∈ s.opens
  | .modify p x _ _ => s.phase p = .idle ∧ (p, x) ∈ s.refs
  | .run p _ nlinks =>
    match s.phase p with
    | .idle => False
    | .release _ => True
    | .read _ => s.owner = some p ∧ nlinks ≠ 0
    | _ => s.owner = some p

def step : Act → Option State
  | .load p ino => some ((s.setPhase p (.load ino)).lockFs p)
  | .refInc p x => some (s.refInc p x)
  | .refDec p x => s.refDec p x
  | .openInc p x =>
    let i := s.obj x
    some { s.setObj x { i with openCount := i.openCount + 1 } with opens := (p, x) :: s.opens }
  | .openDec p x =>
    let i := s.obj x
    some { s.setObj x { i with openCount := i.openCount - 1 } with opens := s.opens.erase (p, x) }
  | .modify _ x nlinks dirty => some (s.setObj x { s.obj x with nlinks, dirty })
  | .run p fail nlinks =>
    match s.phase p with
    | .idle => some s
    | .load ino => some (s.loadLocked p ino fail)
    | .read ino => some (if fail then s.leave p else (s.create p ino nlinks).leave p)
    | .reclaim x => s.reclaimLocked p x
    | .truncate x => some (s.removeLinks p x)
    | .fsync x =>
      if fail then some (s.leave p)
      else some ((s.setObj x { s.obj x with dirty := false }).removeLinks p x)
    | .release x => s.kill p x

end State

/-- The mounted file system, before the first inode is loaded. -/
def mounted : State where
  obj _ := ⟨0, 0, 0, 0, 0, false⟩
  next := 0
  cache := []
  owner := none
  queue := []
  phase _ := .idle
  refs := []
  opens := []
  kills := []

inductive Reachable : State → Prop where
  | mounted : Reachable mounted
  | step {s t : State} {a : Act} (hr : Reachable s) (he : s.Enabled a) (hs : s.step a = some t) :
      Reachable t

end Ucore.Icache
