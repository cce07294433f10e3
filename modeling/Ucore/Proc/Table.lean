import Ucore.Lib.Chain
import Ucore.Lib.Circular
import Ucore.Sync.Sem

/-!
# The process table

Reference model of `kern/process/proc.c`: the list of all processes, the hash lists of the pids, the
links between parent, children and siblings, the thread groups, and the calls `do_fork`, `do_exit`,
`do_exit_thread`, `do_execve`, `do_kill` and `do_wait` on them.

A field of `proc_struct` is a function of the address of the structure, and the memory where there is
no structure holds arbitrary values.  `none` is a failed assertion, a `panic` or an access through
`NULL`.  The kernel is not preemptive: the table changes in the steps between two calls of `schedule`,
and `pc` tells in which call a process is when it has to give up the processor.
-/

namespace Ucore.Process

open Ksem (ProcState WT_INTERRUPTED)

def MAX_PROCESS : ℕ := 4096

def MAX_PID : ℤ := 8192

def WT_CHILD : UInt32 := 0x00000001 ||| WT_INTERRUPTED

def CLONE_THREAD : UInt32 := 0x00000200

def HASH_SHIFT : UInt32 := 10

/-- `hash32`. -/
def hash32 (val bits : UInt32) : UInt32 := (val * 0x9e370001) >>> (32 - bits)

/-- `pid_hashfn`. -/
def pidHashfn (pid : ℤ) : ℕ := (hash32 (UInt32.ofInt pid) HASH_SHIFT).toNat

/-- Where a process is. -/
inductive Pc where
  /-- in none of the calls below -/
  | run
  /-- in `do_fork`, before the new structure `c` gets its pid -/
  | fork (c : ℕ)
  /-- in the loop of `do_wait(pid)` -/
  | wait (pid : ℤ)
  /-- in `do_exit`, before the state is `PROC_ZOMBIE` -/
  | exit
  deriving DecidableEq, Repr

/-- The fields of the `proc_struct`s, and the variables of `proc.c`.  `live` tells where a structure
is allocated. -/
structure Table where
  live : ℕ → Bool
  state : ℕ → ProcState
  pid : ℕ → ℤ
  parent : ℕ → Option ℕ
  exiting : ℕ → Bool
  exitCode : ℕ → ℤ
  waitState : ℕ → UInt32
  cptr : ℕ → Option ℕ
  yptr : ℕ → Option ℕ
  optr : ℕ → Option ℕ
  /-- `thread_group.next` -/
  nextThread : ℕ → ℕ
  /-- `thread_group.prev` -/
  prevThread : ℕ → ℕ
  procList : List ℕ
  hashList : ℕ → List ℕ
  nrProcess : ℕ
  nextSafe : ℤ
  lastPid : ℤ
  idleproc : ℕ
  initproc : ℕ
  pc : ℕ → Pc

/-! ## `get_pid` -/

/-- A pass over the pids in use, with `last_pid` and `next_safe`; `true` tells to start again. -/
def scan : List ℤ → ℤ → ℤ → ℤ × ℤ × Bool
  | [], last, next => (last, next, false)
  | pid :: rest, last, next =>
    if pid = last then
      if last + 1 ≥ next then (if last + 1 ≥ MAX_PID then 1 else last + 1, MAX_PID, true)
      else scan rest (last + 1) next
    else if pid > last ∧ next > pid then scan rest last pid
    else scan rest last next

/-- The passes from `repeat` on, at most `fuel` of them. -/
def rescan (pids : List ℤ) : ℕ → ℤ → ℤ → Option (ℤ × ℤ)
  | 0, _, _ => none
  | fuel + 1, last, next =>
    match scan pids last next with
    | (last, next, true) => rescan pids fuel last next
    | (last, next, false) => some (last, next)

/-- `get_pid`: the new `last_pid`, which is the pid, and the new `next_safe`. -/
def getPid (pids : List ℤ) (last next : ℤ) : Option (ℤ × ℤ) :=
  if last + 1 ≥ MAX_PID then rescan pids MAX_PID.toNat 1 MAX_PID
  else if last + 1 ≥ next then rescan pids MAX_PID.toNat (last + 1) MAX_PID
  else some (last + 1, next)

namespace Table

variable (s : Table)

/-! ## Lists and links -/

/-- `alloc_proc`, at the address `c`. -/
def allocProc (c : ℕ) : Table :=
  { s with
    live := Function.update s.live c true
    state := Function.update s.state c .uninit
    pid := Function.update s.pid c (-1)
    parent := Function.update s.parent c none
    exiting := Function.update s.exiting c false
    waitState := Function.update s.waitState c 0
    cptr := Function.update s.cptr c none
    yptr := Function.update s.yptr c none
    optr := Function.update s.optr c none
    nextThread := Function.update s.nextThread c c
    prevThread := Function.update s.prevThread c c }

/-- `kfree(proc)`. -/
def kfree (p : ℕ) : Option Table :=
  if s.live p = true then some { s with live := Function.update s.live p false } else none

/-- `set_links`. -/
def setLinks (p : ℕ) : Option Table :=
  (s.parent p).map fun parent =>
    { s with
      procList := p :: s.procList
      yptr := Chain.assign (Function.update s.yptr p none) (s.cptr parent) (some p)
      optr := Function.update s.optr p (s.cptr parent)
      cptr := Function.update s.cptr parent (some p)
      nrProcess := s.nrProcess + 1 }

/-- `remove_links`. -/
def removeLinks (p : ℕ) : Option Table :=
  (s.parent p).map fun parent =>
    { s with
      procList := s.procList.erase p
      yptr := Chain.assign s.yptr (s.optr p) (s.yptr p)
      optr := Chain.assign s.optr (s.yptr p) (s.optr p)
      cptr := if s.yptr p = none then Function.update s.cptr parent (s.optr p) else s.cptr
      nrProcess := s.nrProcess - 1 }

/-- `hash_proc`. -/
def hashProc (p : ℕ) : Table :=
  { s with
    hashList := Function.update s.hashList (pidHashfn (s.pid p))
      (p :: s.hashList (pidHashfn (s.pid p))) }

/-- `unhash_proc`: `list_del` takes it out of the list that it is in. -/
def unhashProc (p : ℕ) : Table := { s with hashList := fun b => (s.hashList b).erase p }

/-- `find_proc`. -/
def findProc (pid : ℤ) : Option ℕ :=
  if 0 < pid ∧ pid < MAX_PID then
    (s.hashList (pidHashfn pid)).find? fun p => decide (s.pid p = pid)
  else none

/-- `list_add_before(&(p->thread_group), &(c->thread_group))`. -/
def addThread (p c : ℕ) : Table :=
  { s with
    nextThread := Circular.addNext s.nextThread s.prevThread p c
    prevThread := Circular.addPrev s.prevThread p c }

/-- `de_thread`; on a list with one entry `list_del_init` changes nothing. -/
def deThread (p : ℕ) : Table :=
  { s with
    nextThread := Circular.delNext s.nextThread s.prevThread p
    prevThread := Circular.delPrev s.nextThread s.prevThread p }

/-- `p`, `next_thread(p)` and so on until it is `p` again. -/
def threads (p : ℕ) : Option (List ℕ) := Circular.walk s.nextThread p (s.procList.length + 1) p

/-- `p->cptr`, and from there along `optr`. -/
def children (p : ℕ) : Option (List ℕ) := Chain.follow s.optr s.procList.length (s.cptr p)

/-- The children of several processes, one after the other. -/
def childrenOf : List ℕ → Option (List ℕ)
  | [] => some []
  | p :: ps => do
    let kids ← s.children p
    let rest ← childrenOf ps
    return kids ++ rest

/-! ## `do_fork` -/

/-- `wakeup_proc`. -/
def wakeupProc (p : ℕ) : Option Table :=
  if s.state p = .zombie then none
  else if s.state p ≠ .runnable then
    some
      { s with
        state := Function.update s.state p .runnable
        waitState := Function.update s.waitState p 0 }
  else some s

def setPc (p : ℕ) (pc : Pc) : Table := { s with pc := Function.update s.pc p pc }

/-- `do_fork` up to the calls that may block. -/
def forkBegin (p c : ℕ) : Option Table :=
  let s := s.allocProc c
  let s := { s with parent := Function.update s.parent c (some p) }
  if s.waitState p = 0 then some (s.setPc p (.fork c)) else none

/-- `do_fork` from `get_pid` on. -/
def forkEnd (p c : ℕ) (cloneFlags : UInt32) : Option Table := do
  let (last, next) ← getPid (s.procList.map s.pid) s.lastPid s.nextSafe
  let s := { s with pid := Function.update s.pid c last, lastPid := last, nextSafe := next }
  let s := s.hashProc c
  let s ← s.setLinks c
  let s := if cloneFlags &&& CLONE_THREAD ≠ 0 then s.addThread p c else s
  let s ← s.wakeupProc c
  return s.setPc p .run

/-- The end of a `do_fork` that fails. -/
def forkFail (p c : ℕ) : Option Table := do
  let s ← s.kfree c
  return s.setPc p .run

/-! ## `do_exit` -/

/-- `if (proc->wait_state == WT_CHILD) wakeup_proc(proc)`. -/
def wakeWaiting (p : ℕ) : Option Table :=
  if s.waitState p = WT_CHILD then s.wakeupProc p else some s

/-- The same for several processes. -/
def wakeWaitingAll : List ℕ → Table → Option Table
  | [], s => some s
  | p :: ps, s => do
    let s ← s.wakeWaiting p
    wakeWaitingAll ps s

/-- The first child of `p` goes to `h`. -/
def moveChild (p c h : ℕ) : Table :=
  { s with
    cptr := Function.update (Function.update s.cptr p (s.optr c)) h (some c)
    yptr := Chain.assign (Function.update s.yptr c none)
      (Function.update s.cptr p (s.optr c) h) (some c)
    optr := Function.update s.optr c (Function.update s.cptr p (s.optr c) h)
    parent := Function.update s.parent c (some h) }

/-- The new parent `h` of a zombie `c` is woken. -/
def wakeHeir (c h : ℕ) : Option Table := if s.state c = .zombie then s.wakeWaiting h else some s

/-- `while (current->cptr != NULL)` in `__do_exit`. -/
def moveChildren (p h : ℕ) : ℕ → Table → Option Table
  | 0, _ => none
  | fuel + 1, s =>
    match s.cptr p with
    | none => some s
    | some c => do
      let s ← (s.moveChild p c h).wakeHeir c h
      moveChildren p h fuel s

/-- The process that inherits the children of `p`. -/
def heir (p : ℕ) : ℕ := if s.nextThread p = p then s.initproc else s.nextThread p

/-- `__do_exit` of `p`, from where the state becomes `PROC_ZOMBIE`. -/
def becomeZombie (p : ℕ) : Option Table := do
  let s := { s with state := Function.update s.state p .zombie }
  let parent ← s.parent p
  let ts ← s.threads parent
  let s ← wakeWaitingAll ts s
  let h := s.heir p
  let s := s.deThread p
  moveChildren p h (s.procList.length + 1) s

/-- `__do_exit`. -/
def doExit (p : ℕ) : Option Table :=
  if p = s.idleproc then none
  else if p = s.initproc then none
  else s.becomeZombie p

/-- `do_exit_thread`. -/
def doExitThread (p : ℕ) (errorCode : ℤ) : Option Table :=
  { s with exitCode := Function.update s.exitCode p errorCode }.doExit p

/-- `__do_kill`. -/
def doKillProc (p : ℕ) (errorCode : ℤ) : Option Table :=
  if s.exiting p = true then some s
  else
    let s :=
      { s with
        exiting := Function.update s.exiting p true
        exitCode := Function.update s.exitCode p errorCode }
    if s.waitState p &&& WT_INTERRUPTED ≠ 0 then s.wakeupProc p else some s

/-- The loop of `do_exit`, over the other threads of the group. -/
def killAll (errorCode : ℤ) : List ℕ → Table → Option Table
  | [], s => some s
  | p :: ps, s => do
    let s ← s.doKillProc p errorCode
    killAll errorCode ps s

/-- `do_exit` up to `do_exit_thread`. -/
def exitGroup (p : ℕ) (errorCode : ℤ) : Option Table := do
  let ts ← s.threads p
  let s ← killAll errorCode ts.tail s
  return s.setPc p .exit

/-- `do_kill`. -/
def doKill (pid errorCode : ℤ) : Option Table :=
  match s.findProc pid with
  | some p => s.doKillProc p errorCode
  | none => some s

/-! ## `do_wait` -/

/-- The children that a pass of `do_wait(pid)` looks at. -/
def candidates (p : ℕ) (pid : ℤ) : Option (List ℕ) :=
  if pid ≠ 0 then
    match s.findProc pid with
    | some q => do
      let ts ← s.threads p
      return if ∃ t ∈ ts, s.parent q = some t then [q] else []
    | none => some []
  else do
    let ts ← s.threads p
    s.childrenOf ts

/-- `do_wait` from `found` on. -/
def reap (z : ℕ) : Option Table :=
  if z = s.idleproc ∨ z = s.initproc then none
  else do
    let s := s.unhashProc z
    let s ← s.removeLinks z
    s.kfree z

/-- A pass of the loop of `do_wait(pid)` by `p`: it reaps a zombie, sleeps, or returns
`-E_BAD_PROC`. -/
def doWait (p : ℕ) (pid : ℤ) : Option Table := do
  let kids ← s.candidates p pid
  match kids.find? fun c => decide (s.state c = .zombie) with
  | some z =>
    let s ← s.reap z
    return s.setPc p .run
  | none =>
    if kids = [] then return s.setPc p .run
    else
      let s :=
        { s with
          state := Function.update s.state p .sleeping
          waitState := Function.update s.waitState p WT_CHILD }
      return s.setPc p (.wait pid)

/-- `do_wait` after `schedule()`: `may_killed`, then the next pass. -/
def resumeWait (p : ℕ) (pid : ℤ) : Option Table :=
  if s.exiting p = true then s.doExit p else s.doWait p pid

/-- Another operation that blocks. -/
def block (p : ℕ) (waitState : UInt32) : Table :=
  { s with
    state := Function.update s.state p .sleeping
    waitState := Function.update s.waitState p waitState }

end Table

/-! ## Runs -/

/-- What a process can do next; the first argument is the process. -/
inductive Action where
  | fork (p c : ℕ)
  | forked (p : ℕ) (cloneFlags : UInt32)
  | forkFailed (p : ℕ)
  | exitGroup (p : ℕ) (errorCode : ℤ)
  | exitThread (p : ℕ) (errorCode : ℤ)
  | mayKilled (p : ℕ)
  | execve (p : ℕ)
  | kill (p : ℕ) (pid errorCode : ℤ)
  | wait (p : ℕ) (pid : ℤ)
  | resume (p : ℕ)
  /-- another operation that blocks, and how it is woken -/
  | block (p : ℕ) (waitState : UInt32)
  | wakeup (p : ℕ)
  deriving DecidableEq, Repr

namespace Table

/-- The processes: those on `proc_list`, and `idleproc`. -/
def Listed (s : Table) (p : ℕ) : Prop := p = s.idleproc ∨ p ∈ s.procList

/-- `p` may run, and is at `pc`. -/
def At (s : Table) (p : ℕ) (pc : Pc) : Prop := s.Listed p ∧ s.state p = .runnable ∧ s.pc p = pc

/-- When an action can happen. -/
def Enabled (s : Table) : Action → Prop
  | .fork p c => s.At p .run ∧ s.live c = false ∧ s.nrProcess < MAX_PROCESS
  | .forked p _ => ∃ c, s.At p (.fork c)
  | .forkFailed p => ∃ c, s.At p (.fork c)
  | .exitGroup p _ => s.At p .run
  | .exitThread p _ => s.At p .run ∨ s.At p .exit
  | .mayKilled p => s.At p .run ∧ s.exiting p = true
  | .execve p => s.At p .run
  | .kill p _ _ => s.At p .run
  | .wait p _ => s.At p .run
  | .resume p => ∃ pid, s.At p (.wait pid)
  | .block p waitState => s.Listed p ∧ s.state p = .runnable ∧ (∀ pid, s.pc p ≠ .wait pid) ∧
      waitState ≠ WT_CHILD
  | .wakeup p => s.Listed p ∧ s.state p = .sleeping ∧ s.waitState p ≠ WT_CHILD

def step (s : Table) : Action → Option Table
  | .fork p c => s.forkBegin p c
  | .forked p cloneFlags =>
    match s.pc p with
    | .fork c => s.forkEnd p c cloneFlags
    | _ => none
  | .forkFailed p =>
    match s.pc p with
    | .fork c => s.forkFail p c
    | _ => none
  | .exitGroup p errorCode => s.exitGroup p errorCode
  | .exitThread p errorCode => s.doExitThread p errorCode
  | .mayKilled p => s.doExit p
  | .execve p => some (s.deThread p)
  | .kill _ pid errorCode => s.doKill pid errorCode
  | .wait p pid => s.doWait p pid
  | .resume p =>
    match s.pc p with
    | .wait pid => s.resumeWait p pid
    | _ => none
  | .block p waitState => some (s.block p waitState)
  | .wakeup p => s.wakeupProc p

/-- `proc_init` up to where `idleproc` is set up. -/
def idleInit (s : Table) (idle : ℕ) : Table :=
  let s :=
    { s with
      live := fun _ => false
      procList := []
      hashList := fun _ => []
      nrProcess := 1
      nextSafe := MAX_PID
      lastPid := MAX_PID
      idleproc := idle
      pc := fun _ => .run }
  let s := s.allocProc idle
  { s with
    pid := Function.update s.pid idle 0
    state := Function.update s.state idle .runnable }

/-- `proc_init`, which makes `idleproc` and, by a `do_fork` without `CLONE_THREAD`, `initproc`; what
was in memory before is arbitrary. -/
def procInit (s : Table) (idle init : ℕ) : Option Table := do
  let s ← (s.idleInit idle).forkBegin idle init
  let s ← s.forkEnd idle init 0
  let initproc ← s.findProc 1
  return { s with initproc := initproc }

end Table

/-- The states of the runs in which every step meets the condition `C`. -/
inductive Reaches (C : Table → Action → Prop) : Table → Prop where
  | boot {m s : Table} (idle init : ℕ) : idle ≠ init → m.procInit idle init = some s → Reaches C s
  | step {s s' : Table} (a : Action) : Reaches C s → s.Enabled a → C s a → s.step a = some s' →
      Reaches C s'

end Ucore.Process
