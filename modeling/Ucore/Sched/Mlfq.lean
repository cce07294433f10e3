import Ucore.Sched.Timer
import Ucore.Sync.Sem

/-!
# The scheduler

Reference model of `kern/schedule/sched.c` with the classes of `sched_MLFQ.c` and `sched_RR.c`, and of
what the rest of the kernel does to the fields that they read: `do_fork` splits the time slice,
`do_yield` sets `need_resched`, blocking operations put `current` to sleep before they call
`schedule()`, `__do_exit` makes it a zombie.

A run queue is the list of its processes; the `run_link` of a process is empty when it is in none of
them, and `list_del_init` takes it out of the one it is in.  A failed assertion is an error.
-/

namespace Ucore.Mlfq

open Ksem (ProcState WT_INTERRUPTED)

/-- What the scheduler touches of a `proc_struct`; `rq` is the index in `__rq`. -/
structure Proc where
  state : ProcState
  waitState : UInt32
  needResched : Bool
  rq : Option (Fin 4)
  timeSlice : Int
  runs : Int
  deriving DecidableEq, Repr

/-- `struct run_queue`; the queues follow one another by their index in `__rq`. -/
structure RunQueue where
  runList : List ℕ
  procNum : ℕ
  maxTimeSlice : Int
  deriving DecidableEq, Repr

/-- The assertions of the scheduler and of the part of `do_fork` that splits the time slice. -/
inductive Panic where
  /-- `proc->state != PROC_ZOMBIE` in `wakeup_proc` -/
  | zombie
  /-- `list_empty(&(proc->run_link))`, or its negation -/
  | runLink
  /-- `proc->rq == rq` in `RR_dequeue` -/
  | rq
  /-- `proc->wait_state & WT_INTERRUPTED` in `run_timer_list` -/
  | waitState
  /-- `timer->expires` in `add_timer` and `run_timer_list` -/
  | timer
  /-- `current->wait_state == 0`, `current->time_slice >= 0` in `do_fork` -/
  | fork
  deriving DecidableEq, Repr

/-- The run queues, the processes and the timers; `live` tells which addresses hold a
`proc_struct`. -/
structure Sched where
  rqs : Fin 4 → RunQueue
  procs : ℕ → Proc
  live : ℕ → Bool
  current : ℕ
  idleproc : ℕ
  timers : Timers

namespace Sched

variable (s : Sched)

def setProc (p : ℕ) (x : Proc) : Sched := { s with procs := Function.update s.procs p x }

/-- `! list_empty(&(proc->run_link))`. -/
def linked (p : ℕ) : Bool := decide (∃ i, p ∈ (s.rqs i).runList)

/-- `RR_enqueue`. -/
def rrEnqueue (i : Fin 4) (p : ℕ) : Except Panic Sched :=
  if s.linked p then .error .runLink
  else
    let x := s.procs p
    let max := (s.rqs i).maxTimeSlice
    .ok
      { s with
        rqs := Function.update s.rqs i
          { s.rqs i with
            runList := (s.rqs i).runList ++ [p]
            procNum := (s.rqs i).procNum + 1 }
        procs := Function.update s.procs p
          { x with
            timeSlice := if x.timeSlice = 0 ∨ x.timeSlice > max then max else x.timeSlice
            rq := some i } }

/-- `list_del_init(&(proc->run_link))`, from the list it is in, with `rq->proc_num --`. -/
def rrUnlink (i : Fin 4) (p : ℕ) : Sched :=
  { s with
    rqs := fun j =>
      { s.rqs j with
        runList := (s.rqs j).runList.erase p
        procNum := if j = i then (s.rqs j).procNum - 1 else (s.rqs j).procNum } }

/-- `RR_dequeue`. -/
def rrDequeue (i : Fin 4) (p : ℕ) : Except Panic Sched :=
  if ¬ s.linked p then .error .runLink
  else if (s.procs p).rq ≠ some i then .error .rq
  else .ok (s.rrUnlink i p)

/-- `RR_proc_tick`. -/
def rrProcTick (p : ℕ) : Sched :=
  let x := s.procs p
  let x := if x.timeSlice > 0 then { x with timeSlice := x.timeSlice - 1 } else x
  let x := if x.timeSlice = 0 then { x with needResched := true } else x
  s.setProc p x

/-- The queue `nrq` of `MLFQ_enqueue`. -/
def nextRq (x : Proc) : Fin 4 :=
  match x.rq with
  | some i => if x.timeSlice = 0 then (if i + 1 = 0 then i else i + 1) else 0
  | none => 0

/-- Where a process goes that is put into a queue: one queue further down, but not below the last
one, if it comes from a queue and has used up its time slice, else the first one. -/
def target (x : Proc) : Fin 4 :=
  match x.rq with
  | some i => if x.timeSlice = 0 then ⟨min (i + 1) 3, by omega⟩ else 0
  | none => 0

/-- `list_next` in the circle of the queues, unless it is back at the first one. -/
theorem next_eq : ∀ i : Fin 4, (if i + 1 = 0 then i else i + 1) = ⟨min (i + 1) 3, by omega⟩ := by
  decide

theorem nextRq_eq (x : Proc) : nextRq x = target x := by
  unfold nextRq target
  cases x.rq with
  | none => rfl
  | some i => simp only [next_eq]

/-- `MLFQ_enqueue`. -/
def mlfqEnqueue (p : ℕ) : Except Panic Sched :=
  if s.linked p then .error .runLink else s.rrEnqueue (nextRq (s.procs p)) p

/-- `MLFQ_dequeue`. -/
def mlfqDequeue (p : ℕ) : Except Panic Sched :=
  if ¬ s.linked p then .error .runLink
  else
    match (s.procs p).rq with
    | some i => s.rrDequeue i p
    | none => .error .rq

/-- `MLFQ_pick_next`: the first queue with a process, from `__rq[0]` on. -/
def mlfqPickNext : Option ℕ := (List.finRange 4).findSome? fun i => (s.rqs i).runList.head?

/-- `sched_class_enqueue`. -/
def schedClassEnqueue (p : ℕ) : Except Panic Sched :=
  if p ≠ s.idleproc then s.mlfqEnqueue p else .ok s

/-- `sched_class_proc_tick`. -/
def schedClassProcTick (p : ℕ) : Sched :=
  if p ≠ s.idleproc then s.rrProcTick p
  else s.setProc p { s.procs p with needResched := true }

/-- `wakeup_proc`. -/
def wakeupProc (p : ℕ) : Except Panic Sched :=
  if (s.procs p).state = .zombie then .error .zombie
  else if (s.procs p).state ≠ .runnable then
    let s := s.setProc p { s.procs p with state := .runnable, waitState := 0 }
    if p ≠ s.current then s.schedClassEnqueue p else .ok s
  else .ok s

/-- `schedule` gives the processor to `next`. -/
def switchTo (next : ℕ) : Sched :=
  let x := s.procs next
  { s.setProc next { x with runs := x.runs + 1 } with current := next }

/-- First part of `schedule`: `current` goes back to a queue if it still wants to run. -/
def putBack : Except Panic Sched :=
  let s := s.setProc s.current { s.procs s.current with needResched := false }
  if (s.procs s.current).state = .runnable then s.schedClassEnqueue s.current else .ok s

/-- Second part of `schedule`: the next process. -/
def pickNext : Except Panic Sched :=
  match s.mlfqPickNext with
  | some next => do
    let s ← s.mlfqDequeue next
    return s.switchTo next
  | none => .ok (s.switchTo s.idleproc)

/-- `schedule`. -/
def schedule : Except Panic Sched := do
  let s ← s.putBack
  s.pickNext

/-- What `run_timer_list` does to the process of a timer that has run out. -/
def timerWake (p : ℕ) : Except Panic Sched :=
  if (s.procs p).waitState ≠ 0 ∧ (s.procs p).waitState &&& WT_INTERRUPTED = 0 then
    .error .waitState
  else s.wakeupProc p

/-- The wake-ups of `run_timer_list`, in order. -/
def timerWakes : List ℕ → Sched → Except Panic Sched
  | [], s => .ok s
  | p :: rest, s => do
    let s ← s.timerWake p
    timerWakes rest s

/-- `run_timer_list`. -/
def runTimerList : Except Panic Sched :=
  match s.timers.runTimerList with
  | none => .error .timer
  | some (woken, timers) => do
    let s ← timerWakes woken { s with timers := timers }
    return s.schedClassProcTick s.current

/-- `timer_init` and `add_timer`, for `current`. -/
def addTimer (i : ℕ) (expires : UInt32) : Except Panic Sched :=
  match (s.timers.timerInit i s.current expires).addTimer i with
  | none => .error .timer
  | some timers => .ok { s with timers := timers }

/-- `del_timer`. -/
def delTimer (i : ℕ) : Sched := { s with timers := s.timers.delTimer i }

/-- The fields after `alloc_proc`. -/
def allocProc : Proc := ⟨.uninit, 0, false, none, 0, 0⟩

/-- `do_fork` up to where it splits the time slice; `c` is the new `proc_struct`. -/
def doFork (c : ℕ) : Except Panic Sched :=
  let x := s.procs s.current
  if x.waitState ≠ 0 ∨ x.timeSlice < 0 then .error .fork
  else
    let half := x.timeSlice.tdiv 2
    let s := { s with live := Function.update s.live c true }
    let s := s.setProc c { allocProc with timeSlice := half }
    .ok (s.setProc s.current { x with timeSlice := x.timeSlice - half })

/-- `do_yield`. -/
def doYield : Sched := s.setProc s.current { s.procs s.current with needResched := true }

/-- A blocking operation, before it calls `schedule()`. -/
def block (waitState : UInt32) : Sched :=
  s.setProc s.current { s.procs s.current with state := .sleeping, waitState := waitState }

/-- `__do_exit`, where it sets the state. -/
def exit : Sched := s.setProc s.current { s.procs s.current with state := .zombie }

/-- `kfree(proc)`, in `do_wait` and at the end of a `do_fork` that fails. -/
def free (p : ℕ) : Sched := { s with live := Function.update s.live p false }

end Sched

/-- What can happen next. -/
inductive Action where
  | wakeup (p : ℕ)
  | schedule
  | tick
  | fork (c : ℕ)
  | yield
  | block (waitState : UInt32)
  | exit
  | free (p : ℕ)
  | addTimer (i : ℕ) (expires : UInt32)
  | delTimer (i : ℕ)
  deriving DecidableEq, Repr

namespace Sched

/-- When it can happen.  The processor executes code for `current` only while its state is
`PROC_RUNNABLE`, except for the way to `schedule()`; a timer is on the kernel stack of its process,
which is free when the `proc_struct` is. -/
def Enabled (s : Sched) : Action → Prop
  | .wakeup p => s.live p = true
  | .schedule => True
  | .tick => True
  | .fork c => s.live c = false ∧ (s.procs s.current).state = .runnable
  | .yield => (s.procs s.current).state = .runnable
  | .block _ => (s.procs s.current).state = .runnable
  | .exit => (s.procs s.current).state = .runnable ∧ s.current ≠ s.idleproc
  | .free p => s.live p = true ∧ p ≠ s.current ∧
      ((s.procs p).state = .zombie ∨ (s.procs p).state = .uninit) ∧
      ∀ i ∈ s.timers.list, s.timers.proc i ≠ some p
  | .addTimer i expires => i ∉ s.timers.list ∧ expires ≠ 0
  | .delTimer _ => True

instance (s : Sched) : (a : Action) → Decidable (Enabled s a)
  | .wakeup _ => inferInstanceAs (Decidable (_ = _))
  | .schedule | .tick | .delTimer _ => .isTrue trivial
  | .fork _ | .exit | .addTimer _ _ => inferInstanceAs (Decidable (_ ∧ _))
  | .yield | .block _ => inferInstanceAs (Decidable (_ = _))
  | .free _ => inferInstanceAs (Decidable (_ ∧ _ ∧ _ ∧ _))

def step (s : Sched) : Action → Except Panic Sched
  | .wakeup p => s.wakeupProc p
  | .schedule => s.schedule
  | .tick => s.runTimerList
  | .fork c => s.doFork c
  | .yield => .ok s.doYield
  | .block waitState => .ok (s.block waitState)
  | .exit => .ok s.exit
  | .free p => .ok (s.free p)
  | .addTimer i expires => s.addTimer i expires
  | .delTimer i => .ok (s.delTimer i)

/-- The actions one after the other, while they can happen and no assertion fails. -/
def run : List Action → Sched → Option Sched
  | [], s => some s
  | a :: as, s => if s.Enabled a then (s.step a).toOption.bind (run as) else none

end Sched

/-- `sched_init`, and the `idleproc` that `proc_init` makes; the memory of the other processes and
timers is arbitrary. -/
def boot (idle : ℕ) (procs : ℕ → Proc) (expires : ℕ → UInt32) (proc : ℕ → Option ℕ) : Sched where
  rqs i := ⟨[], 0, 8 * 2 ^ i.val⟩
  procs := Function.update procs idle { Sched.allocProc with state := .runnable, needResched := true }
  live := Function.update (fun _ => false) idle true
  current := idle
  idleproc := idle
  timers := Timers.schedInit expires proc

/-- The states that the scheduler gets into. -/
inductive Reachable : Sched → Prop where
  | boot (idle : ℕ) (procs : ℕ → Proc) (expires : ℕ → UInt32) (proc : ℕ → Option ℕ) :
      Reachable (boot idle procs expires proc)
  | step {s s' : Sched} (a : Action) : Reachable s → s.Enabled a → s.step a = .ok s' → Reachable s'

end Ucore.Mlfq
