import Ucore.Sched.Timer
import Ucore.Sync.Sem

/-!
# Wait queues

Reference model of `kern/sync/wait.c`, of `wakeup_proc` and the waking part of `run_timer_list`
(`kern/schedule/sched.c`), of `kern/sync/ipc.h` and of `__do_kill` (`kern/process/proc.c`), over any
collection `Q` of wait queues.

A process leaves the processor in `schedule()` with its `wait_t` and its timer on its stack, so a
process has at most one of each: both go by the process.  Only the clock runs in between: there is no
preemption in the kernel.  A failed assertion is `none`.

* `Inv.tick_spec`, `Inv.kill_spec` — the clock and `do_kill` wake processes and touch no queue.
* `Inv.wakeupFirst_spec`, `Inv.wakeupQueue_spec` — a wake-up takes its waits out of the queue.
* `Inv.block_spec`, `Inv.unblock_spec` — a process goes to sleep in a queue, and runs again.
-/

namespace Ucore.Waits

open Ksem (ProcState WT_INTERRUPTED)
open Function (update update_eq_self update_idem update_of_ne update_self)

/-- What the queues and the clock touch of a `proc_struct`; `exiting` is `PF_EXITING`. -/
structure Proc where
  state : ProcState
  waitState : UInt32
  exiting : Bool
  deriving DecidableEq, Repr

/-- `wait_t`, of the process on whose stack it is. -/
structure WaitT (Q : Type) where
  wakeupFlags : UInt32
  queue : Q
  deriving DecidableEq, Repr

/-- The processes, the `wait_t` of those that have called `schedule()` in a wait, the wait queues, the
timers and the clock. -/
structure Kern (Q : Type) where
  procs : ℕ → Proc
  wait : ℕ → Option (WaitT Q)
  queues : Q → List ℕ
  timers : Timers
  ticks : UInt32

/-- What a woken process is. -/
def Proc.rouse (x : Proc) : Proc :=
  if x.state = .runnable then x else { x with state := .runnable, waitState := 0 }

namespace Kern

variable {Q : Type} [DecidableEq Q] (k : Kern Q)

def setProc (p : ℕ) (x : Proc) : Kern Q := { k with procs := update k.procs p x }

/-- `wakeup_proc`. -/
def wakeupProc (p : ℕ) : Option (Kern Q) :=
  if (k.procs p).state = .zombie then none else some (k.setProc p (k.procs p).rouse)

/-- `wakeup_wait`, with `del`. -/
def wakeupWait (q : Q) (p : ℕ) (wakeupFlags : UInt32) : Option (Kern Q) :=
  if p ∈ k.queues q then
    wakeupProc
      { k with
        queues := update k.queues q ((k.queues q).erase p)
        wait := update k.wait p (some ⟨wakeupFlags, q⟩) } p
  else none

/-- `wakeup_first`, with `del`. -/
def wakeupFirst (q : Q) (wakeupFlags : UInt32) : Option (Kern Q) :=
  match k.queues q with
  | [] => some k
  | p :: _ => k.wakeupWait q p wakeupFlags

/-- The loop of `wakeup_queue`, with `del`: the first wait until there is none. -/
def wakeupAll (q : Q) (wakeupFlags : UInt32) : List ℕ → Kern Q → Option (Kern Q)
  | [], k => some k
  | p :: rest, k => (k.wakeupWait q p wakeupFlags).bind (wakeupAll q wakeupFlags rest)

/-- `wakeup_queue`, with `del`. -/
def wakeupQueue (q : Q) (wakeupFlags : UInt32) : Option (Kern Q) :=
  wakeupAll q wakeupFlags (k.queues q) k

/-- `wait_current_set`. -/
def waitCurrentSet (q : Q) (p : ℕ) (waitState : UInt32) : Kern Q :=
  { k with
    procs := update k.procs p { k.procs p with state := .sleeping, waitState := waitState }
    wait := update k.wait p (some ⟨WT_INTERRUPTED, q⟩)
    queues := update k.queues q (k.queues q ++ [p]) }

/-- `wait_current_del`. -/
def waitCurrentDel (q : Q) (p : ℕ) : Kern Q :=
  { k with queues := update k.queues q ((k.queues q).erase p) }

/-- The `wait_t` goes with the stack frame. -/
def dropWait (p : ℕ) : Kern Q := { k with wait := update k.wait p none }

/-- `ipc_timer_init`; the saved ticks are `k.ticks`. -/
def ipcTimerInit (p : ℕ) (timeout : UInt32) : Kern Q :=
  if timeout ≠ 0 then { k with timers := k.timers.timerInit p p timeout } else k

/-- `ipc_add_timer`; there is a timer when there is a timeout. -/
def ipcAddTimer (p : ℕ) (timeout : UInt32) : Option (Kern Q) :=
  if timeout ≠ 0 then (k.timers.addTimer p).map fun t => { k with timers := t } else some k

/-- `ipc_del_timer`. -/
def ipcDelTimer (p : ℕ) (timeout : UInt32) : Kern Q :=
  if timeout ≠ 0 then { k with timers := k.timers.delTimer p } else k

/-- What `run_timer_list` does to the process of a timer that has run out. -/
def timerWake (p : ℕ) : Option (Kern Q) :=
  if (k.procs p).waitState ≠ 0 ∧ (k.procs p).waitState &&& WT_INTERRUPTED = 0 then none
  else k.wakeupProc p

/-- The wake-ups of `run_timer_list`, in order. -/
def timerWakes : List ℕ → Kern Q → Option (Kern Q)
  | [], k => some k
  | p :: rest, k => (k.timerWake p).bind (timerWakes rest)

/-- The timer interrupt. -/
def tick : Option (Kern Q) :=
  k.timers.runTimerList.bind fun r =>
    timerWakes r.1 { k with timers := r.2, ticks := k.ticks + 1 }

/-- `__do_kill`. -/
def doKill (p : ℕ) : Option (Kern Q) :=
  if (k.procs p).exiting then some k
  else
    let k := k.setProc p { k.procs p with exiting := true }
    if (k.procs p).waitState &&& WT_INTERRUPTED ≠ 0 then k.wakeupProc p else some k

end Kern

/-- What a call that waited returns. -/
inductive Ret where
  | ok
  | timeout
  | failed
  deriving DecidableEq, Repr

/-- `ipc_check_timeout`. -/
def ipcCheckTimeout (timeout savedTicks ticks : UInt32) : Ret :=
  if timeout ≠ 0 ∧ timeout ≤ ticks - savedTicks then .timeout else .failed

/-! ## The invariant -/

variable {Q : Type} {k k' : Kern Q} {p : ℕ} {q : Q}

/-- What holds of processes, queues and timers while no process is in the middle of a call. -/
structure Inv (k : Kern Q) : Prop where
  timers : k.timers.Inv
  owner : ∀ i ∈ k.timers.list, k.timers.proc i = some i ∧
    ((k.procs i).state = .sleeping ∨ (k.procs i).state = .runnable)
  asleep : ∀ p, (k.procs p).state = .sleeping → (k.procs p).waitState &&& WT_INTERRUPTED ≠ 0
  awake : ∀ p, (k.procs p).state ≠ .sleeping → (k.procs p).waitState = 0
  nodup : ∀ q, (k.queues q).Nodup
  queued : ∀ q, ∀ p ∈ k.queues q, k.wait p = some ⟨WT_INTERRUPTED, q⟩
  blocked : ∀ p w, k.wait p = some w →
    (k.procs p).state = .runnable ∨ (k.procs p).state = .sleeping ∧ p ∈ k.queues w.queue

/-- Only sleeping processes have been woken, and some marked as exiting. -/
structure Roused (k k' : Kern Q) : Prop where
  wait : k'.wait = k.wait
  queues : k'.queues = k.queues
  procs : ∀ p, (k'.procs p).state = (k.procs p).state ∧ (k'.procs p).waitState = (k.procs p).waitState ∨
    (k.procs p).state = .sleeping ∧ (k'.procs p).state = .runnable

theorem Proc.rouse_state (x : Proc) : x.rouse.state = .runnable := by
  unfold Proc.rouse
  split
  · assumption
  · rfl

theorem Proc.rouse_of_runnable {x : Proc} (h : x.state = .runnable) : x.rouse = x := if_pos h

theorem Proc.rouse_exiting (x : Proc) : x.rouse.exiting = x.exiting := by
  unfold Proc.rouse
  split <;> rfl

theorem Proc.rouse_waitState {x : Proc} (h : x.state ≠ .sleeping → x.waitState = 0) :
    x.rouse.waitState = 0 := by
  unfold Proc.rouse
  split
  · rename_i hrun
    exact h (by rw [hrun]; decide)
  · rfl

theorem Kern.wakeupProc_of_live (h : (k.procs p).state ≠ .zombie) :
    k.wakeupProc p = some (k.setProc p (k.procs p).rouse) := if_neg h

@[simp] theorem Kern.setProc_self (x : Proc) : (k.setProc p x).procs p = x := update_self ..

theorem Kern.setProc_of_ne {r : ℕ} (hne : r ≠ p) (x : Proc) : (k.setProc p x).procs r = k.procs r :=
  update_of_ne hne ..

theorem interrupted_ne_zero {w : UInt32} (h : w &&& WT_INTERRUPTED ≠ 0) : w ≠ 0 := by
  intro hw
  apply h
  rw [hw]
  decide

theorem Roused.refl (k : Kern Q) : Roused k k := ⟨rfl, rfl, fun _ => Or.inl ⟨rfl, rfl⟩⟩

/-- A runnable process is no longer asleep. -/
theorem Roused.sleeping (h : Roused k k') (hp : (k'.procs p).state = .sleeping) :
    (k.procs p).state = .sleeping ∧ (k'.procs p).waitState = (k.procs p).waitState := by
  rcases h.procs p with hsame | hwoke
  · exact ⟨hsame.1 ▸ hp, hsame.2⟩
  · rw [hwoke.2] at hp
    cases hp

theorem Roused.live (h : Roused k k')
    (hp : (k.procs p).state = .sleeping ∨ (k.procs p).state = .runnable) :
    (k'.procs p).state = .sleeping ∨ (k'.procs p).state = .runnable := by
  rcases h.procs p with hsame | hwoke
  · rw [hsame.1]
    exact hp
  · exact Or.inr hwoke.2

/-- Waking processes keeps the invariant of the queues. -/
theorem Inv.roused (h : Inv k) (hroused : Roused k k') (htimers : k'.timers.Inv)
    (howner : ∀ i ∈ k'.timers.list, i ∈ k.timers.list ∧ k'.timers.proc i = k.timers.proc i)
    (hawake : ∀ p, (k'.procs p).state ≠ .sleeping → (k'.procs p).waitState = 0) : Inv k' := by
  refine ⟨htimers, fun i hi => ?_, fun p hp => ?_, hawake, fun q => ?_, fun q p hp => ?_,
    fun p w hw => ?_⟩
  · obtain ⟨hold, hproc⟩ := howner i hi
    rw [hproc]
    exact ⟨(h.owner i hold).1, hroused.live (h.owner i hold).2⟩
  · obtain ⟨hsleep, hstate⟩ := hroused.sleeping hp
    rw [hstate]
    exact h.asleep p hsleep
  · rw [hroused.queues]
    exact h.nodup q
  · rw [hroused.queues] at hp
    rw [hroused.wait]
    exact h.queued q p hp
  · rw [hroused.wait] at hw
    rw [hroused.queues]
    rcases h.blocked p w hw with hrun | ⟨hsleep, hmem⟩
    · rcases hroused.procs p with hsame | hwoke
      · left
        rw [hsame.1]
        exact hrun
      · exact Or.inl hwoke.2
    · rcases hroused.procs p with hsame | hwoke
      · right
        rw [hsame.1]
        exact ⟨hsleep, hmem⟩
      · exact Or.inl hwoke.2

/-! ## The clock and `do_kill` -/

/-- The wake-ups of a tick: nothing but the processes changes. -/
theorem timerWakes_spec (l : List ℕ)
    (hlive : ∀ p ∈ l, (k.procs p).state = .sleeping ∨ (k.procs p).state = .runnable)
    (hasleep : ∀ p, (k.procs p).state = .sleeping → (k.procs p).waitState &&& WT_INTERRUPTED ≠ 0)
    (hawake : ∀ p, (k.procs p).state ≠ .sleeping → (k.procs p).waitState = 0) :
    Kern.timerWakes l k =
      some { k with procs := fun p => if p ∈ l then (k.procs p).rouse else k.procs p } := by
  induction l generalizing k with
  | nil => simp [Kern.timerWakes]
  | cons p rest ih =>
    have hp := hlive p (by simp)
    have hwake : k.timerWake p = some (k.setProc p (k.procs p).rouse) := by
      have hok : ¬ ((k.procs p).waitState ≠ 0 ∧ (k.procs p).waitState &&& WT_INTERRUPTED = 0) := by
        rintro ⟨hne, hzero⟩
        rcases hp with hsleep | hrun
        · exact hasleep p hsleep hzero
        · exact hne (hawake p (by rw [hrun]; decide))
      unfold Kern.timerWake
      rw [if_neg hok]
      apply Kern.wakeupProc_of_live
      rcases hp with hsleep | hrun
      · rw [hsleep]
        decide
      · rw [hrun]
        decide
    have hprocs : ∀ r, (k.setProc p (k.procs p).rouse).procs r = if r = p then (k.procs p).rouse
        else k.procs r := fun r => by
      by_cases hr : r = p
      · rw [if_pos hr, hr, Kern.setProc_self]
      · rw [if_neg hr, Kern.setProc_of_ne hr]
    have hrest := ih (k := k.setProc p (k.procs p).rouse) (fun r hr => ?_) (fun r hr => ?_)
      fun r hr => ?_
    · show (k.timerWake p).bind _ = _
      rw [hwake, Option.bind_some, hrest]
      refine congrArg some ?_
      show Kern.mk _ k.wait k.queues k.timers k.ticks = Kern.mk _ k.wait k.queues k.timers k.ticks
      congr 1
      funext r
      rw [hprocs]
      by_cases hr : r = p
      · subst hr
        have hrouse : (k.procs r).rouse.rouse = (k.procs r).rouse :=
          Proc.rouse_of_runnable (Proc.rouse_state _)
        simp [hrouse]
      · simp [hr]
    · rw [hprocs]
      split
      · exact Or.inr (Proc.rouse_state _)
      · exact hlive r (List.mem_cons_of_mem p hr)
    · rw [hprocs] at hr ⊢
      split at hr
      · rw [Proc.rouse_state] at hr
        cases hr
      · rename_i hrp
        rw [if_neg hrp]
        exact hasleep r hr
    · rw [hprocs] at hr ⊢
      split at hr
      · rename_i hrp
        rw [if_pos hrp]
        exact Proc.rouse_waitState (hawake p)
      · rename_i hrp
        rw [if_neg hrp]
        exact hawake r hr

/-- The process of a timer that has run out is the process it goes by. -/
theorem Inv.mem_due (h : Inv k) : p ∈ k.timers.due ↔ k.timers.deadlines p = some 1 := by
  unfold Timers.due
  rw [List.mem_filterMap]
  constructor
  · rintro ⟨i, hi, hp⟩
    rw [List.mem_filter] at hi
    rw [(h.owner i hi.1).1] at hp
    cases hp
    rw [Timers.deadlines_of_mem hi.1, of_decide_eq_true hi.2]
  · intro hp
    obtain ⟨hmem, hrem⟩ := Timers.mem_of_deadlines hp
    exact ⟨p, List.mem_filter.mpr ⟨hmem, decide_eq_true hrem⟩, (h.owner p hmem).1⟩

/-- What a tick does. -/
structure Ticked (k k' : Kern Q) : Prop where
  roused : Roused k k'
  ticks : k'.ticks = k.ticks + 1
  deadlines : k'.timers.deadlines = Timers.tick k.timers.deadlines
  proc : ∀ p, k'.timers.proc p = k.timers.proc p
  procs : ∀ p, k'.procs p = if k.timers.deadlines p = some 1 then (k.procs p).rouse else k.procs p

/-- A tick queues no timer. -/
theorem Ticked.mem (h : Ticked k k') {i : ℕ} (hi : i ∈ k'.timers.list) : i ∈ k.timers.list := by
  by_contra hout
  refine Timers.not_mem_of_deadlines ?_ hi
  rw [h.deadlines, Timers.tick, Timers.deadlines_of_not_mem hout]
  rfl

/-- **The timer interrupt.** -/
theorem Inv.tick_spec (h : Inv k) : ∃ k', k.tick = some k' ∧ Inv k' ∧ Ticked k k' := by
  obtain ⟨t', hrun, hinv, hproc, hdead⟩ := h.timers.run_spec
  have hlive : ∀ p ∈ k.timers.due, (k.procs p).state = .sleeping ∨ (k.procs p).state = .runnable :=
    fun p hp => (h.owner p (Timers.mem_of_deadlines (h.mem_due.mp hp)).1).2
  have hwakes := timerWakes_spec (k := { k with timers := t', ticks := k.ticks + 1 }) k.timers.due hlive
    h.asleep h.awake
  have hmem : ∀ i ∈ t'.list, i ∈ k.timers.list := by
    intro i hi
    by_contra hout
    have hi' : t'.deadlines i = none := by
      rw [hdead, Timers.tick, Timers.deadlines_of_not_mem hout]
      rfl
    exact Timers.not_mem_of_deadlines hi' hi
  have hroused : Roused k { k with
      timers := t', ticks := k.ticks + 1
      procs := fun p => if p ∈ k.timers.due then (k.procs p).rouse else k.procs p } := by
    refine ⟨rfl, rfl, fun p => ?_⟩
    show ((if _ then _ else _ : Proc).state = _ ∧ (if _ then _ else _ : Proc).waitState = _) ∨
      _ ∧ (if _ then _ else _ : Proc).state = _
    split
    · rename_i hp
      rcases hlive p hp with hsleep | hrun
      · exact Or.inr ⟨hsleep, Proc.rouse_state _⟩
      · rw [Proc.rouse_of_runnable hrun]
        exact Or.inl ⟨rfl, rfl⟩
    · exact Or.inl ⟨rfl, rfl⟩
  refine ⟨_, ?_, h.roused hroused hinv (fun i hi => ⟨hmem i hi, by rw [hproc]⟩) fun p hp => ?_, hroused,
    rfl, hdead, fun p => by rw [hproc], fun p => ?_⟩
  · unfold Kern.tick
    rw [hrun, Option.bind_some]
    exact hwakes
  · show (if p ∈ k.timers.due then (k.procs p).rouse else k.procs p).waitState = 0
    replace hp : (if p ∈ k.timers.due then (k.procs p).rouse else k.procs p).state ≠ .sleeping := hp
    by_cases hdue : p ∈ k.timers.due
    · rw [if_pos hdue]
      exact Proc.rouse_waitState (h.awake p)
    · rw [if_neg hdue] at hp ⊢
      exact h.awake p hp
  · exact if_congr h.mem_due rfl rfl

/-- What a kill does. -/
structure Killed (k : Kern Q) (p : ℕ) (k' : Kern Q) : Prop where
  roused : Roused k k'
  ticks : k'.ticks = k.ticks
  timers : k'.timers = k.timers
  exiting : (k'.procs p).exiting = true
  frame : ∀ r, r ≠ p → k'.procs r = k.procs r

/-- **`do_kill`.** -/
theorem Inv.kill_spec (h : Inv k) (p : ℕ) : ∃ k', k.doKill p = some k' ∧ Inv k' ∧ Killed k p k' := by
  unfold Kern.doKill
  by_cases hexit : (k.procs p).exiting
  · rw [if_pos hexit]
    exact ⟨k, rfl, h, Roused.refl k, rfl, rfl, hexit, fun _ _ => rfl⟩
  · rw [if_neg hexit]
    simp only [Kern.setProc_self]
    by_cases hint : (k.procs p).waitState &&& WT_INTERRUPTED ≠ 0
    · have hsleep : (k.procs p).state = .sleeping := by
        by_contra hne
        exact interrupted_ne_zero hint (h.awake p hne)
      rw [if_pos hint, Kern.wakeupProc_of_live (by rw [Kern.setProc_self, hsleep]; decide)]
      have hroused : Roused k ((k.setProc p { k.procs p with exiting := true }).setProc p
          { k.procs p with exiting := true }.rouse) := by
        refine ⟨rfl, rfl, fun r => ?_⟩
        by_cases hr : r = p
        · subst hr
          rw [Kern.setProc_self]
          exact Or.inr ⟨hsleep, Proc.rouse_state _⟩
        · rw [Kern.setProc_of_ne hr, Kern.setProc_of_ne hr]
          exact Or.inl ⟨rfl, rfl⟩
      rw [Kern.setProc_self]
      refine ⟨_, rfl, h.roused hroused h.timers (fun i hi => ⟨hi, rfl⟩) fun r hr => ?_, hroused, rfl, rfl,
        ?_, fun r hr => ?_⟩
      · by_cases hrp : r = p
        · subst hrp
          rw [Kern.setProc_self]
          exact Proc.rouse_waitState (h.awake r)
        · rw [Kern.setProc_of_ne hrp, Kern.setProc_of_ne hrp] at hr ⊢
          exact h.awake r hr
      · rw [Kern.setProc_self, Proc.rouse_exiting]
      · rw [Kern.setProc_of_ne hr, Kern.setProc_of_ne hr]
    · rw [if_neg hint]
      have hroused : Roused k (k.setProc p { k.procs p with exiting := true }) := by
        refine ⟨rfl, rfl, fun r => Or.inl ?_⟩
        by_cases hr : r = p
        · subst hr
          rw [Kern.setProc_self]
          exact ⟨rfl, rfl⟩
        · rw [Kern.setProc_of_ne hr]
          exact ⟨rfl, rfl⟩
      refine ⟨_, rfl, h.roused hroused h.timers (fun i hi => ⟨hi, rfl⟩) fun r hr => ?_, hroused, rfl, rfl,
        by rw [Kern.setProc_self], fun r hr => Kern.setProc_of_ne hr _⟩
      by_cases hrp : r = p
      · subst hrp
        rw [Kern.setProc_self] at hr ⊢
        exact h.awake r hr
      · rw [Kern.setProc_of_ne hrp] at hr ⊢
        exact h.awake r hr

/-- `wakeup_proc` of a process that sleeps. -/
theorem Inv.wakeupProc_spec (h : Inv k) (hsleep : (k.procs p).state = .sleeping) :
    ∃ k', k.wakeupProc p = some k' ∧ Inv k' ∧ Roused k k' ∧ k'.timers = k.timers ∧ k'.ticks = k.ticks := by
  have hroused : Roused k (k.setProc p (k.procs p).rouse) := by
    refine ⟨rfl, rfl, fun r => ?_⟩
    by_cases hr : r = p
    · subst hr
      rw [Kern.setProc_self]
      exact Or.inr ⟨hsleep, Proc.rouse_state _⟩
    · rw [Kern.setProc_of_ne hr]
      exact Or.inl ⟨rfl, rfl⟩
  refine ⟨_, Kern.wakeupProc_of_live (by rw [hsleep]; decide),
    h.roused hroused h.timers (fun i hi => ⟨hi, rfl⟩) fun r hr => ?_, hroused, rfl, rfl⟩
  by_cases hrp : r = p
  · subst hrp
    rw [Kern.setProc_self]
    exact Proc.rouse_waitState (h.awake r)
  · rw [Kern.setProc_of_ne hrp] at hr ⊢
    exact h.awake r hr

/-! ## The timer of a process -/

theorem Inv.not_queued (h : Inv k) (hwait : k.wait p = none) (q : Q) : p ∉ k.queues q := by
  intro hp
  rw [h.queued q p hp] at hwait
  cases hwait

/-- Only the timers change. -/
theorem Inv.setTimers (h : Inv k) {t : Timers} (ht : t.Inv)
    (howner : ∀ i ∈ t.list, t.proc i = some i ∧
      ((k.procs i).state = .sleeping ∨ (k.procs i).state = .runnable)) :
    Inv { k with timers := t } :=
  ⟨ht, howner, h.asleep, h.awake, h.nodup, h.queued, h.blocked⟩

/-- `ipc_timer_init` by a process with no timer pending. -/
theorem Inv.timerInit_spec (h : Inv k) (hout : p ∉ k.timers.list) (timeout : UInt32) :
    Inv (k.ipcTimerInit p timeout) ∧
      (k.ipcTimerInit p timeout).timers.deadlines = k.timers.deadlines ∧
      (timeout ≠ 0 → (k.ipcTimerInit p timeout).timers.expires p = timeout ∧
        (k.ipcTimerInit p timeout).timers.proc p = some p) := by
  unfold Kern.ipcTimerInit
  split
  · obtain ⟨ht, hdead⟩ := h.timers.init hout p timeout
    refine ⟨h.setTimers ht fun i hi => ?_, hdead, fun _ => ⟨update_self .., update_self ..⟩⟩
    have hip : i ≠ p := fun hip => hout (hip ▸ hi)
    show update k.timers.proc p _ i = _ ∧ _
    rw [update_of_ne hip]
    exact h.owner i hi
  · rename_i hzero
    exact ⟨h, rfl, fun hne => absurd hne hzero⟩

@[simp] theorem Kern.ipcTimerInit_procs (timeout : UInt32) :
    (k.ipcTimerInit p timeout).procs = k.procs := by
  unfold Kern.ipcTimerInit
  split <;> rfl

@[simp] theorem Kern.ipcTimerInit_wait (timeout : UInt32) :
    (k.ipcTimerInit p timeout).wait = k.wait := by
  unfold Kern.ipcTimerInit
  split <;> rfl

@[simp] theorem Kern.ipcTimerInit_queues (timeout : UInt32) :
    (k.ipcTimerInit p timeout).queues = k.queues := by
  unfold Kern.ipcTimerInit
  split <;> rfl

@[simp] theorem Kern.ipcTimerInit_ticks (timeout : UInt32) :
    (k.ipcTimerInit p timeout).ticks = k.ticks := by
  unfold Kern.ipcTimerInit
  split <;> rfl

@[simp] theorem Kern.ipcTimerInit_list (timeout : UInt32) :
    (k.ipcTimerInit p timeout).timers.list = k.timers.list := by
  unfold Kern.ipcTimerInit
  split <;> rfl

/-- What arming the timer of a process does. -/
structure Armed (k : Kern Q) (p : ℕ) (timeout : UInt32) (k' : Kern Q) : Prop where
  procs : k'.procs = k.procs
  wait : k'.wait = k.wait
  queues : k'.queues = k.queues
  ticks : k'.ticks = k.ticks
  deadlines : k'.timers.deadlines =
    if timeout ≠ 0 then update k.timers.deadlines p (some (k.timers.expires p).toNat)
    else k.timers.deadlines
  proc : k'.timers.proc = k.timers.proc

theorem Inv.addTimer_spec (h : Inv k) (timeout : UInt32) (hout : p ∉ k.timers.list)
    (hlive : (k.procs p).state = .sleeping ∨ (k.procs p).state = .runnable)
    (htimer : timeout ≠ 0 → k.timers.expires p ≠ 0 ∧ k.timers.proc p = some p) :
    ∃ k', k.ipcAddTimer p timeout = some k' ∧ Inv k' ∧ Armed k p timeout k' := by
  unfold Kern.ipcAddTimer
  by_cases hzero : timeout ≠ 0
  · rw [if_pos hzero]
    obtain ⟨hexp, hproc⟩ := htimer hzero
    obtain ⟨t', hadd, ht', hprocs, hdead⟩ :=
      h.timers.add_spec hout hexp (by rw [hproc]; exact Option.some_ne_none p)
    refine ⟨{ k with timers := t' }, by rw [hadd]; rfl, h.setTimers ht' fun i hi => ?_, rfl, rfl, rfl, rfl, ?_,
      hprocs⟩
    · rw [hprocs]
      by_cases hip : i = p
      · subst hip
        exact ⟨hproc, hlive⟩
      · refine h.owner i ((Timers.same_of_deadlines ?_).1.mp hi)
        rw [hdead, update_of_ne hip]
    · rw [if_pos hzero]
      exact hdead
  · rw [if_neg hzero]
    refine ⟨k, rfl, h, rfl, rfl, rfl, rfl, ?_, rfl⟩
    rw [if_neg hzero]

/-- The assertion of `add_timer` fails for a timer that has nothing to wait. -/
theorem Kern.ipcAddTimer_zero {timeout : UInt32} (htimeout : timeout ≠ 0) (hzero : k.timers.expires p = 0) :
    k.ipcAddTimer p timeout = none := by
  have hpos : ¬ (0 < k.timers.expires p ∧ k.timers.proc p ≠ none) := by
    rw [hzero]
    exact fun h => absurd h.1 (by decide)
  unfold Kern.ipcAddTimer Timers.addTimer
  rw [if_pos htimeout, if_neg hpos]
  rfl

/-- What disarming the timer of a process does. -/
structure Disarmed (k : Kern Q) (p : ℕ) (k' : Kern Q) : Prop where
  procs : k'.procs = k.procs
  wait : k'.wait = k.wait
  queues : k'.queues = k.queues
  ticks : k'.ticks = k.ticks
  deadlines : k'.timers.deadlines = update k.timers.deadlines p none
  proc : k'.timers.proc = k.timers.proc
  expires : k'.timers.expires p = k.timers.expires p

theorem Inv.delTimer_spec (h : Inv k) (timeout : UInt32) (htimer : timeout = 0 → p ∉ k.timers.list) :
    Inv (k.ipcDelTimer p timeout) ∧ Disarmed k p (k.ipcDelTimer p timeout) := by
  unfold Kern.ipcDelTimer
  by_cases hzero : timeout ≠ 0
  · rw [if_pos hzero]
    obtain ⟨ht, hprocs, hdead⟩ := h.timers.del_spec p
    refine ⟨h.setTimers ht fun i hi => ?_, rfl, rfl, rfl, rfl, hdead, hprocs, h.timers.delTimer_self p⟩
    rw [hprocs]
    by_cases hip : i = p
    · subst hip
      exact absurd hi (Timers.not_mem_of_deadlines (by rw [hdead, update_self]))
    · refine h.owner i ((Timers.same_of_deadlines ?_).1.mp hi)
      rw [hdead, update_of_ne hip]
  · rw [if_neg hzero]
    refine ⟨h, rfl, rfl, rfl, rfl, ?_, rfl, rfl⟩
    rw [← Timers.deadlines_of_not_mem (htimer (not_not.mp hzero)), update_eq_self]

/-- A process that neither sleeps nor waits, and has no timer pending, may be replaced. -/
theorem Inv.setProc (h : Inv k) (hwait : k.wait p = none) (hout : p ∉ k.timers.list) {x : Proc}
    (hx : x.state ≠ .sleeping) (hx' : x.waitState = 0) : Inv (k.setProc p x) := by
  refine ⟨h.timers, fun i hi => ?_, fun r hr => ?_, fun r hr => ?_, h.nodup, h.queued, fun r w hw => ?_⟩
  · have hip : i ≠ p := fun hip => hout (hip ▸ hi)
    rw [Kern.setProc_of_ne hip]
    exact h.owner i hi
  · by_cases hrp : r = p
    · subst hrp
      rw [Kern.setProc_self] at hr
      exact absurd hr hx
    · rw [Kern.setProc_of_ne hrp] at hr ⊢
      exact h.asleep r hr
  · by_cases hrp : r = p
    · subst hrp
      rw [Kern.setProc_self]
      exact hx'
    · rw [Kern.setProc_of_ne hrp] at hr ⊢
      exact h.awake r hr
  · have hrp : r ≠ p := by
      intro hrp
      rw [hrp] at hw
      exact absurd (hwait.symm.trans hw) nofun
    rw [Kern.setProc_of_ne hrp]
    exact h.blocked r w hw

/-- A process that runs goes to sleep without a `wait_t`. -/
theorem Inv.doze (h : Inv k) (hwait : k.wait p = none) {ws : UInt32} (hws : ws &&& WT_INTERRUPTED ≠ 0) :
    Inv (k.setProc p { k.procs p with state := .sleeping, waitState := ws }) := by
  refine ⟨h.timers, fun i hi => ⟨(h.owner i hi).1, ?_⟩, fun r hr => ?_, fun r hr => ?_, h.nodup, h.queued,
    fun r w hw => ?_⟩
  · by_cases hip : i = p
    · subst hip
      rw [Kern.setProc_self]
      exact Or.inl rfl
    · rw [Kern.setProc_of_ne hip]
      exact (h.owner i hi).2
  · by_cases hrp : r = p
    · subst hrp
      rw [Kern.setProc_self]
      exact hws
    · rw [Kern.setProc_of_ne hrp] at hr ⊢
      exact h.asleep r hr
  · by_cases hrp : r = p
    · subst hrp
      rw [Kern.setProc_self] at hr
      exact absurd rfl hr
    · rw [Kern.setProc_of_ne hrp] at hr ⊢
      exact h.awake r hr
  · have hrp : r ≠ p := by
      intro hrp
      rw [hrp] at hw
      exact absurd (hwait.symm.trans hw) nofun
    rw [Kern.setProc_of_ne hrp]
    exact h.blocked r w hw

/-! ## Wake-ups through a queue -/

variable [DecidableEq Q]

/-- What waking one waiting process does. -/
structure Woke (k : Kern Q) (q : Q) (p : ℕ) (f : UInt32) (k' : Kern Q) : Prop where
  queues : k'.queues = update k.queues q ((k.queues q).erase p)
  wait : k'.wait = update k.wait p (some ⟨f, q⟩)
  procs : k'.procs = update k.procs p (k.procs p).rouse
  timers : k'.timers = k.timers
  ticks : k'.ticks = k.ticks

theorem Inv.wakeupWait_spec (h : Inv k) (hp : p ∈ k.queues q) (f : UInt32) :
    ∃ k', k.wakeupWait q p f = some k' ∧ Inv k' ∧ Woke k q p f k' := by
  have hwait := h.queued q p hp
  have hlive : (k.procs p).state ≠ .zombie := by
    rcases h.blocked p _ hwait with hrun | hsleep
    · rw [hrun]
      decide
    · rw [hsleep.1]
      decide
  have hqueue : ∀ q' r, r ∈ update k.queues q ((k.queues q).erase p) q' →
      r ≠ p ∧ r ∈ k.queues q' := by
    intro q' r hr
    by_cases hq : q' = q
    · subst hq
      rw [update_self] at hr
      exact (h.nodup q').mem_erase_iff.mp hr
    · rw [update_of_ne hq] at hr
      refine ⟨fun hrp => ?_, hr⟩
      have hr' := h.queued q' r hr
      rw [hrp, hwait] at hr'
      cases hr'
      exact hq rfl
  refine ⟨_, (if_pos hp).trans (Kern.wakeupProc_of_live hlive), ⟨h.timers, fun i hi => ?_, fun r hr => ?_,
    fun r hr => ?_, fun q' => ?_, fun q' r hr => ?_, fun r w hw => ?_⟩, rfl, rfl, rfl, rfl, rfl⟩
  · refine ⟨(h.owner i hi).1, ?_⟩
    show (update k.procs p _ i).state = _ ∨ (update k.procs p _ i).state = _
    by_cases hip : i = p
    · subst hip
      rw [update_self]
      exact Or.inr (Proc.rouse_state _)
    · rw [update_of_ne hip]
      exact (h.owner i hi).2
  · replace hr : (update k.procs p (k.procs p).rouse r).state = .sleeping := hr
    show (update k.procs p _ r).waitState &&& _ ≠ 0
    by_cases hrp : r = p
    · subst hrp
      rw [update_self, Proc.rouse_state] at hr
      cases hr
    · rw [update_of_ne hrp] at hr ⊢
      exact h.asleep r hr
  · replace hr : (update k.procs p (k.procs p).rouse r).state ≠ .sleeping := hr
    show (update k.procs p _ r).waitState = 0
    by_cases hrp : r = p
    · subst hrp
      rw [update_self]
      exact Proc.rouse_waitState (h.awake r)
    · rw [update_of_ne hrp] at hr ⊢
      exact h.awake r hr
  · show (update k.queues q _ q').Nodup
    by_cases hq : q' = q
    · subst hq
      rw [update_self]
      exact (h.nodup q').erase p
    · rw [update_of_ne hq]
      exact h.nodup q'
  · obtain ⟨hrp, hr'⟩ := hqueue q' r hr
    show update k.wait p _ r = _
    rw [update_of_ne hrp]
    exact h.queued q' r hr'
  · replace hw : update k.wait p (some ⟨f, q⟩) r = some w := hw
    show (update k.procs p _ r).state = _ ∨ (update k.procs p _ r).state = _ ∧ _
    by_cases hrp : r = p
    · subst hrp
      rw [update_self]
      exact Or.inl (Proc.rouse_state _)
    · rw [update_of_ne hrp] at hw ⊢
      rcases h.blocked r w hw with hrun | ⟨hsleep, hmem⟩
      · exact Or.inl hrun
      · refine Or.inr ⟨hsleep, ?_⟩
        show r ∈ update k.queues q _ w.queue
        by_cases hq : w.queue = q
        · rw [hq, update_self]
          rw [hq] at hmem
          exact (h.nodup q).mem_erase_iff.mpr ⟨hrp, hmem⟩
        · rw [update_of_ne hq]
          exact hmem

/-- **`wakeup_first`.** -/
theorem Inv.wakeupFirst_spec (h : Inv k) (q : Q) (f : UInt32) :
    k.queues q = [] ∧ k.wakeupFirst q f = some k ∨
      ∃ p rest k', k.queues q = p :: rest ∧ k.wakeupFirst q f = some k' ∧ Inv k' ∧ Woke k q p f k' := by
  unfold Kern.wakeupFirst
  cases hq : k.queues q with
  | nil => exact Or.inl ⟨rfl, rfl⟩
  | cons p rest =>
    have hp : p ∈ k.queues q := by simp [hq]
    obtain ⟨k', hwake, hinv, hwoke⟩ := h.wakeupWait_spec hp f
    exact Or.inr ⟨p, rest, k', rfl, hwake, hinv, hwoke⟩

/-- What waking a whole queue does. -/
structure WokeAll (k : Kern Q) (q : Q) (f : UInt32) (k' : Kern Q) : Prop where
  queues : k'.queues = update k.queues q []
  woken : ∀ p ∈ k.queues q, k'.wait p = some ⟨f, q⟩ ∧ k'.procs p = (k.procs p).rouse
  frame : ∀ p, p ∉ k.queues q → k'.wait p = k.wait p ∧ k'.procs p = k.procs p
  timers : k'.timers = k.timers
  ticks : k'.ticks = k.ticks

theorem Inv.wakeupAll_spec {l : List ℕ} (h : Inv k) (hl : k.queues q = l) (f : UInt32) :
    ∃ k', Kern.wakeupAll q f l k = some k' ∧ Inv k' ∧ WokeAll k q f k' := by
  induction l generalizing k with
  | nil =>
    refine ⟨k, rfl, h, ?_, fun p hp => ?_, fun p _ => ⟨rfl, rfl⟩, rfl, rfl⟩
    · rw [← hl, update_eq_self]
    · rw [hl] at hp
      cases hp
  | cons x rest ih =>
    have hx : x ∈ k.queues q := by simp [hl]
    have hnodup := h.nodup q
    rw [hl, List.nodup_cons] at hnodup
    obtain ⟨k₁, hwake, hinv, hwoke⟩ := h.wakeupWait_spec hx f
    have hrest : k₁.queues q = rest := by rw [hwoke.queues, update_self, hl, List.erase_cons_head]
    obtain ⟨k', hall, hinv', hdone⟩ := ih hinv hrest
    refine ⟨k', ?_, hinv', ?_, fun p hp => ?_, fun p hp => ?_, hdone.timers.trans hwoke.timers,
      hdone.ticks.trans hwoke.ticks⟩
    · show (k.wakeupWait q x f).bind _ = _
      rw [hwake]
      exact hall
    · rw [hdone.queues, hwoke.queues, update_idem]
    · rw [hl, List.mem_cons] at hp
      by_cases hpx : p = x
      · -- the first one is no longer in the queue
        subst hpx
        obtain ⟨hwait, hprocs⟩ := hdone.frame p (by rw [hrest]; exact hnodup.1)
        rw [hwait, hprocs, hwoke.wait, hwoke.procs, update_self, update_self]
        exact ⟨rfl, rfl⟩
      · obtain ⟨hwait, hprocs⟩ := hdone.woken p (by rw [hrest]; exact hp.resolve_left hpx)
        rw [hwait, hprocs, hwoke.procs, update_of_ne hpx]
        exact ⟨rfl, rfl⟩
    · rw [hl, List.mem_cons, not_or] at hp
      obtain ⟨hwait, hprocs⟩ := hdone.frame p (by rw [hrest]; exact hp.2)
      rw [hwait, hprocs, hwoke.wait, hwoke.procs, update_of_ne hp.1, update_of_ne hp.1]
      exact ⟨rfl, rfl⟩

/-- **`wakeup_queue`.** -/
theorem Inv.wakeupQueue_spec (h : Inv k) (q : Q) (f : UInt32) :
    ∃ k', k.wakeupQueue q f = some k' ∧ Inv k' ∧ WokeAll k q f k' :=
  h.wakeupAll_spec rfl f

/-! ## Going to sleep in a queue, and running again -/

/-- `wait_current_set` by a process that runs. -/
theorem Inv.enqueue (h : Inv k) (hwait : k.wait p = none) (q : Q) {ws : UInt32}
    (hws : ws &&& WT_INTERRUPTED ≠ 0) : Inv (k.waitCurrentSet q p ws) := by
  have hdoze := h.doze hwait hws
  have hmem : ∀ q' r, r ∈ update k.queues q (k.queues q ++ [p]) q' →
      r = p ∧ q' = q ∨ r ≠ p ∧ r ∈ k.queues q' := by
    intro q' r hr
    by_cases hq : q' = q
    · subst hq
      rw [update_self, List.mem_append, List.mem_singleton] at hr
      rcases hr with hr | hr
      · exact Or.inr ⟨fun hrp => h.not_queued hwait q' (hrp ▸ hr), hr⟩
      · exact Or.inl ⟨hr, rfl⟩
    · rw [update_of_ne hq] at hr
      exact Or.inr ⟨fun hrp => h.not_queued hwait q' (hrp ▸ hr), hr⟩
  refine ⟨hdoze.timers, hdoze.owner, hdoze.asleep, hdoze.awake, fun q' => ?_, fun q' r hr => ?_,
    fun r w hw => ?_⟩
  · show (update k.queues q _ q').Nodup
    by_cases hq : q' = q
    · subst hq
      rw [update_self, List.nodup_append]
      refine ⟨h.nodup q', by simp, fun a ha b hb => ?_⟩
      rw [List.mem_singleton.mp hb]
      exact fun hap => h.not_queued hwait q' (hap ▸ ha)
    · rw [update_of_ne hq]
      exact h.nodup q'
  · show update k.wait p _ r = _
    rcases hmem q' r hr with ⟨rfl, rfl⟩ | ⟨hrp, hr'⟩
    · exact update_self ..
    · rw [update_of_ne hrp]
      exact h.queued q' r hr'
  · replace hw : update k.wait p (some ⟨WT_INTERRUPTED, q⟩) r = some w := hw
    show (update k.procs p _ r).state = _ ∨ (update k.procs p _ r).state = _ ∧
      r ∈ update k.queues q _ w.queue
    by_cases hrp : r = p
    · subst hrp
      rw [update_self] at hw ⊢
      cases hw
      refine Or.inr ⟨rfl, ?_⟩
      rw [update_self]
      simp
    · rw [update_of_ne hrp] at hw ⊢
      rcases h.blocked r w hw with hrun | ⟨hsleep, hq⟩
      · exact Or.inl hrun
      · refine Or.inr ⟨hsleep, ?_⟩
        by_cases hwq : w.queue = q
        · rw [hwq, update_self]
          rw [hwq] at hq
          exact List.mem_append_left _ hq
        · rw [update_of_ne hwq]
          exact hq

/-- `wait_current_del` by a process that runs again, and the end of its `wait_t`. -/
theorem Inv.dequeue (h : Inv k) {f : UInt32} (hwait : k.wait p = some ⟨f, q⟩) :
    Inv ((k.waitCurrentDel q p).dropWait p) := by
  have hmem : ∀ q' r, r ∈ update k.queues q ((k.queues q).erase p) q' →
      r ≠ p ∧ r ∈ k.queues q' := by
    intro q' r hr
    by_cases hq : q' = q
    · subst hq
      rw [update_self] at hr
      exact (h.nodup q').mem_erase_iff.mp hr
    · rw [update_of_ne hq] at hr
      refine ⟨fun hrp => ?_, hr⟩
      have hr' := h.queued q' r hr
      rw [hrp, hwait] at hr'
      cases hr'
      exact hq rfl
  refine ⟨h.timers, h.owner, h.asleep, h.awake, fun q' => ?_, fun q' r hr => ?_, fun r w hw => ?_⟩
  · show (update k.queues q _ q').Nodup
    by_cases hq : q' = q
    · subst hq
      rw [update_self]
      exact (h.nodup q').erase p
    · rw [update_of_ne hq]
      exact h.nodup q'
  · obtain ⟨hrp, hr'⟩ := hmem q' r hr
    show update k.wait p _ r = _
    rw [update_of_ne hrp]
    exact h.queued q' r hr'
  · replace hw : update k.wait p none r = some w := hw
    have hrp : r ≠ p := by
      intro hrp
      rw [hrp, update_self] at hw
      cases hw
    rw [update_of_ne hrp] at hw
    rcases h.blocked r w hw with hrun | ⟨hsleep, hq⟩
    · exact Or.inl hrun
    · refine Or.inr ⟨hsleep, ?_⟩
      show r ∈ update k.queues q _ w.queue
      by_cases hwq : w.queue = q
      · rw [hwq, update_self]
        rw [hwq] at hq
        exact (h.nodup q).mem_erase_iff.mpr ⟨hrp, hq⟩
      · rw [update_of_ne hwq]
        exact hq

/-- What a call that goes to sleep in a queue, with its timer if it has one, has done. -/
structure Blocked (k : Kern Q) (q : Q) (p : ℕ) (ws timeout : UInt32) (k' : Kern Q) : Prop where
  procs : k'.procs = update k.procs p { k.procs p with state := .sleeping, waitState := ws }
  wait : k'.wait = update k.wait p (some ⟨WT_INTERRUPTED, q⟩)
  queues : k'.queues = update k.queues q (k.queues q ++ [p])
  ticks : k'.ticks = k.ticks
  deadlines : k'.timers.deadlines =
    if timeout ≠ 0 then update k.timers.deadlines p (some timeout.toNat)
    else k.timers.deadlines

/-- **A call goes to sleep.** -/
theorem Inv.block_spec (h : Inv k) (hwait : k.wait p = none) (hout : p ∉ k.timers.list) (q : Q)
    {ws : UInt32} (hws : ws &&& WT_INTERRUPTED ≠ 0) (timeout : UInt32) :
    ∃ k', ((k.ipcTimerInit p timeout).waitCurrentSet q p ws).ipcAddTimer p timeout = some k' ∧ Inv k' ∧
      Blocked k q p ws timeout k' := by
  obtain ⟨hinit, hdead, hexp⟩ := h.timerInit_spec hout timeout
  have hset := hinit.enqueue (q := q) (by rw [Kern.ipcTimerInit_wait]; exact hwait) hws
  have hsleep : (((k.ipcTimerInit p timeout).waitCurrentSet q p ws).procs p).state = .sleeping := by
    unfold Kern.waitCurrentSet
    simp
  have htimer : timeout ≠ 0 →
      ((k.ipcTimerInit p timeout).waitCurrentSet q p ws).timers.expires p ≠ 0 ∧
        ((k.ipcTimerInit p timeout).waitCurrentSet q p ws).timers.proc p = some p := by
    intro hne
    refine ⟨?_, (hexp hne).2⟩
    show (k.ipcTimerInit p timeout).timers.expires p ≠ 0
    rw [(hexp hne).1]
    exact hne
  obtain ⟨k', hadd, hinv, harmed⟩ := hset.addTimer_spec timeout
    (by show p ∉ (k.ipcTimerInit p timeout).timers.list; rw [Kern.ipcTimerInit_list]; exact hout)
    (Or.inl hsleep) htimer
  refine ⟨k', hadd, hinv, ?_, ?_, ?_, ?_, ?_⟩
  · rw [harmed.procs]
    show update (k.ipcTimerInit p timeout).procs p _ = _
    rw [Kern.ipcTimerInit_procs]
  · rw [harmed.wait]
    show update (k.ipcTimerInit p timeout).wait p _ = _
    rw [Kern.ipcTimerInit_wait]
  · rw [harmed.queues]
    show update (k.ipcTimerInit p timeout).queues q _ = _
    rw [Kern.ipcTimerInit_queues]
  · rw [harmed.ticks]
    exact Kern.ipcTimerInit_ticks timeout
  · rw [harmed.deadlines]
    show (if timeout ≠ 0 then update (k.ipcTimerInit p timeout).timers.deadlines p
      (some ((k.ipcTimerInit p timeout).timers.expires p).toNat)
      else (k.ipcTimerInit p timeout).timers.deadlines) = _
    rw [hdead]
    split
    · rename_i hne
      rw [(hexp hne).1]
    · rfl

/-- What a call that runs again after its sleep has done first. -/
structure Unblocked (k : Kern Q) (q : Q) (p : ℕ) (k' : Kern Q) : Prop where
  procs : k'.procs = k.procs
  wait : k'.wait = update k.wait p none
  queues : k'.queues = update k.queues q ((k.queues q).erase p)
  ticks : k'.ticks = k.ticks
  deadlines : k'.timers.deadlines = update k.timers.deadlines p none
  proc : k'.timers.proc = k.timers.proc
  expires : k'.timers.expires p = k.timers.expires p

/-- **A call runs again.** -/
theorem Inv.unblock_spec (h : Inv k) (timeout : UInt32) {f : UInt32} (hwait : k.wait p = some ⟨f, q⟩)
    (htimer : timeout = 0 → p ∉ k.timers.list) :
    Inv (((k.ipcDelTimer p timeout).waitCurrentDel q p).dropWait p) ∧
      Unblocked k q p (((k.ipcDelTimer p timeout).waitCurrentDel q p).dropWait p) := by
  obtain ⟨hdel, hdis⟩ := h.delTimer_spec timeout htimer
  refine ⟨hdel.dequeue (by rw [hdis.wait]; exact hwait), hdis.procs, ?_, ?_, hdis.ticks, hdis.deadlines,
    hdis.proc, hdis.expires⟩
  · show update (k.ipcDelTimer p timeout).wait p none = _
    rw [hdis.wait]
  · show update (k.ipcDelTimer p timeout).queues q _ = _
    rw [hdis.queues]

/-- No process waits, and no timer is pending. -/
structure Quiet (k : Kern Q) : Prop where
  inv : Inv k
  wait : ∀ p, k.wait p = none
  timers : k.timers.list = []

/-- Every process runs, and none has waited. -/
def Kern.boot (Q : Type) : Kern Q :=
  ⟨fun _ => ⟨.runnable, 0, false⟩, fun _ => none, fun _ => [], Timers.schedInit (fun _ => 0) fun _ => none, 0⟩

theorem Kern.boot_quiet (Q : Type) : Quiet (Kern.boot Q) :=
  ⟨⟨Timers.schedInit_inv _ _, nofun, nofun, fun _ _ => rfl, fun _ => List.nodup_nil, nofun, nofun⟩,
    fun _ => rfl, rfl⟩

end Ucore.Waits
