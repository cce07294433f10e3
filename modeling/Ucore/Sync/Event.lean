import Ucore.Sync.Wait

/-!
# Events

Reference model of `ipc_event_send` and `ipc_event_recv` of `kern/sync/event.c`, with `send_event` and
`recv_event`, and of what `__do_exit` (`kern/process/proc.c`) does to the senders of the process that
exits.  A process goes by its pid; a pid may be used again once its process has exited.

The value of a send is in the event box of the sender, and the sender waits in the queue of the
receiver, until the receiver takes it out.  A sender that the clock or `do_kill` has woken is in the
queue until it runs, and may still be taken: then its send returns 0.

* `Inv.step_spec` — no assertion fails.
* `event_delivery` — in every run, a send returns 0 exactly if one `recv_event` took it.
-/

namespace Ucore.Events

open Ksem (WT_INTERRUPTED)
open Waits (Kern Ret ipcCheckTimeout)
open Function (update update_eq_self update_of_ne update_self)

def WT_EVENT_SEND : UInt32 := 0x80000110

def WT_EVENT_RECV : UInt32 := 0x80000111

/-- Where a process is.  A send has a number, in the order in which sends block. -/
inductive Call where
  | idle
  | sending (dst : ℕ) (timeout savedTicks : UInt32) (n : ℕ)
  | receiving (timeout savedTicks : UInt32)
  | storing
  deriving DecidableEq, Repr

/-- The number of the send that a process is in. -/
def Call.number : Call → ℕ
  | .sending _ _ _ n => n
  | _ => 0

/-- The kernel, with a wait queue for each event box; the values in the event boxes; the processes that
take no events (`idleproc`, `initproc`, `kswapd`). -/
structure Sys where
  kern : Kern ℕ
  event : ℕ → Int
  call : ℕ → Call
  sends : ℕ
  reserved : ℕ → Bool

/-- What a step has done. -/
inductive Event where
  | refused (p : ℕ)
  | blocked (n p dst : ℕ) (event : Int)
  | returned (n : ℕ) (r : Ret)
  | dozed (p : ℕ)
  | took (p n pid : ℕ) (event : Int)
  | missed (p : ℕ) (r : Ret)
  | stored (p : ℕ) (ok : Bool)
  | exited (p : ℕ)
  | forked (p : ℕ)
  | ticked
  | killed (p : ℕ)
  deriving DecidableEq, Repr

variable (s : Sys)

def Sys.setCall (p : ℕ) (c : Call) : Sys := { s with call := update s.call p c }

/-- `ipc_event_send`, up to the call of `schedule()` in `send_event`. -/
def Sys.ipcEventSend (p dst : ℕ) (event : Int) (timeout : UInt32) : Option (Event × Sys) :=
  if (s.kern.procs dst).state = .uninit ∨ (s.kern.procs dst).state = .zombie then some (.refused p, s)
  else if dst = p ∨ s.reserved dst then some (.refused p, s)
  else
    let k := if (s.kern.procs dst).waitState = WT_EVENT_RECV then s.kern.wakeupProc dst else some s.kern
    k.bind fun k =>
      (((k.ipcTimerInit p timeout).waitCurrentSet dst p WT_EVENT_SEND).ipcAddTimer p timeout).map fun k =>
        (.blocked s.sends p dst event,
          { s with
            kern := k
            event := update s.event p event
            call := update s.call p (.sending dst timeout s.kern.ticks s.sends)
            sends := s.sends + 1 })

/-- The rest of `ipc_event_send`; `flags` is `wait->wakeup_flags`. -/
def Sys.resumeSend (p dst : ℕ) (timeout savedTicks : UInt32) (n : ℕ) (flags : UInt32) :
    Option (Event × Sys) :=
  let k := ((s.kern.ipcDelTimer p timeout).waitCurrentDel dst p).dropWait p
  let s := { s with kern := k, call := update s.call p .idle }
  if flags = WT_EVENT_SEND then some (.returned n .ok, s)
  else if flags = WT_INTERRUPTED then
    some (.returned n (ipcCheckTimeout timeout savedTicks k.ticks), s)
  else none

/-- The end of `recv_event`, on the kernel `k`; a receiver that took nothing returns at once. -/
def Sys.take (p : ℕ) (timeout savedTicks : UInt32) (k : Kern ℕ) : Option (Event × Sys) :=
  match k.queues p with
  | [] =>
    some (.missed p (ipcCheckTimeout timeout savedTicks k.ticks), { s.setCall p .idle with kern := k })
  | w :: _ =>
    (k.wakeupWait p w WT_EVENT_SEND).map fun k =>
      (.took p (s.call w).number w (s.event w), { s.setCall p .storing with kern := k })

/-- `ipc_event_recv`, up to the call of `schedule()` in `recv_event` or the copy to the user; `ok` is
what `user_mem_check` says of the stores. -/
def Sys.ipcEventRecv (p : ℕ) (timeout : UInt32) (ok : Bool) : Option (Event × Sys) :=
  if ok then
    let k := s.kern.ipcTimerInit p timeout
    if k.queues p = [] then
      let k := k.setProc p { k.procs p with state := .sleeping, waitState := WT_EVENT_RECV }
      (k.ipcAddTimer p timeout).map fun k =>
        (.dozed p, { s.setCall p (.receiving timeout s.kern.ticks) with kern := k })
    else s.take p timeout s.kern.ticks k
  else some (.refused p, s)

/-- The part of `__do_exit` after the process has become a zombie. -/
def Sys.doExit (p : ℕ) : Option (Event × Sys) :=
  let k := s.kern.setProc p { s.kern.procs p with state := .zombie }
  (k.wakeupQueue p WT_INTERRUPTED).map fun k => (.exited p, { s with kern := k })

/-- A new process, with the pid of one that is gone. -/
def Sys.fork (p : ℕ) : Event × Sys :=
  let k := s.kern.setProc p ⟨.runnable, 0, false⟩
  (.forked p, { s with kern := { k with queues := update k.queues p [] } })

/-- A step. -/
inductive Op where
  | send (p dst : ℕ) (event : Int) (timeout : UInt32)
  | recv (p : ℕ) (timeout : UInt32) (ok : Bool)
  | resume (p : ℕ)
  | store (p : ℕ) (ok : Bool)
  | exit (p : ℕ)
  | fork (p : ℕ)
  | tick
  | kill (p : ℕ)
  deriving DecidableEq, Repr

/-- The process runs, and is where it takes the step. -/
def Sys.Enabled : Op → Prop
  | .send p _ _ _ | .recv p _ _ | .exit p => (s.kern.procs p).state = .runnable ∧ s.call p = .idle
  | .resume p => (s.kern.procs p).state = .runnable ∧ s.call p ≠ .idle ∧ s.call p ≠ .storing
  | .store p _ => (s.kern.procs p).state = .runnable ∧ s.call p = .storing
  | .fork p => (s.kern.procs p).state = .uninit ∨ (s.kern.procs p).state = .zombie
  | .tick | .kill _ => True

/-- The rest of a call after `schedule()`. -/
def Sys.resume (p : ℕ) : Option (Event × Sys) :=
  match s.call p with
  | .sending dst timeout savedTicks n =>
    (s.kern.wait p).bind fun w => s.resumeSend p dst timeout savedTicks n w.wakeupFlags
  | .receiving timeout savedTicks => s.take p timeout savedTicks (s.kern.ipcDelTimer p timeout)
  | .idle | .storing => none

/-- One step. -/
def Sys.step : Op → Option (Event × Sys)
  | .send p dst event timeout => s.ipcEventSend p dst event timeout
  | .recv p timeout ok => s.ipcEventRecv p timeout ok
  | .resume p => s.resume p
  | .store p ok => some (.stored p ok, s.setCall p .idle)
  | .exit p => s.doExit p
  | .fork p => some (s.fork p)
  | .tick => s.kern.tick.map fun k => (.ticked, { s with kern := k })
  | .kill p => (s.kern.doKill p).map fun k => (.killed p, { s with kern := k })

/-- Any number of steps, with what they have done, the last one first. -/
inductive Run (s₀ : Sys) : List Event → Sys → Prop
  | nil : Run s₀ [] s₀
  | cons {tr : List Event} {s s' : Sys} {e : Event} (op : Op) (hrun : Run s₀ tr s)
      (henabled : s.Enabled op) (hstep : s.step op = some (e, s')) : Run s₀ (e :: tr) s'

/-- No process has sent or received. -/
def Sys.boot (kern : Kern ℕ) (event : ℕ → Int) (reserved : ℕ → Bool) : Sys :=
  ⟨kern, event, fun _ => .idle, 0, reserved⟩

/-! ## What has happened -/

/-- The times that a send has been taken. -/
def takes (n : ℕ) : List Event → ℕ
  | [] => 0
  | .took _ m _ _ :: tr => takes n tr + if m = n then 1 else 0
  | _ :: tr => takes n tr

/-- The sends that have blocked at a process since it last exited, in order. -/
def blockedAt (p : ℕ) : List Event → List ℕ
  | [] => []
  | .blocked n _ dst _ :: tr => if dst = p then blockedAt p tr ++ [n] else blockedAt p tr
  | .exited q :: tr => if q = p then [] else blockedAt p tr
  | _ :: tr => blockedAt p tr

/-- The sends that a process has taken since it last exited, in order. -/
def takenAt (p : ℕ) : List Event → List ℕ
  | [] => []
  | .took q n _ _ :: tr => if q = p then takenAt p tr ++ [n] else takenAt p tr
  | .exited q :: tr => if q = p then [] else takenAt p tr
  | _ :: tr => takenAt p tr

/-! ## The invariant -/

/-- The timeout of the call that a process is in. -/
def Call.timeout : Call → UInt32
  | .sending _ timeout _ _ | .receiving timeout _ => timeout
  | .idle | .storing => 0

/-- The process is in a send. -/
def Call.Sending (c : Call) : Prop := ∃ dst timeout savedTicks n, c = .sending dst timeout savedTicks n

/-- There is no such process, or it has exited. -/
def Dead (x : Waits.Proc) : Prop := x.state = .uninit ∨ x.state = .zombie

/-- Where a process that waits is: in its send, which has been taken if the wait has been marked. -/
def Waiting (tr : List Event) (s : Sys) (p : ℕ) (w : Waits.WaitT ℕ) : Prop :=
  ∃ timeout savedTicks n, s.call p = .sending w.queue timeout savedTicks n ∧
    (w.wakeupFlags = WT_INTERRUPTED ∧ takes n tr = 0 ∨ w.wakeupFlags = WT_EVENT_SEND ∧ takes n tr = 1) ∧
    .blocked n p w.queue (s.event p) ∈ tr

/-- What holds after the steps `tr`. -/
structure Inv (tr : List Event) (s : Sys) : Prop where
  kern : Waits.Inv s.kern
  waits : ∀ p w, s.kern.wait p = some w → Waiting tr s p w
  sending : ∀ p, (s.call p).Sending → s.kern.wait p ≠ none
  timed : ∀ p ∈ s.kern.timers.list, (s.call p).timeout ≠ 0
  dead : ∀ p, Dead (s.kern.procs p) → s.kern.queues p = [] ∧ s.call p = .idle
  distinct : ∀ p q, (s.call p).Sending → (s.call q).Sending → (s.call p).number = (s.call q).number → p = q
  active : ∀ p r, (s.call p).Sending → .returned (s.call p).number r ∉ tr
  numbered : ∀ n p dst event, .blocked n p dst event ∈ tr → n < s.sends
  fresh : ∀ n, s.sends ≤ n → takes n tr = 0
  once : ∀ n, takes n tr ≤ 1
  single : ∀ n p dst event p' dst' event', .blocked n p dst event ∈ tr → .blocked n p' dst' event' ∈ tr →
    p = p' ∧ dst = dst' ∧ event = event'
  paired : ∀ p n pid event, .took p n pid event ∈ tr → .blocked n pid p event ∈ tr
  done : ∀ n r, .returned n r ∈ tr → n < s.sends ∧ takes n tr = if r = .ok then 1 else 0
  fifo : ∀ p, (takenAt p tr ++ (s.kern.queues p).map fun q => (s.call q).number).Sublist (blockedAt p tr)

/-- Steps that the sends do not notice. -/
def Event.Silent : Event → Prop
  | .refused _ | .dozed _ | .missed _ _ | .stored _ _ | .forked _ | .ticked | .killed _ => True
  | .blocked _ _ _ _ | .returned _ _ | .took _ _ _ _ | .exited _ => False

/-- Everything a step can do. -/
inductive Does (s : Sys) : Event → Sys → Prop
  | silent (e : Event) (k : Kern ℕ) (call : ℕ → Call) (hsilent : e.Silent) (hinv : Waits.Inv k)
      (hwait : k.wait = s.kern.wait) (hqueues : k.queues = s.kern.queues)
      (hcall : ∀ p, call p = s.call p ∨ ¬ (s.call p).Sending ∧ ¬ (call p).Sending)
      (htimed : ∀ p ∈ k.timers.list, (call p).timeout ≠ 0)
      (hdead : ∀ p, Dead (k.procs p) → Dead (s.kern.procs p) ∧ call p = s.call p) :
      Does s e { s with kern := k, call := call }
  | blocked (p dst : ℕ) (event : Int) (timeout savedTicks : UInt32) (k₀ k : Kern ℕ)
      (hcall : s.call p = .idle) (hdst : ¬ Dead (s.kern.procs dst)) (hroused : Waits.Roused s.kern k₀)
      (htimers : k₀.timers = s.kern.timers) (hinv : Waits.Inv k)
      (hblocked : Waits.Blocked k₀ dst p WT_EVENT_SEND timeout k) :
      Does s (.blocked s.sends p dst event)
        { s with
          kern := k
          event := update s.event p event
          call := update s.call p (.sending dst timeout savedTicks s.sends)
          sends := s.sends + 1 }
  | returned (p dst n : ℕ) (timeout savedTicks f : UInt32) (r : Ret) (k : Kern ℕ)
      (hcall : s.call p = .sending dst timeout savedTicks n) (hwait : s.kern.wait p = some ⟨f, dst⟩)
      (hret : r = .ok ↔ f = WT_EVENT_SEND) (hinv : Waits.Inv k)
      (hunblocked : Waits.Unblocked s.kern dst p k) :
      Does s (.returned n r) { s with kern := k, call := update s.call p .idle }
  | took (p w : ℕ) (rest : List ℕ) (k : Kern ℕ) (hcall : ¬ (s.call p).Sending)
      (hrun : (s.kern.procs p).state = .runnable) (hqueue : s.kern.queues p = w :: rest)
      (hinv : Waits.Inv k) (hqueues : k.queues = update s.kern.queues p rest)
      (hwait : k.wait = update s.kern.wait w (some ⟨WT_EVENT_SEND, p⟩))
      (hprocs : k.procs = update s.kern.procs w (s.kern.procs w).rouse)
      (htimers : ∀ i ∈ k.timers.list, i ∈ s.kern.timers.list ∧ i ≠ p) :
      Does s (.took p (s.call w).number w (s.event w))
        { s with kern := k, call := update s.call p .storing }
  | exited (p : ℕ) (k : Kern ℕ) (hcall : s.call p = .idle) (hrun : (s.kern.procs p).state = .runnable)
      (hinv : Waits.Inv k)
      (hwoke : Waits.WokeAll (s.kern.setProc p { s.kern.procs p with state := .zombie }) p
        WT_INTERRUPTED k) :
      Does s (.exited p) { s with kern := k }

variable {s} {s' : Sys} {e : Event} {tr : List Event}

theorem flags_ne : WT_INTERRUPTED ≠ WT_EVENT_SEND := by decide

theorem Call.not_sending_idle : ¬ Call.idle.Sending := by
  rintro ⟨dst, timeout, savedTicks, n, h⟩
  cases h

theorem Call.not_sending_storing : ¬ Call.storing.Sending := by
  rintro ⟨dst, timeout, savedTicks, n, h⟩
  cases h

theorem Call.not_sending_receiving (timeout savedTicks : UInt32) :
    ¬ (Call.receiving timeout savedTicks).Sending := by
  rintro ⟨dst, t, u, n, h⟩
  cases h

/-- A process that is not in a send does not wait. -/
theorem Inv.no_wait (h : Inv tr s) {p : ℕ} (hcall : ¬ (s.call p).Sending) : s.kern.wait p = none := by
  cases hw : s.kern.wait p with
  | none => rfl
  | some w =>
    obtain ⟨timeout, savedTicks, n, hsend, -⟩ := h.waits p w hw
    exact absurd ⟨_, _, _, _, hsend⟩ hcall

theorem Inv.untimed (h : Inv tr s) {p : ℕ} (hcall : (s.call p).timeout = 0) : p ∉ s.kern.timers.list :=
  fun hp => h.timed p hp hcall

/-- A live process that is not asleep in a queue is not dead. -/
theorem not_dead_of_runnable {x : Waits.Proc} (h : x.state = .runnable) : ¬ Dead x := by
  rintro (hx | hx)
  · rw [h] at hx
    cases hx
  · rw [h] at hx
    cases hx

/-- Waking processes makes none of them dead, and none that was dead alive. -/
theorem dead_of_roused {k k' : Kern ℕ} (h : Waits.Roused k k') {p : ℕ} (hp : Dead (k'.procs p)) :
    Dead (k.procs p) := by
  rcases h.procs p with hsame | hwoke
  · unfold Dead at hp ⊢
    rw [hsame.1] at hp
    exact hp
  · exact absurd hp (not_dead_of_runnable hwoke.2)

/-! ## No assertion fails -/

theorem Inv.roused_spec (h : Inv tr s) {e : Event} (hsilent : e.Silent) {k : Kern ℕ} (hinv : Waits.Inv k)
    (hroused : Waits.Roused s.kern k) (htimers : ∀ i ∈ k.timers.list, i ∈ s.kern.timers.list) :
    Does s e { s with kern := k } :=
  .silent e k s.call hsilent hinv hroused.wait hroused.queues (fun _ => Or.inl rfl)
    (fun p hp => h.timed p (htimers p hp)) fun _ hp => ⟨dead_of_roused hroused hp, rfl⟩

theorem Inv.send_spec (h : Inv tr s) {p : ℕ} (hcall : s.call p = .idle) (dst : ℕ) (event : Int)
    (timeout : UInt32) : ∃ e s', s.ipcEventSend p dst event timeout = some (e, s') ∧ Does s e s' := by
  have hrefused : Does s (.refused p) s :=
    h.roused_spec (e := .refused p) trivial h.kern (Waits.Roused.refl _) fun _ hi => hi
  unfold Sys.ipcEventSend
  split
  · exact ⟨_, _, rfl, hrefused⟩
  · rename_i hdst
    split
    · exact ⟨_, _, rfl, hrefused⟩
    · -- the receiver is woken if it waits for an event
      have hwake : ∃ k₀, (if (s.kern.procs dst).waitState = WT_EVENT_RECV then s.kern.wakeupProc dst
          else some s.kern) = some k₀ ∧ Waits.Inv k₀ ∧ Waits.Roused s.kern k₀ ∧
          k₀.timers = s.kern.timers := by
        split
        · rename_i hrecv
          have hsleep : (s.kern.procs dst).state = .sleeping := by
            by_contra hne
            rw [h.kern.awake dst hne] at hrecv
            exact absurd hrecv (by decide)
          obtain ⟨k₀, hwake, hinv, hroused, htimers, -⟩ := h.kern.wakeupProc_spec hsleep
          exact ⟨k₀, hwake, hinv, hroused, htimers⟩
        · exact ⟨s.kern, rfl, h.kern, Waits.Roused.refl _, rfl⟩
      obtain ⟨k₀, hwake, hinv₀, hroused, htimers⟩ := hwake
      have hidle : ¬ (s.call p).Sending := by
        rw [hcall]
        exact Call.not_sending_idle
      obtain ⟨k, hblock, hinv, hblocked⟩ := hinv₀.block_spec
        (by rw [hroused.wait]; exact h.no_wait hidle)
        (by rw [htimers]; exact h.untimed (by rw [hcall]; rfl)) dst
        (by decide : WT_EVENT_SEND &&& WT_INTERRUPTED ≠ 0) timeout
      dsimp only
      rw [hwake, Option.bind_some, hblock]
      exact ⟨_, _, rfl, .blocked p dst event timeout _ k₀ k hcall hdst hroused htimers hinv hblocked⟩

theorem Inv.resumeSend_spec (h : Inv tr s) {p dst n : ℕ} {timeout savedTicks : UInt32}
    (hcall : s.call p = .sending dst timeout savedTicks n) :
    ∃ e s', (s.kern.wait p).bind (fun w => s.resumeSend p dst timeout savedTicks n w.wakeupFlags) =
      some (e, s') ∧ Does s e s' := by
  obtain ⟨w, hw⟩ := Option.ne_none_iff_exists'.mp (h.sending p ⟨_, _, _, _, hcall⟩)
  obtain ⟨timeout', savedTicks', n', hcall', hflags, -⟩ := h.waits p w hw
  rw [hcall] at hcall'
  obtain ⟨hdst, rfl, rfl, rfl⟩ := Call.sending.inj hcall'
  have hw' : s.kern.wait p = some ⟨w.wakeupFlags, dst⟩ := by
    rw [hw, hdst]
  obtain ⟨hinv, hun⟩ := h.kern.unblock_spec timeout hw'
    fun hzero => h.untimed (by rw [hcall]; exact hzero)
  rw [hw, Option.bind_some]
  unfold Sys.resumeSend
  dsimp only
  split
  · rename_i hflag
    exact ⟨_, _, rfl, .returned p dst n timeout savedTicks _ .ok _ hcall hw' ⟨fun _ => hflag, fun _ => rfl⟩
      hinv hun⟩
  · rename_i hflag
    have hint : w.wakeupFlags = WT_INTERRUPTED := by
      rcases hflags with hf | hf
      · exact hf.1
      · exact absurd hf.1 hflag
    rw [if_pos hint]
    refine ⟨_, _, rfl, .returned p dst n timeout savedTicks _ _ _ hcall hw'
      ⟨fun hok => absurd hok ?_, fun hf => absurd hf hflag⟩ hinv hun⟩
    unfold ipcCheckTimeout
    split <;> decide

/-- The end of `recv_event`, after a change to the timers that leaves the receiver none. -/
theorem Inv.take_spec (h : Inv tr s) {p : ℕ} (hcall : ¬ (s.call p).Sending)
    (hrun : (s.kern.procs p).state = .runnable) (timeout savedTicks : UInt32) {k : Kern ℕ}
    (hinv : Waits.Inv k) (hwait : k.wait = s.kern.wait) (hqueues : k.queues = s.kern.queues)
    (hprocs : k.procs = s.kern.procs) (htimers : ∀ i ∈ k.timers.list, i ∈ s.kern.timers.list ∧ i ≠ p) :
    ∃ e s', s.take p timeout savedTicks k = some (e, s') ∧ Does s e s' := by
  unfold Sys.take
  cases hq : k.queues p with
  | nil =>
    refine ⟨_, _, rfl, .silent _ k (update s.call p .idle) trivial hinv hwait hqueues
      (fun r => ?_) (fun r hr => ?_) fun r hr => ?_⟩
    · by_cases hrp : r = p
      · subst hrp
        rw [update_self]
        exact Or.inr ⟨hcall, Call.not_sending_idle⟩
      · rw [update_of_ne hrp]
        exact Or.inl rfl
    · rw [update_of_ne (htimers r hr).2]
      exact h.timed r (htimers r hr).1
    · rw [hprocs] at hr
      have hrp : r ≠ p := fun hrp => not_dead_of_runnable hrun (hrp ▸ hr)
      exact ⟨hr, update_of_ne hrp ..⟩
  | cons w rest =>
    have hw : w ∈ k.queues p := by simp [hq]
    obtain ⟨k', hwake, hinv', hwoke⟩ := hinv.wakeupWait_spec hw WT_EVENT_SEND
    refine ⟨.took p (s.call w).number w (s.event w), { s.setCall p .storing with kern := k' }, ?_,
      .took p w rest k' hcall hrun (by rw [← hqueues]; exact hq) hinv' ?_ ?_ ?_ ?_⟩
    · dsimp only
      rw [hwake]
      rfl
    · rw [hwoke.queues, hq, List.erase_cons_head, hqueues]
    · rw [hwoke.wait, hwait]
    · rw [hwoke.procs, hprocs]
    · rw [hwoke.timers]
      exact htimers

theorem Inv.recv_spec (h : Inv tr s) {p : ℕ} (hcall : s.call p = .idle)
    (hrun : (s.kern.procs p).state = .runnable) (timeout : UInt32) (ok : Bool) :
    ∃ e s', s.ipcEventRecv p timeout ok = some (e, s') ∧ Does s e s' := by
  have hidle : ¬ (s.call p).Sending := by
    rw [hcall]
    exact Call.not_sending_idle
  have hout := h.untimed (p := p) (by rw [hcall]; rfl)
  obtain ⟨hinit, hdead, hexp⟩ := h.kern.timerInit_spec hout timeout
  unfold Sys.ipcEventRecv
  cases ok with
  | false =>
    exact ⟨_, _, rfl, h.roused_spec (e := .refused p) trivial h.kern (Waits.Roused.refl _) fun _ hi => hi⟩
  | true =>
    rw [if_pos rfl]
    dsimp only
    split
    · have hwait : (s.kern.ipcTimerInit p timeout).wait p = none := by
        rw [Kern.ipcTimerInit_wait]
        exact h.no_wait hidle
      have hdoze := hinit.doze hwait (by decide : WT_EVENT_RECV &&& WT_INTERRUPTED ≠ 0)
      obtain ⟨k, hadd, hinv, harmed⟩ := hdoze.addTimer_spec (p := p) timeout
        (by
          show p ∉ (s.kern.ipcTimerInit p timeout).timers.list
          rw [Kern.ipcTimerInit_list]
          exact hout)
        (Or.inl (by rw [Kern.setProc_self]))
        fun hne => ⟨by
          show (s.kern.ipcTimerInit p timeout).timers.expires p ≠ 0
          rw [(hexp hne).1]
          exact hne, (hexp hne).2⟩
      rw [hadd]
      refine ⟨_, _, rfl, .silent _ k (update s.call p (.receiving timeout s.kern.ticks)) trivial hinv
        ?_ ?_ (fun r => ?_) (fun r hr => ?_) fun r hr => ?_⟩
      · rw [harmed.wait]
        exact Kern.ipcTimerInit_wait timeout
      · rw [harmed.queues]
        exact Kern.ipcTimerInit_queues timeout
      · by_cases hrp : r = p
        · subst hrp
          rw [update_self]
          exact Or.inr ⟨hidle, Call.not_sending_receiving _ _⟩
        · rw [update_of_ne hrp]
          exact Or.inl rfl
      · by_cases hrp : r = p
        · subst hrp
          rw [update_self]
          intro hzero
          replace hzero : timeout = 0 := hzero
          refine Timers.not_mem_of_deadlines ?_ hr
          rw [harmed.deadlines, if_neg (not_not.mpr hzero)]
          show (s.kern.ipcTimerInit r timeout).timers.deadlines r = none
          rw [hdead]
          exact Timers.deadlines_of_not_mem hout
        · rw [update_of_ne hrp]
          refine h.timed r ((Timers.same_of_deadlines ?_).1.mp hr)
          rw [harmed.deadlines]
          show (if timeout ≠ 0 then update (s.kern.ipcTimerInit p timeout).timers.deadlines p _
            else (s.kern.ipcTimerInit p timeout).timers.deadlines) r = _
          rw [hdead]
          split
          · rw [update_of_ne hrp]
          · rfl
      · have hrp : r ≠ p := by
          intro hrp
          rw [hrp, harmed.procs, Kern.setProc_self] at hr
          rcases hr with hr | hr <;> cases hr
        rw [harmed.procs, Kern.setProc_of_ne hrp, Kern.ipcTimerInit_procs] at hr
        exact ⟨hr, update_of_ne hrp ..⟩
    · refine h.take_spec hidle hrun timeout _ hinit (Kern.ipcTimerInit_wait timeout)
        (Kern.ipcTimerInit_queues timeout) (Kern.ipcTimerInit_procs timeout) fun i hi => ?_
      rw [Kern.ipcTimerInit_list] at hi
      exact ⟨hi, fun hip => hout (hip ▸ hi)⟩

theorem Inv.resume_spec (h : Inv tr s) {p : ℕ} (hrun : (s.kern.procs p).state = .runnable)
    (hidle : s.call p ≠ .idle) (hstoring : s.call p ≠ .storing) :
    ∃ e s', s.resume p = some (e, s') ∧ Does s e s' := by
  unfold Sys.resume
  cases hcall : s.call p with
  | idle => exact absurd hcall hidle
  | storing => exact absurd hcall hstoring
  | sending dst timeout savedTicks n => exact h.resumeSend_spec hcall
  | receiving timeout savedTicks =>
    obtain ⟨hdel, hdis⟩ := h.kern.delTimer_spec (p := p) timeout
      fun hzero => h.untimed (by rw [hcall]; exact hzero)
    refine h.take_spec (by rw [hcall]; exact Call.not_sending_receiving _ _) hrun timeout savedTicks hdel
      hdis.wait hdis.queues hdis.procs fun i hi => ?_
    by_cases hip : i = p
    · subst hip
      exact absurd hi (Timers.not_mem_of_deadlines (by rw [hdis.deadlines, update_self]))
    · refine ⟨(Timers.same_of_deadlines ?_).1.mp hi, hip⟩
      rw [hdis.deadlines, update_of_ne hip]

theorem Inv.exit_spec (h : Inv tr s) {p : ℕ} (hcall : s.call p = .idle)
    (hrun : (s.kern.procs p).state = .runnable) : ∃ e s', s.doExit p = some (e, s') ∧ Does s e s' := by
  have hidle : ¬ (s.call p).Sending := by
    rw [hcall]
    exact Call.not_sending_idle
  have hzombie := h.kern.setProc (h.no_wait hidle) (h.untimed (by rw [hcall]; rfl))
    (x := { s.kern.procs p with state := .zombie }) nofun (h.kern.awake p (by rw [hrun]; decide))
  obtain ⟨k, hwake, hinv, hwoke⟩ := hzombie.wakeupQueue_spec p WT_INTERRUPTED
  unfold Sys.doExit
  dsimp only
  rw [hwake]
  exact ⟨_, _, rfl, .exited p k hcall hrun hinv hwoke⟩

theorem Inv.fork_spec (h : Inv tr s) {p : ℕ} (hdead : Dead (s.kern.procs p)) :
    Does s (s.fork p).1 (s.fork p).2 := by
  obtain ⟨hqueue, hcall⟩ := h.dead p hdead
  have hidle : ¬ (s.call p).Sending := by
    rw [hcall]
    exact Call.not_sending_idle
  have hqueues : update s.kern.queues p [] = s.kern.queues := by
    rw [← hqueue, update_eq_self]
  have hnew := h.kern.setProc (h.no_wait hidle) (h.untimed (by rw [hcall]; rfl))
    (x := ⟨.runnable, 0, false⟩) nofun rfl
  unfold Sys.fork
  dsimp only
  refine .silent _ _ s.call trivial ?_ rfl hqueues (fun _ => Or.inl rfl) h.timed fun r hr => ?_
  · show Waits.Inv { s.kern.setProc p ⟨.runnable, 0, false⟩ with
      queues := update s.kern.queues p [] }
    rw [hqueues]
    exact hnew
  · by_cases hrp : r = p
    · rw [hrp]
      exact ⟨hdead, rfl⟩
    · replace hr : Dead ((s.kern.setProc p ⟨.runnable, 0, false⟩).procs r) := hr
      rw [Kern.setProc_of_ne hrp] at hr
      exact ⟨hr, rfl⟩

/-- **No assertion fails.** -/
theorem Inv.step_spec (h : Inv tr s) {op : Op} (henabled : s.Enabled op) :
    ∃ e s', s.step op = some (e, s') ∧ Does s e s' := by
  cases op with
  | send p dst event timeout => exact h.send_spec henabled.2 dst event timeout
  | recv p timeout ok => exact h.recv_spec henabled.2 henabled.1 timeout ok
  | resume p => exact h.resume_spec henabled.1 henabled.2.1 henabled.2.2
  | store p ok =>
    obtain ⟨hrun, hcall⟩ := henabled
    refine ⟨_, _, rfl, .silent _ s.kern (update s.call p .idle) trivial h.kern rfl rfl (fun r => ?_)
      (fun r hr => ?_) fun r hr => ?_⟩
    · by_cases hrp : r = p
      · subst hrp
        rw [update_self, hcall]
        exact Or.inr ⟨Call.not_sending_storing, Call.not_sending_idle⟩
      · exact Or.inl (update_of_ne hrp ..)
    · have hrp : r ≠ p := fun hrp => h.untimed (by rw [hcall]; rfl) (hrp ▸ hr)
      rw [update_of_ne hrp]
      exact h.timed r hr
    · have hrp : r ≠ p := fun hrp => not_dead_of_runnable hrun (hrp ▸ hr)
      exact ⟨hr, update_of_ne hrp ..⟩
  | exit p => exact h.exit_spec henabled.2 henabled.1
  | fork p => exact ⟨_, _, rfl, h.fork_spec henabled⟩
  | tick =>
    obtain ⟨k, htick, hinv, hticked⟩ := h.kern.tick_spec
    unfold Sys.step
    rw [htick]
    exact ⟨_, _, rfl, h.roused_spec (e := .ticked) trivial hinv hticked.roused fun _ hi => hticked.mem hi⟩
  | kill p =>
    obtain ⟨k, hkill, hinv, hkilled⟩ := h.kern.kill_spec p
    unfold Sys.step
    dsimp only
    rw [hkill]
    refine ⟨_, _, rfl, h.roused_spec (e := .killed p) trivial hinv hkilled.roused fun i hi => ?_⟩
    rw [hkilled.timers] at hi
    exact hi

/-! ## One step -/

/-- A silent step adds nothing that the sends notice to the record. -/
theorem Event.Silent.keeps (h : e.Silent) : (∀ n, takes n (e :: tr) = takes n tr) ∧
    (∀ p, blockedAt p (e :: tr) = blockedAt p tr) ∧ (∀ p, takenAt p (e :: tr) = takenAt p tr) ∧
    ∀ e' : Event, ¬ e'.Silent → (e' ∈ e :: tr ↔ e' ∈ tr) := by
  refine ⟨fun n => ?_, fun p => ?_, fun p => ?_, fun e' he' => ?_⟩
  · cases e <;> first | rfl | exact h.elim
  · cases e <;> first | rfl | exact h.elim
  · cases e <;> first | rfl | exact h.elim
  · have hne : e' ≠ e := fun heq => he' (heq ▸ h)
    rw [List.mem_cons]
    exact or_iff_right hne

theorem not_silent_blocked (n p dst : ℕ) (event : Int) : ¬ (Event.blocked n p dst event).Silent := id

theorem not_silent_returned (n : ℕ) (r : Ret) : ¬ (Event.returned n r).Silent := id

theorem not_silent_took (p n pid : ℕ) (event : Int) : ¬ (Event.took p n pid event).Silent := id

theorem Inv.silent (h : Inv tr s) {k : Kern ℕ} {call : ℕ → Call} (hsilent : e.Silent)
    (hinv : Waits.Inv k) (hwait : k.wait = s.kern.wait) (hqueues : k.queues = s.kern.queues)
    (hcall : ∀ p, call p = s.call p ∨ ¬ (s.call p).Sending ∧ ¬ (call p).Sending)
    (htimed : ∀ p ∈ k.timers.list, (call p).timeout ≠ 0)
    (hdead : ∀ p, Dead (k.procs p) → Dead (s.kern.procs p) ∧ call p = s.call p) :
    Inv (e :: tr) { s with kern := k, call := call } := by
  obtain ⟨htakes, hblockedAt, htakenAt, hmem⟩ := hsilent.keeps
  -- the calls of the senders are as they were
  have hold : ∀ p, (s.call p).Sending → call p = s.call p := fun p hp =>
    (hcall p).resolve_right fun hne => hne.1 hp
  have hnew : ∀ p, (call p).Sending → call p = s.call p := fun p hp =>
    (hcall p).resolve_right fun hne => hne.2 hp
  refine ⟨hinv, fun p w hw => ?_, fun p hp => ?_, htimed, fun p hp => ?_, fun p q hp hq hpq => ?_,
    fun p r hp hret => ?_, fun n p dst event hb => ?_, fun n hn => ?_, fun n => ?_,
    fun n p dst event p' dst' event' hb hb' => ?_, fun p n pid event ht => ?_, fun n r hret => ?_,
    fun p => ?_⟩
  · replace hw : k.wait p = some w := hw
    rw [hwait] at hw
    obtain ⟨timeout, savedTicks, n, hsend, hflags, hblocked⟩ := h.waits p w hw
    refine ⟨timeout, savedTicks, n, (hold p ⟨_, _, _, _, hsend⟩).trans hsend, ?_, List.mem_cons_of_mem e hblocked⟩
    rw [htakes]
    exact hflags
  · show k.wait p ≠ none
    rw [hwait]
    replace hp : (call p).Sending := hp
    rw [hnew p hp] at hp
    exact h.sending p hp
  · obtain ⟨hp', hsame⟩ := hdead p hp
    show k.queues p = [] ∧ call p = .idle
    rw [hqueues, hsame]
    exact h.dead p hp'
  · replace hp : (call p).Sending := hp
    replace hq : (call q).Sending := hq
    replace hpq : (call p).number = (call q).number := hpq
    have hp' := hnew p hp
    have hq' := hnew q hq
    rw [hp'] at hp hpq
    rw [hq'] at hq hpq
    exact h.distinct p q hp hq hpq
  · replace hp : (call p).Sending := hp
    replace hret : .returned (call p).number r ∈ e :: tr := hret
    rw [hmem _ (not_silent_returned _ r), hnew p hp] at hret
    rw [hnew p hp] at hp
    exact h.active p r hp hret
  · rw [hmem _ (not_silent_blocked n p dst event)] at hb
    exact h.numbered n p dst event hb
  · rw [htakes]
    exact h.fresh n hn
  · rw [htakes]
    exact h.once n
  · rw [hmem _ (not_silent_blocked n p dst event)] at hb
    rw [hmem _ (not_silent_blocked n p' dst' event')] at hb'
    exact h.single n p dst event p' dst' event' hb hb'
  · rw [hmem _ (not_silent_took p n pid event)] at ht
    exact List.mem_cons_of_mem e (h.paired p n pid event ht)
  · rw [hmem _ (not_silent_returned n r)] at hret
    rw [htakes]
    exact h.done n r hret
  · have hmap : (k.queues p).map (fun q => (call q).number) =
        (s.kern.queues p).map fun q => (s.call q).number := by
      rw [hqueues]
      refine List.map_congr_left fun q hq => ?_
      obtain ⟨timeout, savedTicks, n, hsend, -⟩ := h.waits q _ (h.kern.queued p q hq)
      rw [hold q ⟨_, _, _, _, hsend⟩]
    show (takenAt p (e :: tr) ++ (k.queues p).map fun q => (call q).number).Sublist _
    rw [htakenAt, hblockedAt, hmap]
    exact h.fifo p

theorem Inv.block (h : Inv tr s) {p dst : ℕ} {event : Int} {timeout savedTicks : UInt32} {k₀ k : Kern ℕ}
    (hcall : s.call p = .idle) (hdst : ¬ Dead (s.kern.procs dst)) (hroused : Waits.Roused s.kern k₀)
    (htimers : k₀.timers = s.kern.timers) (hinv : Waits.Inv k)
    (hblocked : Waits.Blocked k₀ dst p WT_EVENT_SEND timeout k) :
    Inv (.blocked s.sends p dst event :: tr)
      { s with
        kern := k
        event := update s.event p event
        call := update s.call p (.sending dst timeout savedTicks s.sends)
        sends := s.sends + 1 } := by
  have hidle : ¬ (s.call p).Sending := by
    rw [hcall]
    exact Call.not_sending_idle
  have hwait : k.wait = update s.kern.wait p (some ⟨WT_INTERRUPTED, dst⟩) := by
    rw [hblocked.wait, hroused.wait]
  have hqueues : k.queues = update s.kern.queues dst (s.kern.queues dst ++ [p]) := by
    rw [hblocked.queues, hroused.queues]
  have hself : update s.call p (.sending dst timeout savedTicks s.sends) p =
      .sending dst timeout savedTicks s.sends := update_self ..
  have hother : ∀ q, q ≠ p →
      update s.call p (.sending dst timeout savedTicks s.sends) q = s.call q :=
    fun q hq => update_of_ne hq ..
  -- the numbers of the other sends are smaller
  have hsmall : ∀ q, (s.call q).Sending → (s.call q).number < s.sends := by
    intro q hq
    obtain ⟨w, hw⟩ := Option.ne_none_iff_exists'.mp (h.sending q hq)
    obtain ⟨timeout', savedTicks', n, hsend, -, hb⟩ := h.waits q w hw
    rw [hsend]
    exact h.numbered n q w.queue _ hb
  have hnone : ∀ r, .returned s.sends r ∉ tr := fun r hret => absurd (h.done _ r hret).1 (Nat.lt_irrefl _)
  refine ⟨hinv, fun q w hw => ?_, fun q hq => ?_, fun q hq => ?_, fun q hq => ?_, fun q r hq hr hqr => ?_,
    fun q r hq hret => ?_, fun n q dst' event' hb => ?_, fun n hn => ?_, h.once, ?_,
    fun q n pid event' ht => ?_, fun n r hret => ?_, fun q => ?_⟩
  · replace hw : k.wait q = some w := hw
    rw [hwait] at hw
    by_cases hqp : q = p
    · subst hqp
      rw [update_self] at hw
      cases hw
      refine ⟨timeout, savedTicks, s.sends, hself, Or.inl ⟨rfl, h.fresh _ (Nat.le_refl _)⟩, ?_⟩
      show _ ∈ Event.blocked s.sends q dst event :: tr
      rw [show ({ s with
        kern := k
        event := update s.event q event
        call := update s.call q (.sending dst timeout savedTicks s.sends)
        sends := s.sends + 1 } : Sys).event q = event from update_self ..]
      exact List.mem_cons_self
    · rw [update_of_ne hqp] at hw
      obtain ⟨timeout', savedTicks', n, hsend, hflags, hb⟩ := h.waits q w hw
      refine ⟨timeout', savedTicks', n, (hother q hqp).trans hsend, hflags, List.mem_cons_of_mem _ ?_⟩
      show Event.blocked n q w.queue (update s.event p event q) ∈ tr
      rw [update_of_ne hqp]
      exact hb
  · show k.wait q ≠ none
    rw [hwait]
    by_cases hqp : q = p
    · subst hqp
      rw [update_self]
      exact Option.some_ne_none _
    · rw [update_of_ne hqp]
      replace hq : (update s.call p (.sending dst timeout savedTicks s.sends) q).Sending := hq
      rw [hother q hqp] at hq
      exact h.sending q hq
  · show (update s.call p _ q).timeout ≠ 0
    by_cases hqp : q = p
    · subst hqp
      rw [hself]
      intro hzero
      replace hzero : timeout = 0 := hzero
      refine Timers.not_mem_of_deadlines ?_ hq
      rw [hblocked.deadlines, if_neg (not_not.mpr hzero), htimers]
      exact Timers.deadlines_of_not_mem (h.untimed (by rw [hcall]; rfl))
    · rw [hother q hqp]
      refine h.timed q ((Timers.same_of_deadlines ?_).1.mp hq)
      rw [hblocked.deadlines, htimers]
      split
      · rw [update_of_ne hqp]
      · rfl
  · replace hq : Dead (k.procs q) := hq
    have hqp : q ≠ p := by
      intro hqp
      rw [hqp, hblocked.procs, update_self] at hq
      rcases hq with hq | hq <;> cases hq
    rw [hblocked.procs, update_of_ne hqp] at hq
    have hq' := dead_of_roused hroused hq
    have hqd : q ≠ dst := fun hqd => hdst (hqd ▸ hq')
    show k.queues q = [] ∧ update s.call p _ q = .idle
    rw [hqueues, update_of_ne hqd, hother q hqp]
    exact h.dead q hq'
  · replace hq : (update s.call p (.sending dst timeout savedTicks s.sends) q).Sending := hq
    replace hr : (update s.call p (.sending dst timeout savedTicks s.sends) r).Sending := hr
    replace hqr : (update s.call p (.sending dst timeout savedTicks s.sends) q).number =
      (update s.call p (.sending dst timeout savedTicks s.sends) r).number := hqr
    by_cases hqp : q = p
    · by_cases hrp : r = p
      · rw [hqp, hrp]
      · rw [hother r hrp] at hr hqr
        rw [hqp, hself] at hqr
        exact absurd hqr.symm (Nat.ne_of_lt (hsmall r hr))
    · rw [hother q hqp] at hq hqr
      by_cases hrp : r = p
      · rw [hrp, hself] at hqr
        exact absurd hqr (Nat.ne_of_lt (hsmall q hq))
      · rw [hother r hrp] at hr hqr
        exact h.distinct q r hq hr hqr
  · replace hq : (update s.call p (.sending dst timeout savedTicks s.sends) q).Sending := hq
    replace hret : .returned (update s.call p (.sending dst timeout savedTicks s.sends) q).number r ∈
      Event.blocked s.sends p dst event :: tr := hret
    rw [List.mem_cons, or_iff_right nofun] at hret
    by_cases hqp : q = p
    · rw [hqp, hself] at hret
      exact hnone r hret
    · rw [hother q hqp] at hq hret
      exact h.active q r hq hret
  · show n < s.sends + 1
    rcases List.mem_cons.mp hb with heq | hb
    · cases heq
      omega
    · have := h.numbered n q dst' event' hb
      omega
  · replace hn : s.sends + 1 ≤ n := hn
    exact h.fresh n (by omega)
  · intro n q d ev q' d' ev' hb hb'
    rcases List.mem_cons.mp hb with heq | hb
    · cases heq
      rcases List.mem_cons.mp hb' with heq' | hb'
      · cases heq'
        exact ⟨rfl, rfl, rfl⟩
      · exact absurd (h.numbered _ _ _ _ hb') (Nat.lt_irrefl _)
    · rcases List.mem_cons.mp hb' with heq' | hb'
      · cases heq'
        exact absurd (h.numbered _ _ _ _ hb) (Nat.lt_irrefl _)
      · exact h.single n q d ev q' d' ev' hb hb'
  · rw [List.mem_cons, or_iff_right nofun] at ht
    exact List.mem_cons_of_mem _ (h.paired q n pid event' ht)
  · rw [List.mem_cons, or_iff_right nofun] at hret
    obtain ⟨hlt, htakes⟩ := h.done n r hret
    exact ⟨Nat.lt_succ_of_lt hlt, htakes⟩
  · have hmap : ∀ q', (s.kern.queues q').map
        (fun r => (update s.call p (.sending dst timeout savedTicks s.sends) r).number) =
        (s.kern.queues q').map fun r => (s.call r).number := by
      intro q'
      refine List.map_congr_left fun r hr => ?_
      have hrp : r ≠ p := fun hrp => h.kern.not_queued (h.no_wait hidle) q' (hrp ▸ hr)
      rw [hother r hrp]
    show (takenAt q tr ++ (k.queues q).map fun r =>
      (update s.call p (.sending dst timeout savedTicks s.sends) r).number).Sublist
        (if dst = q then blockedAt q tr ++ [s.sends] else blockedAt q tr)
    rw [hqueues]
    by_cases hqd : q = dst
    · subst hqd
      rw [update_self, if_pos rfl, List.map_append, hmap, ← List.append_assoc]
      refine (h.fifo q).append ?_
      rw [List.map_singleton, hself]
      exact List.Sublist.refl _
    · rw [update_of_ne hqd, if_neg fun hdq => hqd hdq.symm, hmap]
      exact h.fifo q

/-- The number of a send is smaller than that of the next one. -/
theorem Inv.number_lt (h : Inv tr s) {p : ℕ} (hp : (s.call p).Sending) : (s.call p).number < s.sends := by
  obtain ⟨w, hw⟩ := Option.ne_none_iff_exists'.mp (h.sending p hp)
  obtain ⟨timeout, savedTicks, n, hsend, -, hb⟩ := h.waits p w hw
  rw [hsend]
  exact h.numbered n p w.queue _ hb

theorem Inv.goOn (h : Inv tr s) {p dst n : ℕ} {timeout savedTicks f : UInt32} {r : Ret} {k : Kern ℕ}
    (hcall : s.call p = .sending dst timeout savedTicks n) (hwait : s.kern.wait p = some ⟨f, dst⟩)
    (hret : r = .ok ↔ f = WT_EVENT_SEND) (hinv : Waits.Inv k)
    (hun : Waits.Unblocked s.kern dst p k) :
    Inv (.returned n r :: tr) { s with kern := k, call := update s.call p .idle } := by
  have hsend : (s.call p).Sending := ⟨_, _, _, _, hcall⟩
  have hnumber : (s.call p).number = n := by
    rw [hcall]
    rfl
  have hself : update s.call p .idle p = .idle := update_self ..
  have hother : ∀ q, q ≠ p → update s.call p .idle q = s.call q :=
    fun q hq => update_of_ne hq ..
  have hne : ∀ q, (update s.call p .idle q).Sending → q ≠ p := by
    intro q hq hqp
    rw [hqp, hself] at hq
    exact Call.not_sending_idle hq
  refine ⟨hinv, fun q w hw => ?_, fun q hq => ?_, fun q hq => ?_, fun q hq => ?_, fun q q' hq hq' hqq => ?_,
    fun q r' hq hret' => ?_, fun m q dst' event' hb => ?_, h.fresh, h.once, ?_, fun q m pid event' ht => ?_,
    fun m r' hret' => ?_, fun q => ?_⟩
  · replace hw : k.wait q = some w := hw
    rw [hun.wait] at hw
    by_cases hqp : q = p
    · rw [hqp, update_self] at hw
      cases hw
    · rw [update_of_ne hqp] at hw
      obtain ⟨timeout', savedTicks', m, hm, hflags, hb⟩ := h.waits q w hw
      exact ⟨timeout', savedTicks', m, (hother q hqp).trans hm, hflags, List.mem_cons_of_mem _ hb⟩
  · have hqp := hne q hq
    replace hq : (update s.call p .idle q).Sending := hq
    rw [hother q hqp] at hq
    show k.wait q ≠ none
    rw [hun.wait, update_of_ne hqp]
    exact h.sending q hq
  · show (update s.call p .idle q).timeout ≠ 0
    by_cases hqp : q = p
    · refine absurd hq (Timers.not_mem_of_deadlines ?_)
      rw [hun.deadlines, hqp, update_self]
    · rw [hother q hqp]
      refine h.timed q ((Timers.same_of_deadlines ?_).1.mp hq)
      rw [hun.deadlines, update_of_ne hqp]
  · replace hq : Dead (k.procs q) := hq
    rw [hun.procs] at hq
    obtain ⟨hqueue, hidle⟩ := h.dead q hq
    have hqp : q ≠ p := by
      intro hqp
      rw [hqp, hcall] at hidle
      cases hidle
    show k.queues q = [] ∧ update s.call p .idle q = .idle
    rw [hother q hqp, hun.queues]
    refine ⟨?_, hidle⟩
    by_cases hqd : q = dst
    · subst hqd
      rw [update_self, hqueue, List.erase_nil]
    · rw [update_of_ne hqd]
      exact hqueue
  · have hqp := hne q hq
    have hqp' := hne q' hq'
    replace hq : (update s.call p .idle q).Sending := hq
    replace hq' : (update s.call p .idle q').Sending := hq'
    replace hqq : (update s.call p .idle q).number = (update s.call p .idle q').number := hqq
    rw [hother q hqp] at hq hqq
    rw [hother q' hqp'] at hq' hqq
    exact h.distinct q q' hq hq' hqq
  · have hqp := hne q hq
    replace hq : (update s.call p .idle q).Sending := hq
    replace hret' : .returned (update s.call p .idle q).number r' ∈ Event.returned n r :: tr := hret'
    rw [hother q hqp] at hq hret'
    rcases List.mem_cons.mp hret' with heq | hret'
    · injection heq with hn _
      exact hqp (h.distinct q p hq hsend (hn.trans hnumber.symm))
    · exact h.active q r' hq hret'
  · rw [List.mem_cons, or_iff_right nofun] at hb
    exact h.numbered m q dst' event' hb
  · intro m q d ev q' d' ev' hb hb'
    rw [List.mem_cons, or_iff_right nofun] at hb hb'
    exact h.single m q d ev q' d' ev' hb hb'
  · rw [List.mem_cons, or_iff_right nofun] at ht
    exact List.mem_cons_of_mem _ (h.paired q m pid event' ht)
  · rcases List.mem_cons.mp hret' with heq | hret'
    · injection heq with hm hr
      rw [hm, hr]
      obtain ⟨timeout', savedTicks', n', hn', hflags, -⟩ := h.waits p _ hwait
      have hnn : n' = n := by
        rw [← hnumber, hn']
        rfl
      rw [hnn] at hflags
      refine ⟨hnumber ▸ h.number_lt hsend, ?_⟩
      show takes n tr = _
      rcases hflags with ⟨hf, htakes⟩ | ⟨hf, htakes⟩
      · replace hf : f = WT_INTERRUPTED := hf
        rw [htakes, if_neg fun hok => flags_ne (hf.symm.trans (hret.mp hok))]
      · rw [htakes, if_pos (hret.mpr hf)]
    · exact h.done m r' hret'
  · have hsub : (k.queues q).Sublist (s.kern.queues q) := by
      rw [hun.queues]
      by_cases hqd : q = dst
      · subst hqd
        rw [update_self]
        exact List.erase_sublist
      · rw [update_of_ne hqd]
    have hmap : (k.queues q).map (fun x => (update s.call p .idle x).number) =
        (k.queues q).map fun x => (s.call x).number := by
      refine List.map_congr_left fun x hx => ?_
      have hxp : x ≠ p := by
        intro hxp
        have hx' := hinv.queued q x hx
        rw [hxp, hun.wait, update_self] at hx'
        cases hx'
      rw [hother x hxp]
    show (takenAt q tr ++ (k.queues q).map fun x => (update s.call p .idle x).number).Sublist
      (blockedAt q tr)
    rw [hmap]
    exact ((hsub.map _).append_left _).trans (h.fifo q)

theorem Inv.takeFirst (h : Inv tr s) {p w : ℕ} {rest : List ℕ} {k : Kern ℕ}
    (hcall : ¬ (s.call p).Sending) (hrun : (s.kern.procs p).state = .runnable)
    (hqueue : s.kern.queues p = w :: rest) (hinv : Waits.Inv k)
    (hqueues : k.queues = update s.kern.queues p rest)
    (hwait : k.wait = update s.kern.wait w (some ⟨WT_EVENT_SEND, p⟩))
    (hprocs : k.procs = update s.kern.procs w (s.kern.procs w).rouse)
    (htimers : ∀ i ∈ k.timers.list, i ∈ s.kern.timers.list ∧ i ≠ p) :
    Inv (.took p (s.call w).number w (s.event w) :: tr)
      { s with kern := k, call := update s.call p .storing } := by
  have hw : w ∈ s.kern.queues p := by simp [hqueue]
  obtain ⟨timeout, savedTicks, n, hsend, hflags, hb⟩ := h.waits w _ (h.kern.queued p w hw)
  have hwsend : (s.call w).Sending := ⟨_, _, _, _, hsend⟩
  have hnumber : (s.call w).number = n := by
    rw [hsend]
    rfl
  have hzero : takes n tr = 0 := by
    rcases hflags with hf | hf
    · exact hf.2
    · exact absurd hf.1 flags_ne
  have hother : ∀ q, q ≠ p → update s.call p .storing q = s.call q :=
    fun q hq => update_of_ne hq ..
  have hne : ∀ q, (update s.call p .storing q).Sending → q ≠ p := by
    intro q hq hqp
    rw [hqp, update_self] at hq
    exact Call.not_sending_storing hq
  have hold : ∀ q, (s.call q).Sending → q ≠ p := fun q hq hqp => hcall (hqp ▸ hq)
  have htakes : ∀ m, takes m (.took p (s.call w).number w (s.event w) :: tr) =
      takes m tr + if n = m then 1 else 0 := by
    intro m
    rw [hnumber]
    rfl
  refine ⟨hinv, fun q x hx => ?_, fun q hq => ?_, fun q hq => ?_, fun q hq => ?_, fun q q' hq hq' hqq => ?_,
    fun q r' hq hret' => ?_, fun m q dst' event' hb' => ?_, fun m hm => ?_, fun m => ?_, ?_,
    fun q m pid event' ht => ?_, fun m r' hret' => ?_, fun q => ?_⟩
  · replace hx : k.wait q = some x := hx
    rw [hwait] at hx
    by_cases hqw : q = w
    · subst hqw
      rw [update_self] at hx
      cases hx
      refine ⟨timeout, savedTicks, n, (hother q (hold q hwsend)).trans hsend, Or.inr ⟨rfl, ?_⟩,
        List.mem_cons_of_mem _ hb⟩
      rw [htakes, hzero, if_pos rfl]
    · rw [update_of_ne hqw] at hx
      obtain ⟨timeout', savedTicks', m, hm, hflags', hb'⟩ := h.waits q x hx
      have hqsend : (s.call q).Sending := ⟨_, _, _, _, hm⟩
      have hnm : n ≠ m := by
        intro hnm
        apply hqw
        apply h.distinct q w hqsend hwsend
        rw [hnumber, hnm, hm]
        rfl
      refine ⟨timeout', savedTicks', m, (hother q (hold q hqsend)).trans hm, ?_, List.mem_cons_of_mem _ hb'⟩
      rw [htakes, if_neg hnm, Nat.add_zero]
      exact hflags'
  · have hqp := hne q hq
    replace hq : (update s.call p .storing q).Sending := hq
    rw [hother q hqp] at hq
    show k.wait q ≠ none
    rw [hwait]
    by_cases hqw : q = w
    · subst hqw
      rw [update_self]
      exact Option.some_ne_none _
    · rw [update_of_ne hqw]
      exact h.sending q hq
  · obtain ⟨hq', hqp⟩ := htimers q hq
    show (update s.call p .storing q).timeout ≠ 0
    rw [hother q hqp]
    exact h.timed q hq'
  · replace hq : Dead (k.procs q) := hq
    have hqw : q ≠ w := by
      intro hqw
      rw [hprocs, hqw, update_self] at hq
      exact not_dead_of_runnable (Waits.Proc.rouse_state _) hq
    rw [hprocs, update_of_ne hqw] at hq
    have hqp : q ≠ p := fun hqp => not_dead_of_runnable hrun (hqp ▸ hq)
    show k.queues q = [] ∧ update s.call p .storing q = .idle
    rw [hqueues, update_of_ne hqp, hother q hqp]
    exact h.dead q hq
  · have hqp := hne q hq
    have hqp' := hne q' hq'
    replace hq : (update s.call p .storing q).Sending := hq
    replace hq' : (update s.call p .storing q').Sending := hq'
    replace hqq : (update s.call p .storing q).number =
      (update s.call p .storing q').number := hqq
    rw [hother q hqp] at hq hqq
    rw [hother q' hqp'] at hq' hqq
    exact h.distinct q q' hq hq' hqq
  · have hqp := hne q hq
    replace hq : (update s.call p .storing q).Sending := hq
    replace hret' : .returned (update s.call p .storing q).number r' ∈ Event.took .. :: tr := hret'
    rw [hother q hqp, List.mem_cons, or_iff_right nofun] at hret'
    rw [hother q hqp] at hq
    exact h.active q r' hq hret'
  · rw [List.mem_cons, or_iff_right nofun] at hb'
    exact h.numbered m q dst' event' hb'
  · have hlt := h.number_lt hwsend
    rw [hnumber] at hlt
    replace hm : s.sends ≤ m := hm
    rw [htakes, h.fresh m hm, if_neg (by omega)]
  · rw [htakes]
    have hm := h.once m
    split
    · rename_i hnm
      rw [← hnm, hzero]
    · exact hm
  · intro m q d ev q' d' ev' hb₁ hb₂
    rw [List.mem_cons, or_iff_right nofun] at hb₁ hb₂
    exact h.single m q d ev q' d' ev' hb₁ hb₂
  · rcases List.mem_cons.mp ht with heq | ht
    · injection heq with h₁ h₂ h₃ h₄
      rw [h₁, h₂, h₃, h₄, hnumber]
      exact List.mem_cons_of_mem _ hb
    · exact List.mem_cons_of_mem _ (h.paired q m pid event' ht)
  · rw [List.mem_cons, or_iff_right nofun] at hret'
    have hnm : n ≠ m := by
      intro hnm
      rw [← hnm, ← hnumber] at hret'
      exact h.active w r' hwsend hret'
    rw [htakes, if_neg hnm, Nat.add_zero]
    exact h.done m r' hret'
  · have hmap : (k.queues q).map (fun x => (update s.call p .storing x).number) =
        (k.queues q).map fun x => (s.call x).number := by
      refine List.map_congr_left fun x hx => ?_
      have hxp : x ≠ p := by
        intro hxp
        have hx' := hinv.queued q x hx
        have hpw : p ≠ w := fun hpw => hcall (hpw ▸ hwsend)
        rw [hxp, hwait, update_of_ne hpw, h.no_wait hcall] at hx'
        cases hx'
      rw [hother x hxp]
    show ((if p = q then takenAt q tr ++ [(s.call w).number] else takenAt q tr) ++
      (k.queues q).map fun x => (update s.call p .storing x).number).Sublist (blockedAt q tr)
    rw [hmap, hqueues]
    have hfifo := h.fifo q
    by_cases hqp : p = q
    · subst hqp
      rw [hqueue] at hfifo
      rw [if_pos rfl, update_self, List.append_assoc]
      exact hfifo
    · rw [if_neg hqp, update_of_ne fun hqp' => hqp hqp'.symm]
      exact hfifo

theorem Inv.exit (h : Inv tr s) {p : ℕ} {k : Kern ℕ} (hcall : s.call p = .idle) (hinv : Waits.Inv k)
    (hwoke : Waits.WokeAll (s.kern.setProc p { s.kern.procs p with state := .zombie }) p
      WT_INTERRUPTED k) : Inv (.exited p :: tr) { s with kern := k } := by
  have hidle : ¬ (s.call p).Sending := by
    rw [hcall]
    exact Call.not_sending_idle
  -- the waits of the queue are marked as they were
  have hwait : k.wait = s.kern.wait := by
    funext q
    by_cases hq : q ∈ s.kern.queues p
    · rw [(hwoke.woken q hq).1, h.kern.queued p q hq]
    · exact (hwoke.frame q hq).1
  have hqueues : k.queues = update s.kern.queues p [] := hwoke.queues
  refine ⟨hinv, fun q w hw => ?_, fun q hq => ?_, fun q hq => ?_, fun q hq => ?_, h.distinct,
    fun q r' hq hret' => ?_, fun m q dst' event' hb' => ?_, h.fresh, h.once, ?_,
    fun q m pid event' ht => ?_, fun m r' hret' => ?_, fun q => ?_⟩
  · replace hw : k.wait q = some w := hw
    rw [hwait] at hw
    obtain ⟨timeout, savedTicks, n, hsend, hflags, hb⟩ := h.waits q w hw
    exact ⟨timeout, savedTicks, n, hsend, hflags, List.mem_cons_of_mem _ hb⟩
  · show k.wait q ≠ none
    rw [hwait]
    exact h.sending q hq
  · replace hq : q ∈ k.timers.list := hq
    rw [hwoke.timers] at hq
    exact h.timed q hq
  · replace hq : Dead (k.procs q) := hq
    show k.queues q = [] ∧ _
    rw [hqueues]
    by_cases hqp : q = p
    · rw [hqp, update_self]
      exact ⟨rfl, hcall⟩
    · rw [update_of_ne hqp]
      by_cases hmem : q ∈ s.kern.queues p
      · rw [(hwoke.woken q hmem).2] at hq
        exact absurd hq (not_dead_of_runnable (Waits.Proc.rouse_state _))
      · rw [(hwoke.frame q hmem).2, Kern.setProc_of_ne hqp] at hq
        exact h.dead q hq
  · rw [List.mem_cons, or_iff_right nofun] at hret'
    exact h.active q r' hq hret'
  · rw [List.mem_cons, or_iff_right nofun] at hb'
    exact h.numbered m q dst' event' hb'
  · intro m q d ev q' d' ev' hb₁ hb₂
    rw [List.mem_cons, or_iff_right nofun] at hb₁ hb₂
    exact h.single m q d ev q' d' ev' hb₁ hb₂
  · rw [List.mem_cons, or_iff_right nofun] at ht
    exact List.mem_cons_of_mem _ (h.paired q m pid event' ht)
  · rw [List.mem_cons, or_iff_right nofun] at hret'
    exact h.done m r' hret'
  · show ((if p = q then [] else takenAt q tr) ++ (k.queues q).map fun x => (s.call x).number).Sublist
      (if p = q then [] else blockedAt q tr)
    rw [hqueues]
    by_cases hpq : p = q
    · subst hpq
      rw [if_pos rfl, if_pos rfl, update_self]
      exact List.Sublist.refl _
    · rw [if_neg hpq, if_neg hpq, update_of_ne fun hqp => hpq hqp.symm]
      exact h.fifo q

theorem Inv.does (h : Inv tr s) (hdoes : Does s e s') : Inv (e :: tr) s' := by
  cases hdoes with
  | silent _ k call hsilent hinv hwait hqueues hcall htimed hdead =>
    exact h.silent hsilent hinv hwait hqueues hcall htimed hdead
  | blocked p dst event timeout savedTicks k₀ k hcall hdst hroused htimers hinv hblocked =>
    exact h.block hcall hdst hroused htimers hinv hblocked
  | returned p dst n timeout savedTicks f r k hcall hwait hret hinv hun =>
    exact h.goOn hcall hwait hret hinv hun
  | took p w rest k hcall hrun hqueue hinv hqueues hwait hprocs htimers =>
    exact h.takeFirst hcall hrun hqueue hinv hqueues hwait hprocs htimers
  | exited p k hcall hrun hinv hwoke => exact h.exit hcall hinv hwoke

/-! ## Runs -/

/-- No process waits, the queues of the dead are empty, and no process has sent. -/
theorem boot_inv {k : Kern ℕ} (hk : Waits.Quiet k) (event : ℕ → Int) (reserved : ℕ → Bool) :
    Inv [] (Sys.boot k event reserved) := by
  have hqueues : ∀ p, k.queues p = [] := by
    intro p
    by_contra hne
    obtain ⟨q, hq⟩ := List.exists_mem_of_ne_nil _ hne
    exact hk.inv.not_queued (hk.wait q) p hq
  refine ⟨hk.inv, fun p w hw => ?_, fun p hp => ?_, fun p hp => ?_, fun p _ => ⟨hqueues p, rfl⟩,
    fun p q hp => ?_, nofun, nofun, fun _ _ => rfl, fun _ => Nat.zero_le 1, nofun, nofun, nofun, fun p => ?_⟩
  · exact absurd ((hk.wait p).symm.trans hw) nofun
  · exact absurd hp Call.not_sending_idle
  · replace hp : p ∈ k.timers.list := hp
    rw [hk.timers] at hp
    cases hp
  · exact absurd hp Call.not_sending_idle
  · show ([] ++ (k.queues p).map _).Sublist []
    rw [hqueues p]
    exact List.Sublist.refl _

theorem Run.inv {s₀ : Sys} (h₀ : Inv [] s₀) (h : Run s₀ tr s) : Inv tr s := by
  induction h with
  | nil => exact h₀
  | cons op _ henabled hstep ih =>
    obtain ⟨e', s'', hstep', hdoes⟩ := ih.step_spec henabled
    rw [hstep] at hstep'
    cases hstep'
    exact ih.does hdoes

/-- The sends of a run, and what has become of them. -/
structure Delivery (tr : List Event) (s : Sys) : Prop where
  noPanic : ∀ op, s.Enabled op → s.step op ≠ none
  single : ∀ n p dst event p' dst' event', .blocked n p dst event ∈ tr → .blocked n p' dst' event' ∈ tr →
    p = p' ∧ dst = dst' ∧ event = event'
  returned : ∀ n r, .returned n r ∈ tr → (r = .ok ↔ takes n tr = 1) ∧ (r ≠ .ok → takes n tr = 0)
  once : ∀ n, takes n tr ≤ 1
  reported : ∀ p n pid event, .took p n pid event ∈ tr → .blocked n pid p event ∈ tr
  order : ∀ p, (takenAt p tr).Sublist (blockedAt p tr)

/-- **Events are delivered exactly once.**  After any steps: a send that has returned 0 has been taken by
exactly one `recv_event`, and a send that has returned anything else (its time is over, its process is
killed, its target has exited) by none, so that none takes it later either; a `recv_event` reports the
pid and the value of the send that it takes, which blocked at its own process; and a process takes the
sends that blocked at it, since the last process with its pid exited, in their order. -/
theorem event_delivery (k : Kern ℕ) (event : ℕ → Int) (reserved : ℕ → Bool) (tr : List Event) (s : Sys)
    (hk : Waits.Quiet k) (hrun : Run (Sys.boot k event reserved) tr s) : Delivery tr s := by
  have h := hrun.inv (boot_inv hk event reserved)
  refine ⟨fun op henabled => ?_, h.single, fun n r hret => ?_, h.once, h.paired, fun p => ?_⟩
  · obtain ⟨e, s', hstep, -⟩ := h.step_spec henabled
    rw [hstep]
    exact Option.some_ne_none _
  · have htakes := (h.done n r hret).2
    by_cases hok : r = .ok
    · rw [if_pos hok] at htakes
      exact ⟨⟨fun _ => htakes, fun _ => hok⟩, fun hne => absurd hok hne⟩
    · rw [if_neg hok] at htakes
      refine ⟨⟨fun hok' => absurd hok' hok, fun hone => ?_⟩, fun _ => htakes⟩
      rw [htakes] at hone
      cases hone
  · exact (List.sublist_append_left _ _).trans (h.fifo p)

/-- Process 2 sends to process 1 and its time runs out, but process 1 takes the event before process 2
runs; process 3 sends, and process 1 exits. -/
theorem event_delivery_race : ∃ s, Run (Sys.boot (Kern.boot ℕ) (fun _ => 0) fun _ => false)
      [.returned 1 .failed, .exited 1, .blocked 1 3 1 9, .stored 1 true, .returned 0 .ok, .took 1 0 2 7, .ticked,
        .blocked 0 2 1 7] s ∧
      Delivery [.returned 1 .failed, .exited 1, .blocked 1 3 1 9, .stored 1 true, .returned 0 .ok, .took 1 0 2 7,
        .ticked, .blocked 0 2 1 7] s := by
  have h₁ := (@Run.nil (Sys.boot (Kern.boot ℕ) (fun _ => 0) fun _ => false)).cons (.send 2 1 7 1) ⟨rfl, rfl⟩ rfl
  have h₂ := h₁.cons .tick trivial rfl
  have h₃ := h₂.cons (.recv 1 0 true) ⟨rfl, rfl⟩ rfl
  have h₄ := h₃.cons (.resume 2) ⟨rfl, nofun, nofun⟩ rfl
  have h₅ := h₄.cons (.store 1 true) ⟨rfl, rfl⟩ rfl
  have h₆ := h₅.cons (.send 3 1 9 0) ⟨rfl, rfl⟩ rfl
  have h₇ := h₆.cons (.exit 1) ⟨rfl, rfl⟩ rfl
  have h₈ := h₇.cons (.resume 3) ⟨rfl, nofun, nofun⟩ rfl
  exact ⟨_, h₈, event_delivery _ _ _ _ _ (Kern.boot_quiet ℕ) h₈⟩

end Ucore.Events
