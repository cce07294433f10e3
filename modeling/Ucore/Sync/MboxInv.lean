import Ucore.Sync.Mbox

/-!
# Mailboxes: what a step does

The invariant of the mailboxes (`Inv`), and the inversion of their steps (`Does`): a step is one action,
or an action with which a process enters or goes on in `send_msg` or `recv_msg` and one with which it
goes to sleep or leaves.  Between the two the process is inside and awake (`Mid`).

* `Inv.step_spec` — no assertion of the mailboxes fails; that of `add_timer` fails only in `resume`.
* `Inv.does` — every action keeps the invariant.
-/

namespace Ucore.Mboxes

open Occurrence
open Ksem (WT_INTERRUPTED)
open Waits (Kern Ret ipcCheckTimeout)

/-- Where the process that takes the step is: outside, just inside a mailbox, or inside after a sleep
that a wake-up of the mailbox ended, or something else. -/
inductive Mid where
  | out
  | entered (p : ℕ)
  | woken (p : ℕ)
  | stirred (p : ℕ)
  deriving DecidableEq, Repr

/-- The process that is inside and awake. -/
def Mid.proc : Mid → Option ℕ
  | .out => none
  | .entered p | .woken p | .stirred p => some p

/-- The wait queue of a call. -/
def Call.queue : Call → Option (ℕ × Side)
  | .sending m _ _ _ _ => some (m, .senders)
  | .receiving m _ _ _ _ => some (m, .receivers)
  | _ => none

/-- The timeout of a call whose timer may be pending. -/
def Call.timeout : Call → UInt32
  | .sending _ _ timeout _ _ | .receiving _ _ timeout _ _ | .sleeping timeout => timeout
  | _ => 0

/-- The process is inside `send_msg` or `recv_msg` of a mailbox. -/
def Call.Inside (m : ℕ) (c : Call) : Prop := ∃ side, c.queue = some (m, side)

/-- A call that has no message, no timer and no page. -/
def Call.Plain : Call → Prop
  | .idle | .loading _ _ | .preparing _ _ => True
  | _ => False

/-- What a mailbox wakes a process of a queue with. -/
def Side.flag : Side → UInt32
  | .senders => WT_MBOX_SEND
  | .receivers => WT_MBOX_RECV

/-- Where the processes are, and what waits and timers they have. -/
structure Procs (mid : Mid) (k : Kern (ℕ × Side)) (call : ℕ → Call) : Prop where
  kern : Waits.Inv k
  waits : ∀ p w, k.wait p = some w → (call p).queue = some w.queue ∧
    (w.wakeupFlags = WT_INTERRUPTED ∨ w.wakeupFlags = w.queue.2.flag)
  queued : ∀ p q, (call p).queue = some q → k.wait p = none → mid.proc = some p
  awake : ∀ p, mid.proc = some p → k.wait p = none ∧ p ∉ k.timers.list
  timed : ∀ p ∈ k.timers.list, (call p).timeout ≠ 0
  owned : ∀ p, (call p).timeout ≠ 0 → k.timers.proc p = some p

/-- `inuse` counts the processes inside. -/
structure Counts (call : ℕ → Call) (mbox : ℕ → Mbox) : Prop where
  finite : ∀ m, {p | (call p).Inside m}.Finite
  inuse : ∀ m, (mbox m).inuse = occ call (Call.Inside m)

/-- What a mailbox holds in each of its states. -/
structure Boxes (queues : ℕ × Side → List ℕ) (mbox : ℕ → Mbox) : Prop where
  opened : ∀ m, (mbox m).state = .opened → (mbox m).slots = (mbox m).msgs.length
  closing : ∀ m, (mbox m).state = .closing → (mbox m).msgs = [] ∧ 0 < (mbox m).inuse ∧
    ∀ side, queues (m, side) = []
  closed : ∀ m, (mbox m).state = .closed → (mbox m).msgs = [] ∧ (mbox m).slots = 0 ∧ (mbox m).inuse = 0

/-- The free mailboxes, and those that there are. -/
structure Frees (mbox : ℕ → Mbox) (free : List ℕ) (mapped : ℕ → Bool) : Prop where
  nodup : free.Nodup
  free : ∀ m ∈ free, (mbox m).state = .closed ∧ mapped (m / MBOX_P_PAGE) = true
  unmapped : ∀ m, mapped (m / MBOX_P_PAGE) = false → (mbox m).state = .closed

/-- At most one process is in `new_mbox`, for a page that is missing. -/
structure Maps (call : ℕ → Call) (mapping : Bool) (mapped : ℕ → Bool) : Prop where
  mapping : ∀ p maxSlots i, call p = .mapping maxSlots i → mapping = true ∧ mapped i = false
  alone : ∀ p q maxSlots i maxSlots' j, call p = .mapping maxSlots i → call q = .mapping maxSlots' j → p = q

/-- What holds of the mailboxes and of the processes in them. -/
structure Inv (mid : Mid) (s : Sys) : Prop where
  procs : Procs mid s.kern s.call
  counts : Counts s.call s.mbox
  boxes : Boxes s.kern.queues s.mbox
  frees : Frees s.mbox s.free s.mapped
  maps : Maps s.call s.mapping s.mapped

/-- What `wakeup_first` does to the kernel. -/
def First (k : Kern (ℕ × Side)) (q : ℕ × Side) (f : UInt32) (k' : Kern (ℕ × Side)) : Prop :=
  k.queues q = [] ∧ k' = k ∨ ∃ p rest, k.queues q = p :: rest ∧ Waits.Woke k q p f k'

/-- The mailbox after a process has left it. -/
def Sys.left (s : Sys) (m : ℕ) : Sys :=
  if (s.mbox m).state = .closing ∧ (s.mbox m).inuse = 1 then
    { s.setMbox m { s.mbox m with inuse := 0, state := .closed, maxSlots := 0, slots := 0 } with
      free := s.free ++ [m] }
  else s.setMbox m { s.mbox m with inuse := (s.mbox m).inuse - 1 }

/-- The call must wait. -/
def Sys.Full (s : Sys) (m : ℕ) : Side → Prop
  | .senders => (s.mbox m).maxSlots ≤ (s.mbox m).slots
  | .receivers => (s.mbox m).slots = 0

/-- Everything that a step, or a part of a step, can do. -/
inductive Does : Mid → Sys → List Event → Mid → Sys → Prop
  | ticked (s : Sys) (k : Kern (ℕ × Side)) (hinv : Waits.Inv k) (hticked : Waits.Ticked s.kern k) :
      Does .out s [.ticked] .out { s with kern := k, now := s.now + 1 }
  | killed (s : Sys) (p : ℕ) (k : Kern (ℕ × Side)) (hinv : Waits.Inv k)
      (hkilled : Waits.Killed s.kern p k) : Does .out s [.killed p] .out { s with kern := k }
  | plain (s : Sys) (p : ℕ) (c : Call) (e : Event) (hold : (s.call p).Plain) (hnew : c.Plain)
      (he : e = .begun p ∨ ∃ r, e = .returned p r) : Does .out s [e] .out (s.setCall p c)
  | slept (s : Sys) (p : ℕ) (time : UInt32) (k : Kern (ℕ × Side)) (hcall : s.call p = .idle)
      (hinv : Waits.Inv k) (hwait : k.wait = s.kern.wait) (hqueues : k.queues = s.kern.queues)
      (hprocs : ∀ q, q ≠ p → k.procs q = s.kern.procs q) (hticks : k.ticks = s.kern.ticks)
      (hdeadlines : k.timers.deadlines = Function.update s.kern.timers.deadlines p (some time.toNat))
      (hproc : k.timers.proc = Function.update s.kern.timers.proc p (some p)) (htime : time ≠ 0) :
      Does .out s [.begun p] .out { s.setCall p (.sleeping time) with kern := k }
  | arose (s : Sys) (p : ℕ) (time : UInt32) (k : Kern (ℕ × Side)) (hcall : s.call p = .sleeping time)
      (hinv : Waits.Inv k) (hdisarmed : Waits.Disarmed s.kern p k) :
      Does .out s [.returned p .ok] .out { s.setCall p .idle with kern := k }
  | mapping (s : Sys) (p maxSlots i : ℕ) (hcall : s.call p = .idle) (hsem : s.mapping = false)
      (hmissing : s.mapped i = false) :
      Does .out s [.begun p] .out { s.setCall p (.mapping maxSlots i) with mapping := true }
  | mapped (s : Sys) (p maxSlots i : ℕ) (hcall : s.call p = .mapping maxSlots i) :
      Does .out s [] .out
        { s.setCall p .idle with
          mapping := false
          mapped := Function.update s.mapped i true
          mbox := fun m => if m / MBOX_P_PAGE = i then Mbox.fresh else s.mbox m
          free := s.free ++ (List.range MBOX_P_PAGE).map (i * MBOX_P_PAGE + ·) }
  | unmapped (s : Sys) (p maxSlots i : ℕ) (hcall : s.call p = .mapping maxSlots i) :
      Does .out s [] .out { s.setCall p .idle with mapping := false }
  | opened (s : Sys) (p m maxSlots : ℕ) (rest : List ℕ) (hcall : s.call p = .idle)
      (hfree : s.free = m :: rest) :
      Does .out s [.opened p m s.opens] .out
        { (s.setMbox m { s.mbox m with state := .opened, maxSlots := maxSlots, opening := s.opens }) with
          free := rest, opens := s.opens + 1 }
  | enterSend (s : Sys) (p m : ℕ) (bytes : List UInt8) (timeout : UInt32)
      (hcall : s.call p = .loading m timeout) (hget : s.getMbox m = true) :
      Does .out s [] (.entered p)
        { s.enter p m timeout (.sending m ⟨s.loads, p, bytes⟩ timeout s.kern.ticks s.now) with
          loads := s.loads + 1 }
  | enterRecv (s : Sys) (p m size : ℕ) (timeout : UInt32) (hcall : s.call p = .preparing m timeout)
      (hget : s.getMbox m = true) :
      Does .out s [] (.entered p)
        (s.enter p m timeout (.receiving m size timeout s.kern.ticks s.now))
  | unwait (s : Sys) (p m : ℕ) (side : Side) (f : UInt32) (k : Kern (ℕ × Side)) (mid : Mid)
      (hrun : (s.kern.procs p).state = .runnable) (hwait : s.kern.wait p = some ⟨f, (m, side)⟩)
      (hmid : mid = if f = side.flag then .woken p else .stirred p) (hinv : Waits.Inv k)
      (hun : Waits.Unblocked s.kern (m, side) p k) : Does .out s [] mid { s with kern := k }
  | block (s : Sys) (p m : ℕ) (side : Side) (mid : Mid) (k : Kern (ℕ × Side))
      (hmid : mid = .entered p ∨ mid = .woken p) (hcall : (s.call p).queue = some (m, side))
      (hopened : (s.mbox m).state = .opened) (hfull : s.Full m side) (hinv : Waits.Inv k)
      (harmed : Waits.Armed (s.kern.waitCurrentSet (m, side) p side.flag) p (s.call p).timeout k) :
      Does mid s [.waiting p] .out { s with kern := k }
  | sent (s : Sys) (p m : ℕ) (msg : Msg) (timeout savedTicks : UInt32) (start : ℕ) (mid : Mid)
      (k : Kern (ℕ × Side)) (hmid : mid = .entered p ∨ mid = .woken p)
      (hcall : s.call p = .sending m msg timeout savedTicks start)
      (hopened : (s.mbox m).state = .opened) (hroom : (s.mbox m).slots < (s.mbox m).maxSlots)
      (hinv : Waits.Inv k) (hfirst : First s.kern (m, .receivers) WT_MBOX_RECV k) :
      Does mid s [.sent p msg.num] .out
        { (s.setMbox m { s.mbox m with
            slots := (s.mbox m).slots + 1
            msgs := (s.mbox m).msgs ++ [msg]
            inuse := (s.mbox m).inuse - 1 }).setCall p .idle with kern := k }
  | picked (s : Sys) (p m size : ℕ) (msg : Msg) (rest : List Msg) (timeout savedTicks : UInt32) (start : ℕ)
      (mid : Mid) (k : Kern (ℕ × Side)) (hmid : mid = .entered p ∨ mid = .woken p)
      (hcall : s.call p = .receiving m size timeout savedTicks start)
      (hopened : (s.mbox m).state = .opened) (hmsgs : (s.mbox m).msgs = msg :: rest)
      (hinv : Waits.Inv k) (hfirst : First s.kern (m, .senders) WT_MBOX_SEND k) :
      Does mid s [.picked p msg.num] .out
        { (s.setMbox m { s.mbox m with
            slots := (s.mbox m).slots - 1
            msgs := rest
            inuse := (s.mbox m).inuse - 1 }).setCall p (.holding m msg (s.mbox m).opening) with kern := k }
  | tooBig (s : Sys) (p m size : ℕ) (timeout savedTicks : UInt32) (start : ℕ) (mid : Mid)
      (k : Kern (ℕ × Side)) (hmid : mid = .entered p ∨ mid = .woken p)
      (hcall : s.call p = .receiving m size timeout savedTicks start)
      (hopened : (s.mbox m).state = .opened) (hinv : Waits.Inv k)
      (hfirst : First s.kern (m, .receivers) WT_MBOX_RECV k) :
      Does mid s [.returned p .tooBig] .out
        { (s.setMbox m { s.mbox m with inuse := (s.mbox m).inuse - 1 }).setCall p .idle with kern := k }
  | failedSend (s : Sys) (p m : ℕ) (msg : Msg) (timeout savedTicks : UInt32) (start : ℕ) (mid : Mid)
      (hmid : mid = .stirred p ∨ mid = .woken p ∧ (s.mbox m).state ≠ .opened)
      (hcall : s.call p = .sending m msg timeout savedTicks start) :
      Does mid s [.failed p msg.num (.wait (ipcCheckTimeout timeout savedTicks s.kern.ticks))] .out
        ((s.left m).setCall p .idle)
  | failedRecv (s : Sys) (p m size : ℕ) (timeout savedTicks : UInt32) (start : ℕ) (mid : Mid)
      (hmid : mid = .stirred p ∨ mid = .woken p ∧ (s.mbox m).state ≠ .opened)
      (hcall : s.call p = .receiving m size timeout savedTicks start) :
      Does mid s [.returned p (.wait (ipcCheckTimeout timeout savedTicks s.kern.ticks))] .out
        ((s.left m).setCall p .idle)
  | lost (s : Sys) (p id : ℕ) (timeout : UInt32) (hcall : s.call p = .loading id timeout) :
      Does .out s [.failed p s.loads .inval] .out { s.setCall p .idle with loads := s.loads + 1 }
  | delivered (s : Sys) (p id : ℕ) (msg : Msg) (opening : ℕ) (hcall : s.call p = .holding id msg opening) :
      Does .out s [.delivered p msg.num] .out (s.setCall p .idle)
  | discarded (s : Sys) (p id : ℕ) (msg : Msg) (opening : ℕ) (hcall : s.call p = .holding id msg opening)
      (hgone : s.getMbox id = false) :
      Does .out s [.discarded p msg.num opening] .out (s.setCall p .idle)
  | putBack (s : Sys) (p id : ℕ) (msg : Msg) (opening : ℕ) (k : Kern (ℕ × Side))
      (hcall : s.call p = .holding id msg opening) (hopened : (s.mbox id).state = .opened)
      (hinv : Waits.Inv k) (hfirst : First s.kern (id, .receivers) WT_MBOX_RECV k) :
      Does .out s [.putBack p msg.num opening (s.mbox id).opening] .out
        { (s.setMbox id { s.mbox id with
            slots := (s.mbox id).slots + 1
            msgs := msg :: (s.mbox id).msgs }).setCall p .idle with kern := k }
  | freed (s : Sys) (p m : ℕ) (k₁ k : Kern (ℕ × Side)) (hopened : (s.mbox m).state = .opened)
      (hinv₁ : Waits.Inv k₁) (hinv : Waits.Inv k) (hsenders : Waits.WokeAll s.kern (m, .senders) WT_INTERRUPTED k₁)
      (hreceivers : Waits.WokeAll k₁ (m, .receivers) WT_INTERRUPTED k) (b : Mbox) (free : List ℕ)
      (hclosing : (s.mbox m).inuse ≠ 0 → b = { s.mbox m with state := .closing, msgs := [] } ∧ free = s.free)
      (hclosed : (s.mbox m).inuse = 0 →
        b = { s.mbox m with state := .closed, msgs := [], maxSlots := 0, slots := 0 } ∧
          free = s.free ++ [m]) :
      Does .out s [.freed p m (s.mbox m).opening ((s.mbox m).msgs.map Msg.num)] .out
        { s.setMbox m b with kern := k, free := free }

/-- A step: one action, or two. -/
def Steps (s : Sys) (e : Event) (s' : Sys) : Prop :=
  Does .out s [e] .out s' ∨ ∃ mid s₁, Does .out s [] mid s₁ ∧ Does mid s₁ [e] .out s'

/-! ## The parts of the invariant -/

section Parts

variable {mid : Mid} {k k' : Kern (ℕ × Side)} {call : ℕ → Call} {mbox mbox' : ℕ → Mbox} {p m : ℕ} {c : Call}
  {side : Side} {queues queues' : ℕ × Side → List ℕ} {free : List ℕ} {mapped : ℕ → Bool}

theorem Call.Plain.queue (h : c.Plain) : c.queue = none := by
  cases c <;> first | rfl | exact h.elim

theorem Call.Plain.timeout (h : c.Plain) : c.timeout = 0 := by
  cases c <;> first | rfl | exact h.elim

theorem Procs.no_wait (h : Procs mid k call) (hq : (call p).queue = none) : k.wait p = none := by
  cases hw : k.wait p with
  | none => rfl
  | some w =>
    have hqueue := (h.waits p w hw).1
    rw [hq] at hqueue
    cases hqueue

theorem Procs.untimed (h : Procs mid k call) (ht : (call p).timeout = 0) : p ∉ k.timers.list :=
  fun hp => h.timed p hp ht

/-- Waking processes, and the clock, change nothing of where they are. -/
theorem Procs.roused (h : Procs mid k call) (hinv : Waits.Inv k') (hroused : Waits.Roused k k')
    (htimers : ∀ i ∈ k'.timers.list, i ∈ k.timers.list) (hproc : ∀ i, k'.timers.proc i = k.timers.proc i) :
    Procs mid k' call := by
  refine ⟨hinv, fun q w hw => ?_, fun q x hx hw => ?_, fun q hq => ?_, fun q hq => h.timed q (htimers q hq),
    fun q hq => ?_⟩
  · rw [hroused.wait] at hw
    exact h.waits q w hw
  · rw [hroused.wait] at hw
    exact h.queued q x hx hw
  · rw [hroused.wait]
    exact ⟨(h.awake q hq).1, fun hmem => (h.awake q hq).2 (htimers q hmem)⟩
  · rw [hproc]
    exact h.owned q hq

/-- A process that waits for nothing goes to a place where it waits for nothing. -/
theorem Procs.recall (h : Procs mid k call) (hmid : mid.proc = none ∨ mid.proc = some p)
    (hwait : k.wait p = none) (hout : p ∉ k.timers.list) (hqueue : c.queue = none)
    (htimeout : c.timeout = 0) : Procs .out k (Function.update call p c) := by
  refine ⟨h.kern, fun q w hw => ?_, fun q x hx hw => ?_, nofun, fun q hq => ?_, fun q hq => ?_⟩
  · have hqp : q ≠ p := by
      intro hqp
      rw [hqp, hwait] at hw
      cases hw
    rw [Function.update_of_ne hqp]
    exact h.waits q w hw
  · by_cases hqp : q = p
    · rw [hqp, Function.update_self, hqueue] at hx
      cases hx
    · rw [Function.update_of_ne hqp] at hx
      have hq := h.queued q x hx hw
      rcases hmid with hnone | hsome
      · rw [hnone] at hq
        cases hq
      · rw [hsome] at hq
        exact absurd (Option.some.inj hq).symm hqp
  · have hqp : q ≠ p := fun hqp => hout (hqp ▸ hq)
    rw [Function.update_of_ne hqp]
    exact h.timed q hq
  · by_cases hqp : q = p
    · rw [hqp, Function.update_self] at hq
      exact absurd htimeout hq
    · rw [Function.update_of_ne hqp] at hq
      exact h.owned q hq

theorem Procs.disarmed (h : Procs mid k call) (hinv : Waits.Inv k') (hdis : Waits.Disarmed k p k') :
    Procs mid k' call := by
  have hmem : ∀ i ∈ k'.timers.list, i ∈ k.timers.list := by
    intro i hi
    by_cases hip : i = p
    · refine absurd hi (Timers.not_mem_of_deadlines ?_)
      rw [hdis.deadlines, hip, Function.update_self]
    · refine (Timers.same_of_deadlines ?_).1.mp hi
      rw [hdis.deadlines, Function.update_of_ne hip]
  refine h.roused hinv ⟨hdis.wait, hdis.queues, fun q => Or.inl ?_⟩ hmem fun i => by rw [hdis.proc]
  rw [hdis.procs]
  exact ⟨rfl, rfl⟩

theorem Procs.sleep (h : Procs .out k call) {time : UInt32} (hcall : (call p).queue = none)
    (hinv : Waits.Inv k') (hwait : k'.wait = k.wait)
    (hdead : k'.timers.deadlines = Function.update k.timers.deadlines p (some time.toNat))
    (hproc : k'.timers.proc = Function.update k.timers.proc p (some p)) (htime : time ≠ 0) :
    Procs .out k' (Function.update call p (.sleeping time)) := by
  refine ⟨hinv, fun q w hw => ?_, fun q x hx hw => ?_, nofun, fun q hq => ?_, fun q hq => ?_⟩
  · rw [hwait] at hw
    have hqp : q ≠ p := by
      intro hqp
      rw [hqp, h.no_wait hcall] at hw
      cases hw
    rw [Function.update_of_ne hqp]
    exact h.waits q w hw
  · by_cases hqp : q = p
    · rw [hqp, Function.update_self] at hx
      cases hx
    · rw [Function.update_of_ne hqp] at hx
      rw [hwait] at hw
      exact h.queued q x hx hw
  · by_cases hqp : q = p
    · rw [hqp, Function.update_self]
      exact htime
    · rw [Function.update_of_ne hqp]
      refine h.timed q ((Timers.same_of_deadlines ?_).1.mp hq)
      rw [hdead, Function.update_of_ne hqp]
  · rw [hproc]
    by_cases hqp : q = p
    · rw [hqp, Function.update_self]
    · rw [Function.update_of_ne hqp] at hq ⊢
      exact h.owned q hq

/-- A process enters a mailbox, with a new timer if it has a timeout. -/
theorem Procs.enter (h : Procs .out k call) (hcall : (call p).queue = none) (hout : p ∉ k.timers.list) :
    Procs (.entered p) (k.ipcTimerInit p c.timeout) (Function.update call p c) := by
  obtain ⟨hinit, -, hexp⟩ := h.kern.timerInit_spec hout c.timeout
  have hwait := h.no_wait hcall
  refine ⟨hinit, fun r w hw => ?_, fun r x hx hw => ?_, fun r hr => ?_, fun r hr => ?_, fun r hr => ?_⟩
  · rw [Kern.ipcTimerInit_wait] at hw
    have hrp : r ≠ p := by
      intro hrp
      rw [hrp, hwait] at hw
      cases hw
    rw [Function.update_of_ne hrp]
    exact h.waits r w hw
  · by_cases hrp : r = p
    · rw [hrp]
      rfl
    · rw [Function.update_of_ne hrp] at hx
      rw [Kern.ipcTimerInit_wait] at hw
      exact absurd (h.queued r x hx hw) nofun
  · cases hr
    rw [Kern.ipcTimerInit_wait, Kern.ipcTimerInit_list]
    exact ⟨hwait, hout⟩
  · rw [Kern.ipcTimerInit_list] at hr
    have hrp : r ≠ p := fun hrp => hout (hrp ▸ hr)
    rw [Function.update_of_ne hrp]
    exact h.timed r hr
  · by_cases hrp : r = p
    · rw [hrp, Function.update_self] at hr
      rw [hrp]
      exact (hexp hr).2
    · rw [Function.update_of_ne hrp] at hr
      have hsame : (k.ipcTimerInit p c.timeout).timers.proc r = k.timers.proc r := by
        unfold Kern.ipcTimerInit
        split
        · exact Function.update_of_ne hrp ..
        · rfl
      rw [hsame]
      exact h.owned r hr

/-- A process that slept in a queue runs again. -/
theorem Procs.unwait (h : Procs .out k call) {q : ℕ × Side} (hmid : mid.proc = some p)
    (hinv : Waits.Inv k') (hun : Waits.Unblocked k q p k') : Procs mid k' call := by
  have hmem : ∀ i ∈ k'.timers.list, i ≠ p ∧ i ∈ k.timers.list := by
    intro i hi
    by_cases hip : i = p
    · refine absurd hi (Timers.not_mem_of_deadlines ?_)
      rw [hun.deadlines, hip, Function.update_self]
    · refine ⟨hip, (Timers.same_of_deadlines ?_).1.mp hi⟩
      rw [hun.deadlines, Function.update_of_ne hip]
  refine ⟨hinv, fun r w hw => ?_, fun r x hx hw => ?_, fun r hr => ?_, fun r hr => h.timed r (hmem r hr).2,
    fun r hr => ?_⟩
  · rw [hun.wait] at hw
    by_cases hrp : r = p
    · rw [hrp, Function.update_self] at hw
      cases hw
    · rw [Function.update_of_ne hrp] at hw
      exact h.waits r w hw
  · by_cases hrp : r = p
    · rw [hrp]
      exact hmid
    · rw [hun.wait, Function.update_of_ne hrp] at hw
      exact absurd (h.queued r x hx hw) nofun
  · have hrp : p = r := Option.some.inj (hmid.symm.trans hr)
    subst hrp
    rw [hun.wait, Function.update_self]
    exact ⟨rfl, fun hp => (hmem p hp).1 rfl⟩
  · rw [hun.proc]
    exact h.owned r hr

/-- A process inside goes to sleep in its queue. -/
theorem Procs.block (h : Procs mid k call) {ws : UInt32} (hmid : mid.proc = some p)
    (hcall : (call p).queue = some (m, side)) (hinv : Waits.Inv k')
    (harmed : Waits.Armed (k.waitCurrentSet (m, side) p ws) p (call p).timeout k') : Procs .out k' call := by
  have hwait : k'.wait = Function.update k.wait p (some ⟨WT_INTERRUPTED, (m, side)⟩) := harmed.wait
  refine ⟨hinv, fun r w hw => ?_, fun r x hx hw => ?_, nofun, fun r hr => ?_, fun r hr => ?_⟩
  · rw [hwait] at hw
    by_cases hrp : r = p
    · rw [hrp, Function.update_self] at hw
      cases hw
      rw [hrp]
      exact ⟨hcall, Or.inl rfl⟩
    · rw [Function.update_of_ne hrp] at hw
      exact h.waits r w hw
  · rw [hwait] at hw
    by_cases hrp : r = p
    · rw [hrp, Function.update_self] at hw
      cases hw
    · rw [Function.update_of_ne hrp] at hw
      exact absurd (Option.some.inj ((h.queued r x hx hw).symm.trans hmid)) hrp
  · by_cases hrp : r = p
    · rw [hrp]
      intro hzero
      -- without a timeout no timer has been queued
      refine (h.awake p hmid).2 ((Timers.same_of_deadlines ?_).1.mp (hrp ▸ hr))
      rw [harmed.deadlines, if_neg (not_not.mpr hzero)]
      rfl
    · refine h.timed r ((Timers.same_of_deadlines ?_).1.mp hr)
      rw [harmed.deadlines]
      split
      · exact Function.update_of_ne hrp ..
      · rfl
  · rw [harmed.proc]
    exact h.owned r hr

/-- The mailbox wakes the first process of a queue. -/
theorem Procs.first (h : Procs mid k call) (side : Side) (hinv : Waits.Inv k')
    (hfirst : First k (m, side) side.flag k') : Procs mid k' call := by
  rcases hfirst with ⟨-, rfl⟩ | ⟨x, rest, hq, hwoke⟩
  · exact h
  have hx : x ∈ k.queues (m, side) := by simp [hq]
  have hwx := h.kern.queued _ x hx
  refine ⟨hinv, fun r w hw => ?_, fun r y hy hw => ?_, fun r hr => ?_, fun r hr => ?_, fun r hr => ?_⟩
  · rw [hwoke.wait] at hw
    by_cases hrx : r = x
    · rw [hrx, Function.update_self] at hw
      cases hw
      rw [hrx]
      exact ⟨(h.waits x _ hwx).1, Or.inr rfl⟩
    · rw [Function.update_of_ne hrx] at hw
      exact h.waits r w hw
  · rw [hwoke.wait] at hw
    by_cases hrx : r = x
    · rw [hrx, Function.update_self] at hw
      cases hw
    · rw [Function.update_of_ne hrx] at hw
      exact h.queued r y hy hw
  · obtain ⟨hnone, hout⟩ := h.awake r hr
    have hrx : r ≠ x := by
      intro hrx
      rw [hrx, hwx] at hnone
      cases hnone
    rw [hwoke.wait, Function.update_of_ne hrx, hwoke.timers]
    exact ⟨hnone, hout⟩
  · rw [hwoke.timers] at hr
    exact h.timed r hr
  · rw [hwoke.timers]
    exact h.owned r hr

/-- The waits in a queue that is interrupted were marked so before. -/
theorem interrupted_wait (h : Waits.Inv k) {q : ℕ × Side} (hwoke : Waits.WokeAll k q WT_INTERRUPTED k') (r : ℕ) :
    k'.wait r = k.wait r := by
  by_cases hr : r ∈ k.queues q
  · rw [(hwoke.woken r hr).1, h.queued q r hr]
  · exact (hwoke.frame r hr).1

/-- Every process of a queue is woken from its wait, as by a kill. -/
theorem Procs.wokeAll (h : Procs mid k call) {q : ℕ × Side} (hinv : Waits.Inv k')
    (hwoke : Waits.WokeAll k q WT_INTERRUPTED k') : Procs mid k' call := by
  have hwait := interrupted_wait h.kern hwoke
  refine ⟨hinv, fun r w hw => ?_, fun r y hy hw => ?_, fun r hr => ?_, fun r hr => ?_, fun r hr => ?_⟩
  · rw [hwait] at hw
    exact h.waits r w hw
  · rw [hwait] at hw
    exact h.queued r y hy hw
  · rw [hwait, hwoke.timers]
    exact h.awake r hr
  · rw [hwoke.timers] at hr
    exact h.timed r hr
  · rw [hwoke.timers]
    exact h.owned r hr

theorem Call.not_inside (h : c.queue = none) (m : ℕ) : ¬ c.Inside m := by
  rintro ⟨side, hq⟩
  rw [h] at hq
  cases hq

theorem Call.inside_iff (h : c.queue = some (m, side)) (m' : ℕ) : c.Inside m' ↔ m' = m := by
  constructor
  · rintro ⟨side', hq⟩
    rw [h] at hq
    cases hq
    rfl
  · rintro rfl
    exact ⟨side, h⟩

open Classical in
/-- One process moves: `inuse` follows. -/
theorem Counts.update (h : Counts call mbox)
    (hin : ∀ m', (mbox' m').inuse + (if (call p).Inside m' then 1 else 0) =
      (mbox m').inuse + (if c.Inside m' then 1 else 0)) : Counts (Function.update call p c) mbox' := by
  refine ⟨fun m' => finite_update (P := Call.Inside m') p c (h.finite m'), fun m' => ?_⟩
  have hocc := occ_update (P := Call.Inside m') p c (h.finite m')
  have hm := hin m'
  have hold := h.inuse m'
  omega

theorem Counts.congr (h : Counts call mbox) (hin : ∀ m', (mbox' m').inuse = (mbox m').inuse) :
    Counts call mbox' :=
  ⟨h.finite, fun m' => (hin m').trans (h.inuse m')⟩

/-- A process that is in no mailbox goes to where it is in none. -/
theorem Counts.recall (h : Counts call mbox) (hold : (call p).queue = none) (hnew : c.queue = none) :
    Counts (Function.update call p c) mbox := by
  classical
  refine h.update fun m' => ?_
  rw [if_neg (Call.not_inside hold m'), if_neg (Call.not_inside hnew m')]

theorem Counts.enter (h : Counts call mbox) {b : Mbox} (hold : (call p).queue = none)
    (hnew : c.queue = some (m, side)) (hb : b.inuse = (mbox m).inuse + 1) :
    Counts (Function.update call p c) (Function.update mbox m b) := by
  classical
  refine h.update fun m' => ?_
  rw [if_neg (Call.not_inside hold m')]
  by_cases hm : m' = m
  · rw [hm, Function.update_self, if_pos ((Call.inside_iff hnew m).mpr rfl), hb]
  · rw [Function.update_of_ne hm, if_neg fun hin => hm ((Call.inside_iff hnew m').mp hin)]

theorem Counts.leave (h : Counts call mbox) {b : Mbox} (hold : (call p).queue = some (m, side))
    (hnew : c.queue = none) (hb : b.inuse = (mbox m).inuse - 1) :
    Counts (Function.update call p c) (Function.update mbox m b) := by
  classical
  have hpos : 0 < (mbox m).inuse := by
    rw [h.inuse m]
    exact Nat.pos_of_ne_zero (occ_ne_zero (P := Call.Inside m) (h.finite m) ⟨side, hold⟩)
  refine h.update fun m' => ?_
  rw [if_neg (Call.not_inside hnew m')]
  by_cases hm : m' = m
  · rw [hm, Function.update_self, if_pos ((Call.inside_iff hold m).mpr rfl), hb]
    omega
  · rw [Function.update_of_ne hm, if_neg fun hin => hm ((Call.inside_iff hold m').mp hin)]

theorem Boxes.requeue (h : Boxes queues mbox)
    (hq : ∀ m, (mbox m).state = .closing → ∀ side, queues' (m, side) = []) : Boxes queues' mbox :=
  ⟨h.opened, fun m hm => ⟨(h.closing m hm).1, (h.closing m hm).2.1, hq m hm⟩, h.closed⟩

/-- The queues of a closing mailbox are empty, and stay so. -/
theorem Boxes.shrink (h : Boxes queues mbox) (hq : ∀ q, (queues' q).Sublist (queues q)) :
    Boxes queues' mbox := by
  refine h.requeue fun m hm side => ?_
  have hsub := hq (m, side)
  rw [(h.closing m hm).2.2 side] at hsub
  exact List.sublist_nil.mp hsub

/-- One mailbox changes. -/
theorem Boxes.set (h : Boxes queues mbox) {b : Mbox}
    (hopened : b.state = .opened → b.slots = b.msgs.length)
    (hclosing : b.state = .closing → b.msgs = [] ∧ 0 < b.inuse ∧ ∀ side, queues (m, side) = [])
    (hclosed : b.state = .closed → b.msgs = [] ∧ b.slots = 0 ∧ b.inuse = 0) :
    Boxes queues (Function.update mbox m b) := by
  refine ⟨fun m' => ?_, fun m' => ?_, fun m' => ?_⟩
  · by_cases hm : m' = m
    · rw [hm, Function.update_self]
      exact hopened
    · rw [Function.update_of_ne hm]
      exact h.opened m'
  · by_cases hm : m' = m
    · rw [hm, Function.update_self]
      exact hclosing
    · rw [Function.update_of_ne hm]
      exact h.closing m'
  · by_cases hm : m' = m
    · rw [hm, Function.update_self]
      exact hclosed
    · rw [Function.update_of_ne hm]
      exact h.closed m'

/-- The state of no mailbox changes. -/
theorem Frees.congr (h : Frees mbox free mapped) (hstate : ∀ m, (mbox' m).state = (mbox m).state) :
    Frees mbox' free mapped := by
  refine ⟨h.nodup, fun m hm => ?_, fun m hm => ?_⟩
  · rw [hstate]
    exact h.free m hm
  · rw [hstate]
    exact h.unmapped m hm

theorem Frees.set (h : Frees mbox free mapped) {b : Mbox} (hb : b.state = (mbox m).state) :
    Frees (Function.update mbox m b) free mapped := by
  refine h.congr fun m' => ?_
  by_cases hm : m' = m
  · rw [hm, Function.update_self, hb]
  · rw [Function.update_of_ne hm]

/-- A mailbox that was not free is closed. -/
theorem Frees.close (h : Frees mbox free mapped) {b : Mbox} (hstate : (mbox m).state ≠ .closed)
    (hb : b.state = .closed) : Frees (Function.update mbox m b) (free ++ [m]) mapped := by
  have hout : m ∉ free := fun hm => hstate (h.free m hm).1
  have hmapped : mapped (m / MBOX_P_PAGE) = true := by
    by_contra hne
    exact hstate (h.unmapped m (by simpa using hne))
  refine ⟨?_, fun m' hm' => ?_, fun m' hm' => ?_⟩
  · rw [List.nodup_append]
    refine ⟨h.nodup, by simp, fun a ha x hx => ?_⟩
    rw [List.mem_singleton.mp hx]
    exact fun ham => hout (ham ▸ ha)
  · by_cases hm : m' = m
    · rw [hm, Function.update_self]
      exact ⟨hb, hmapped⟩
    · rw [Function.update_of_ne hm]
      rw [List.mem_append, List.mem_singleton] at hm'
      exact h.free m' (hm'.resolve_right hm)
  · by_cases hm : m' = m
    · rw [hm, Function.update_self]
      exact hb
    · rw [Function.update_of_ne hm]
      exact h.unmapped m' hm'

/-- No process begins to map a page. -/
theorem Maps.recall {mapping : Bool} (h : Maps call mapping mapped)
    (hc : ∀ maxSlots i, c ≠ .mapping maxSlots i) : Maps (Function.update call p c) mapping mapped := by
  have hold : ∀ q maxSlots i, Function.update call p c q = .mapping maxSlots i → call q = .mapping maxSlots i := by
    intro q maxSlots i hq
    by_cases hqp : q = p
    · rw [hqp, Function.update_self] at hq
      exact absurd hq (hc maxSlots i)
    · rw [Function.update_of_ne hqp] at hq
      exact hq
  exact ⟨fun q maxSlots i hq => h.mapping q maxSlots i (hold q maxSlots i hq),
    fun q r maxSlots i maxSlots' j hq hr =>
      h.alone q r maxSlots i maxSlots' j (hold q maxSlots i hq) (hold r maxSlots' j hr)⟩

end Parts

/-! ## Every action keeps the invariant -/

section Keeps

variable {s s' : Sys} {mid mid' : Mid} {es : List Event} {p m : ℕ} {k : Kern (ℕ × Side)}

theorem Inv.roused (h : Inv mid s) (hinv : Waits.Inv k) (hroused : Waits.Roused s.kern k)
    (htimers : ∀ i ∈ k.timers.list, i ∈ s.kern.timers.list)
    (hproc : ∀ i, k.timers.proc i = s.kern.timers.proc i) : Inv mid { s with kern := k } := by
  refine ⟨h.procs.roused hinv hroused htimers hproc, h.counts, ?_, h.frees, h.maps⟩
  show Boxes k.queues s.mbox
  rw [hroused.queues]
  exact h.boxes

/-- A process outside the mailboxes, with no timer, goes to such a place. -/
theorem Inv.recall (h : Inv .out s) {c : Call} (hold : (s.call p).queue = none)
    (hout : (s.call p).timeout = 0) (hnew : c.queue = none) (htimeout : c.timeout = 0)
    (hmapping : ∀ maxSlots i, c ≠ .mapping maxSlots i) : Inv .out (s.setCall p c) :=
  ⟨h.procs.recall (Or.inl rfl) (h.procs.no_wait hold) (h.procs.untimed hout) hnew htimeout,
    h.counts.recall hold hnew, h.boxes, h.frees, h.maps.recall hmapping⟩

/-- The new mailboxes of a page. -/
theorem page_ids (i : ℕ) : ((List.range MBOX_P_PAGE).map (i * MBOX_P_PAGE + ·)).Nodup ∧
    ∀ m, m ∈ (List.range MBOX_P_PAGE).map (i * MBOX_P_PAGE + ·) ↔ m / MBOX_P_PAGE = i := by
  have hpos : 0 < MBOX_P_PAGE := by decide
  constructor
  · exact List.nodup_range.map fun a b hab => Nat.add_left_cancel hab
  · intro m
    rw [List.mem_map]
    constructor
    · rintro ⟨j, hj, rfl⟩
      rw [List.mem_range] at hj
      rw [Nat.mul_comm, Nat.mul_add_div hpos, Nat.div_eq_of_lt hj, Nat.add_zero]
    · rintro rfl
      refine ⟨m % MBOX_P_PAGE, List.mem_range.mpr (Nat.mod_lt _ hpos), ?_⟩
      rw [Nat.mul_comm]
      exact Nat.div_add_mod m MBOX_P_PAGE

theorem Inv.mapPage (h : Inv .out s) {maxSlots i : ℕ} (hcall : s.call p = .mapping maxSlots i) :
    Inv .out
      { s.setCall p .idle with
        mapping := false
        mapped := Function.update s.mapped i true
        mbox := fun m => if m / MBOX_P_PAGE = i then Mbox.fresh else s.mbox m
        free := s.free ++ (List.range MBOX_P_PAGE).map (i * MBOX_P_PAGE + ·) } := by
  have hmissing := (h.maps.mapping p maxSlots i hcall).2
  have hqueue : (s.call p).queue = none := by
    rw [hcall]
    rfl
  have htimeout : (s.call p).timeout = 0 := by
    rw [hcall]
    rfl
  obtain ⟨hnodup, hmem⟩ := page_ids i
  -- the mailboxes of the page were closed, if they were anything
  have hclosed : ∀ m, m / MBOX_P_PAGE = i → (s.mbox m).state = .closed := by
    intro m hm
    apply h.frees.unmapped
    rw [hm]
    exact hmissing
  have hcounts := h.counts.recall (c := .idle) hqueue rfl
  refine ⟨h.procs.recall (Or.inl rfl) (h.procs.no_wait hqueue) (h.procs.untimed htimeout) rfl rfl,
    hcounts.congr fun m => ?_, ⟨fun m hm => ?_, fun m hm => ?_, fun m hm => ?_⟩,
    ⟨?_, fun m hm => ?_, fun m hm => ?_⟩, fun q n j hq => ?_, fun q r n j n' j' hq => ?_⟩
  · dsimp only
    split
    · rename_i hm
      exact (h.boxes.closed m (hclosed m hm)).2.2.symm
    · rfl
  · dsimp only at hm ⊢
    split at hm
    · cases hm
    · rename_i hm'
      rw [if_neg hm']
      exact h.boxes.opened m hm
  · dsimp only at hm ⊢
    split at hm
    · cases hm
    · rename_i hm'
      rw [if_neg hm']
      exact h.boxes.closing m hm
  · dsimp only at hm ⊢
    split at hm
    · rename_i hm'
      rw [if_pos hm']
      exact ⟨rfl, rfl, rfl⟩
    · rename_i hm'
      rw [if_neg hm']
      exact h.boxes.closed m hm
  · rw [List.nodup_append]
    refine ⟨h.frees.nodup, hnodup, fun a ha b hb hab => ?_⟩
    have hmapped := (h.frees.free a ha).2
    rw [hab, (hmem b).mp hb, hmissing] at hmapped
    cases hmapped
  · dsimp only
    by_cases hm' : m / MBOX_P_PAGE = i
    · rw [if_pos hm', hm', Function.update_self]
      exact ⟨rfl, rfl⟩
    · rw [if_neg hm', Function.update_of_ne hm']
      rcases List.mem_append.mp hm with hold | hnew
      · exact h.frees.free m hold
      · exact absurd ((hmem m).mp hnew) hm'
  · dsimp only at hm ⊢
    by_cases hm' : m / MBOX_P_PAGE = i
    · rw [if_pos hm']
      rfl
    · rw [if_neg hm']
      rw [Function.update_of_ne hm'] at hm
      exact h.frees.unmapped m hm
  · replace hq : Function.update s.call p .idle q = .mapping n j := hq
    by_cases hqp : q = p
    · rw [hqp, Function.update_self] at hq
      cases hq
    · rw [Function.update_of_ne hqp] at hq
      exact absurd (h.maps.alone q p n j maxSlots i hq hcall) hqp
  · replace hq : Function.update s.call p .idle q = .mapping n j := hq
    by_cases hqp : q = p
    · rw [hqp, Function.update_self] at hq
      cases hq
    · rw [Function.update_of_ne hqp] at hq
      exact absurd (h.maps.alone q p n j maxSlots i hq hcall) hqp

theorem First.sublist {k k' : Kern (ℕ × Side)} {q : ℕ × Side} {f : UInt32} (h : First k q f k') (q' : ℕ × Side) :
    (k'.queues q').Sublist (k.queues q') := by
  rcases h with ⟨-, rfl⟩ | ⟨x, rest, -, hwoke⟩
  · exact List.Sublist.refl _
  · rw [hwoke.queues]
    by_cases hq : q' = q
    · rw [hq, Function.update_self]
      exact List.erase_sublist
    · rw [Function.update_of_ne hq]

theorem WokeAll.sublist {k k' : Kern (ℕ × Side)} {q : ℕ × Side} {f : UInt32} (h : Waits.WokeAll k q f k')
    (q' : ℕ × Side) : (k'.queues q').Sublist (k.queues q') := by
  rw [h.queues]
  by_cases hq : q' = q
  · rw [hq, Function.update_self]
    exact List.nil_sublist _
  · rw [Function.update_of_ne hq]

/-- A process leaves an open mailbox, with a change to it and a wake-up. -/
theorem Inv.leaveOpen (h : Inv mid s) (side side' : Side) {b : Mbox} {c : Call} (hmid : mid.proc = some p)
    (hcall : (s.call p).queue = some (m, side)) (hopened : (s.mbox m).state = .opened)
    (hb : b.state = .opened) (hinuse : b.inuse = (s.mbox m).inuse - 1) (hslots : b.slots = b.msgs.length)
    (hqueue : c.queue = none) (htimeout : c.timeout = 0) (hmapping : ∀ maxSlots i, c ≠ .mapping maxSlots i)
    (hinv : Waits.Inv k) (hfirst : First s.kern (m, side') side'.flag k) :
    Inv .out { (s.setMbox m b).setCall p c with kern := k } := by
  have hfirst' := h.procs.first side' hinv hfirst
  obtain ⟨hwait, hout⟩ := hfirst'.awake p hmid
  have hboxes : Boxes s.kern.queues (Function.update s.mbox m b) := by
    refine h.boxes.set (fun _ => hslots) (fun hc => ?_) fun hc => ?_
    · rw [hb] at hc
      cases hc
    · rw [hb] at hc
      cases hc
  exact ⟨hfirst'.recall (Or.inr hmid) hwait hout hqueue htimeout, h.counts.leave hcall hqueue hinuse,
    hboxes.shrink hfirst.sublist, h.frees.set (hb.trans hopened.symm), h.maps.recall hmapping⟩

theorem Sys.getMbox_opened {id : ℕ} (h : s.getMbox id = true) : (s.mbox id).state = .opened := by
  unfold Sys.getMbox at h
  rw [Bool.and_eq_true] at h
  exact of_decide_eq_true h.2

theorem Inv.enterBox (h : Inv .out s) {side : Side} {c : Call} (hold : (s.call p).Plain)
    (hopened : (s.mbox m).state = .opened) (hqueue : c.queue = some (m, side)) (n : ℕ) :
    Inv (.entered p) { s.enter p m c.timeout c with loads := n } := by
  have hmapping : ∀ maxSlots i, c ≠ .mapping maxSlots i := by
    intro maxSlots i hc
    rw [hc] at hqueue
    cases hqueue
  have hboxes : Boxes s.kern.queues
      (Function.update s.mbox m { s.mbox m with inuse := (s.mbox m).inuse + 1 }) := by
    refine h.boxes.set (fun _ => h.boxes.opened m hopened) (fun hc => ?_) fun hc => ?_
    · exact absurd (hopened.symm.trans hc) nofun
    · exact absurd (hopened.symm.trans hc) nofun
  refine ⟨h.procs.enter hold.queue (h.procs.untimed hold.timeout), h.counts.enter hold.queue hqueue rfl, ?_,
    h.frees.set rfl, h.maps.recall hmapping⟩
  show Boxes (s.kern.ipcTimerInit p c.timeout).queues _
  rw [Kern.ipcTimerInit_queues]
  exact hboxes

/-- A process leaves a mailbox that may be closing. -/
theorem Inv.leaveLeft (h : Inv mid s) (side : Side) (hmid : mid.proc = some p)
    (hcall : (s.call p).queue = some (m, side)) : Inv .out ((s.left m).setCall p .idle) := by
  obtain ⟨hwait, hout⟩ := h.procs.awake p hmid
  have hprocs := h.procs.recall (c := .idle) (Or.inr hmid) hwait hout rfl rfl
  have hmaps := h.maps.recall (p := p) (c := .idle) nofun
  unfold Sys.left
  split
  · rename_i hlast
    refine ⟨hprocs, h.counts.leave hcall rfl ?_, h.boxes.set nofun nofun fun _ => ?_, ?_, hmaps⟩
    · show 0 = (s.mbox m).inuse - 1
      rw [hlast.2]
    · exact ⟨(h.boxes.closing m hlast.1).1, rfl, rfl⟩
    · refine h.frees.close ?_ rfl
      rw [hlast.1]
      exact nofun
  · rename_i hlast
    have hpos : 0 < (s.mbox m).inuse := by
      rw [h.counts.inuse m]
      exact Nat.pos_of_ne_zero (occ_ne_zero (P := Call.Inside m) (h.counts.finite m) ⟨side, hcall⟩)
    refine ⟨hprocs, h.counts.leave hcall rfl rfl, h.boxes.set (h.boxes.opened m) (fun hc => ?_) fun hc => ?_,
      h.frees.set rfl, hmaps⟩
    · obtain ⟨hmsgs, -, hqueues⟩ := h.boxes.closing m hc
      refine ⟨hmsgs, ?_, hqueues⟩
      show 0 < (s.mbox m).inuse - 1
      have hne : (s.mbox m).inuse ≠ 1 := fun hone => hlast ⟨hc, hone⟩
      omega
    · have hzero := (h.boxes.closed m hc).2.2
      omega

theorem Inv.freeBox (h : Inv .out s) {k₁ : Kern (ℕ × Side)} (hopened : (s.mbox m).state = .opened)
    (hinv₁ : Waits.Inv k₁) (hinv : Waits.Inv k)
    (hsenders : Waits.WokeAll s.kern (m, .senders) WT_INTERRUPTED k₁)
    (hreceivers : Waits.WokeAll k₁ (m, .receivers) WT_INTERRUPTED k) (b : Mbox) (free : List ℕ)
    (hclosing : (s.mbox m).inuse ≠ 0 → b = { s.mbox m with state := .closing, msgs := [] } ∧ free = s.free)
    (hclosed : (s.mbox m).inuse = 0 →
      b = { s.mbox m with state := .closed, msgs := [], maxSlots := 0, slots := 0 } ∧ free = s.free ++ [m]) :
    Inv .out { s.setMbox m b with kern := k, free := free } := by
  have hprocs := (h.procs.wokeAll hinv₁ hsenders).wokeAll hinv hreceivers
  have hqueues : ∀ side, k.queues (m, side) = [] := by
    intro side
    rw [hreceivers.queues]
    cases side with
    | senders =>
      have hne : ((m, .senders) : ℕ × Side) ≠ (m, .receivers) := by simp
      rw [Function.update_of_ne hne, hsenders.queues, Function.update_self]
    | receivers => rw [Function.update_self]
  have hboxes := (h.boxes.shrink (WokeAll.sublist hsenders)).shrink (WokeAll.sublist hreceivers)
  by_cases hzero : (s.mbox m).inuse = 0
  · obtain ⟨rfl, rfl⟩ := hclosed hzero
    have hframe : ∀ m', (Function.update s.mbox m { s.mbox m with
        state := .closed, msgs := [], maxSlots := 0, slots := 0 } m').inuse = (s.mbox m').inuse := by
      intro m'
      by_cases hm : m' = m
      · rw [hm, Function.update_self]
      · rw [Function.update_of_ne hm]
    refine ⟨hprocs, h.counts.congr hframe, hboxes.set nofun nofun fun _ => ⟨rfl, rfl, hzero⟩, ?_, h.maps⟩
    refine h.frees.close ?_ rfl
    rw [hopened]
    exact nofun
  · obtain ⟨rfl, rfl⟩ := hclosing hzero
    have hframe : ∀ m', (Function.update s.mbox m { s.mbox m with
        state := .closing, msgs := [] } m').inuse = (s.mbox m').inuse := by
      intro m'
      by_cases hm : m' = m
      · rw [hm, Function.update_self]
      · rw [Function.update_of_ne hm]
    refine ⟨hprocs, h.counts.congr hframe,
      hboxes.set nofun (fun _ => ⟨rfl, Nat.pos_of_ne_zero hzero, hqueues⟩) nofun, ?_, h.maps⟩
    refine ⟨h.frees.nodup, fun m' hm' => ?_, fun m' hm' => ?_⟩
    · have hm : m' ≠ m := by
        intro hm
        have hclosed' := (h.frees.free m' hm').1
        rw [hm, hopened] at hclosed'
        cases hclosed'
      show (Function.update s.mbox m _ m').state = _ ∧ _
      rw [Function.update_of_ne hm]
      exact h.frees.free m' hm'
    · have hm : m' ≠ m := by
        intro hm
        have hclosed' := h.frees.unmapped m' hm'
        rw [hm, hopened] at hclosed'
        cases hclosed'
      show (Function.update s.mbox m _ m').state = _
      rw [Function.update_of_ne hm]
      exact h.frees.unmapped m' hm'

theorem Inv.openBox (h : Inv .out s) {maxSlots : ℕ} {rest : List ℕ} (hfree : s.free = m :: rest) (n : ℕ) :
    Inv .out
      { (s.setMbox m { s.mbox m with state := .opened, maxSlots := maxSlots, opening := s.opens }) with
        free := rest, opens := n } := by
  have hm : m ∈ s.free := by simp [hfree]
  obtain ⟨hclosed, hmapped⟩ := h.frees.free m hm
  have hnodup := h.frees.nodup
  rw [hfree, List.nodup_cons] at hnodup
  obtain ⟨hmsgs, hslots, hinuse⟩ := h.boxes.closed m hclosed
  refine ⟨h.procs, h.counts.congr fun m' => ?_, h.boxes.set (fun _ => ?_) nofun nofun,
    ⟨hnodup.2, fun m' hm' => ?_, fun m' hm' => ?_⟩, h.maps⟩
  · show (Function.update s.mbox m _ m').inuse = _
    by_cases hmm : m' = m
    · rw [hmm, Function.update_self]
    · rw [Function.update_of_ne hmm]
  · show (s.mbox m).slots = (s.mbox m).msgs.length
    rw [hslots, hmsgs]
    rfl
  · have hmm : m' ≠ m := fun hmm => hnodup.1 (hmm ▸ hm')
    show (Function.update s.mbox m _ m').state = _ ∧ _
    rw [Function.update_of_ne hmm]
    exact h.frees.free m' (by rw [hfree]; exact List.mem_cons_of_mem m hm')
  · have hmm : m' ≠ m := by
      intro hmm
      rw [hmm] at hm'
      exact absurd (hmapped.symm.trans hm') nofun
    show (Function.update s.mbox m _ m').state = _
    rw [Function.update_of_ne hmm]
    exact h.frees.unmapped m' hm'

/-- **Every action keeps the invariant.** -/
theorem Inv.does (h : Inv mid s) (hdoes : Does mid s es mid' s') : Inv mid' s' := by
  cases hdoes with
  | ticked _ k hinv hticked =>
    have hr := h.roused hinv hticked.roused (fun i hi => hticked.mem hi) hticked.proc
    exact ⟨hr.procs, hr.counts, hr.boxes, hr.frees, hr.maps⟩
  | killed _ p k hinv hkilled =>
    refine h.roused hinv hkilled.roused (fun i hi => ?_) fun i => ?_
    · rw [hkilled.timers] at hi
      exact hi
    · rw [hkilled.timers]
  | plain _ p c e hold hnew he =>
    refine h.recall hold.queue hold.timeout hnew.queue hnew.timeout fun maxSlots i hc => ?_
    rw [hc] at hnew
    exact hnew
  | slept _ p time k hcall hinv hwait hqueues hprocs hticks hdead hproc htime =>
    have hqueue : (s.call p).queue = none := by
      rw [hcall]
      rfl
    refine ⟨h.procs.sleep hqueue hinv hwait hdead hproc htime, h.counts.recall hqueue rfl, ?_, h.frees,
      h.maps.recall nofun⟩
    show Boxes k.queues s.mbox
    rw [hqueues]
    exact h.boxes
  | arose _ p time k hcall hinv hdis =>
    have hqueue : (s.call p).queue = none := by
      rw [hcall]
      rfl
    have hprocs := h.procs.disarmed hinv hdis
    have hout : p ∉ k.timers.list := by
      apply Timers.not_mem_of_deadlines
      rw [hdis.deadlines, Function.update_self]
    refine ⟨hprocs.recall (Or.inl rfl) (hprocs.no_wait hqueue) hout rfl rfl, h.counts.recall hqueue rfl, ?_,
      h.frees, h.maps.recall nofun⟩
    show Boxes k.queues s.mbox
    rw [hdis.queues]
    exact h.boxes
  | mapping _ p maxSlots i hcall hsem hmissing =>
    have hqueue : (s.call p).queue = none := by
      rw [hcall]
      rfl
    have htimeout : (s.call p).timeout = 0 := by
      rw [hcall]
      rfl
    -- no other process is in `new_mbox`
    have hnone : ∀ q n j, s.call q ≠ .mapping n j := by
      intro q n j hq
      rw [(h.maps.mapping q n j hq).1] at hsem
      cases hsem
    have honly : ∀ q n j, Function.update s.call p (.mapping maxSlots i) q = .mapping n j → q = p ∧ j = i := by
      intro q n j hq
      by_cases hqp : q = p
      · rw [hqp, Function.update_self] at hq
        cases hq
        exact ⟨hqp, rfl⟩
      · rw [Function.update_of_ne hqp] at hq
        exact absurd hq (hnone q n j)
    refine ⟨h.procs.recall (Or.inl rfl) (h.procs.no_wait hqueue) (h.procs.untimed htimeout) rfl rfl,
      h.counts.recall hqueue rfl, h.boxes, h.frees, fun q n j hq => ⟨rfl, ?_⟩, fun q r n j n' j' hq hr => ?_⟩
    · rw [(honly q n j hq).2]
      exact hmissing
    · rw [(honly q n j hq).1, (honly r n' j' hr).1]
  | mapped _ p maxSlots i hcall => exact h.mapPage hcall
  | unmapped _ p maxSlots i hcall =>
    have hqueue : (s.call p).queue = none := by
      rw [hcall]
      rfl
    have htimeout : (s.call p).timeout = 0 := by
      rw [hcall]
      rfl
    have hr := h.recall (c := .idle) hqueue htimeout rfl rfl nofun
    have hnone : ∀ q n j, (s.setCall p .idle).call q ≠ .mapping n j := by
      intro q n j hq
      by_cases hqp : q = p
      · rw [hqp] at hq
        exact absurd ((Function.update_self ..).symm.trans hq) nofun
      · replace hq : Function.update s.call p .idle q = .mapping n j := hq
        rw [Function.update_of_ne hqp] at hq
        exact absurd (h.maps.alone q p n j maxSlots i hq hcall) hqp
    exact ⟨hr.procs, hr.counts, hr.boxes, hr.frees, fun q n j hq => absurd hq (hnone q n j),
      fun q r n j n' j' hq => absurd hq (hnone q n j)⟩
  | opened _ p m maxSlots rest hcall hfree => exact h.openBox hfree _
  | enterSend _ p m bytes timeout hcall hget =>
    exact h.enterBox (c := .sending m ⟨s.loads, p, bytes⟩ timeout s.kern.ticks s.now) (by rw [hcall]; trivial)
      (Sys.getMbox_opened hget) rfl _
  | enterRecv _ p m size timeout hcall hget =>
    exact h.enterBox (c := .receiving m size timeout s.kern.ticks s.now) (by rw [hcall]; trivial)
      (Sys.getMbox_opened hget) rfl _
  | unwait _ p m side f k _ hrun hwait hmid hinv hun =>
    have hproc : mid'.proc = some p := by
      rw [hmid]
      split <;> rfl
    refine ⟨h.procs.unwait hproc hinv hun, h.counts, h.boxes.shrink fun q => ?_, h.frees, h.maps⟩
    show (k.queues q).Sublist _
    rw [hun.queues]
    by_cases hq : q = (m, side)
    · rw [hq, Function.update_self]
      exact List.erase_sublist
    · rw [Function.update_of_ne hq]
  | block _ p m side _ k hmid hcall hopened hfull hinv harmed =>
    have hproc : mid.proc = some p := by
      rcases hmid with rfl | rfl <;> rfl
    refine ⟨h.procs.block hproc hcall hinv harmed, h.counts, h.boxes.requeue fun m' hm' side' => ?_, h.frees,
      h.maps⟩
    have hqueues : k.queues = Function.update s.kern.queues (m, side) (s.kern.queues (m, side) ++ [p]) :=
      harmed.queues
    have hne : (m', side') ≠ (m, side) := by
      intro heq
      cases heq
      exact absurd (hopened.symm.trans hm') nofun
    show k.queues (m', side') = []
    rw [hqueues, Function.update_of_ne hne]
    exact (h.boxes.closing m' hm').2.2 side'
  | sent _ p m msg timeout savedTicks start _ k hmid hcall hopened hroom hinv hfirst =>
    have hproc : mid.proc = some p := by
      rcases hmid with rfl | rfl <;> rfl
    refine h.leaveOpen .senders .receivers hproc (by rw [hcall]; rfl) hopened hopened rfl
      ?_ rfl rfl nofun hinv hfirst
    rw [List.length_append, h.boxes.opened m hopened]
    rfl
  | picked _ p m size msg rest timeout savedTicks start _ k hmid hcall hopened hmsgs hinv hfirst =>
    have hproc : mid.proc = some p := by
      rcases hmid with rfl | rfl <;> rfl
    refine h.leaveOpen .receivers .senders hproc (by rw [hcall]; rfl) hopened hopened rfl
      ?_ rfl rfl nofun hinv hfirst
    show (s.mbox m).slots - 1 = rest.length
    rw [h.boxes.opened m hopened, hmsgs]
    rfl
  | tooBig _ p m size timeout savedTicks start _ k hmid hcall hopened hinv hfirst =>
    have hproc : mid.proc = some p := by
      rcases hmid with rfl | rfl <;> rfl
    exact h.leaveOpen .receivers .receivers hproc (by rw [hcall]; rfl) hopened hopened rfl
      (h.boxes.opened m hopened) rfl rfl nofun hinv hfirst
  | failedSend _ p m msg timeout savedTicks start _ hmid hcall =>
    have hproc : mid.proc = some p := by
      rcases hmid with rfl | ⟨rfl, -⟩ <;> rfl
    exact h.leaveLeft .senders hproc (by rw [hcall]; rfl)
  | failedRecv _ p m size timeout savedTicks start _ hmid hcall =>
    have hproc : mid.proc = some p := by
      rcases hmid with rfl | ⟨rfl, -⟩ <;> rfl
    exact h.leaveLeft .receivers hproc (by rw [hcall]; rfl)
  | lost _ p id timeout hcall =>
    have hr := h.recall (p := p) (c := .idle) (by rw [hcall]; rfl) (by rw [hcall]; rfl) rfl rfl nofun
    exact ⟨hr.procs, hr.counts, hr.boxes, hr.frees, hr.maps⟩
  | delivered _ p id msg opening hcall =>
    exact h.recall (p := p) (c := .idle) (by rw [hcall]; rfl) (by rw [hcall]; rfl) rfl rfl nofun
  | discarded _ p id msg opening hcall hgone =>
    exact h.recall (p := p) (c := .idle) (by rw [hcall]; rfl) (by rw [hcall]; rfl) rfl rfl nofun
  | putBack _ p id msg opening k hcall hopened hinv hfirst =>
    have hqueue : (s.call p).queue = none := by
      rw [hcall]
      rfl
    have htimeout : (s.call p).timeout = 0 := by
      rw [hcall]
      rfl
    have hprocs := h.procs.first .receivers hinv hfirst
    have hboxes : Boxes s.kern.queues (Function.update s.mbox id { s.mbox id with
        slots := (s.mbox id).slots + 1, msgs := msg :: (s.mbox id).msgs }) := by
      refine h.boxes.set (fun _ => ?_) (fun hc => ?_) fun hc => ?_
      · show (s.mbox id).slots + 1 = _
        rw [h.boxes.opened id hopened]
        rfl
      · exact absurd (hopened.symm.trans hc) nofun
      · exact absurd (hopened.symm.trans hc) nofun
    refine ⟨hprocs.recall (Or.inl rfl) (hprocs.no_wait hqueue) (hprocs.untimed htimeout) rfl rfl,
      (h.counts.recall hqueue rfl).congr fun m' => ?_, hboxes.shrink hfirst.sublist, h.frees.set rfl,
      h.maps.recall nofun⟩
    show (Function.update s.mbox id _ m').inuse = _
    by_cases hm : m' = id
    · rw [hm, Function.update_self]
    · rw [Function.update_of_ne hm]
  | freed _ p m k₁ k hopened hinv₁ hinv hsenders hreceivers b free hclosing hclosed =>
    exact h.freeBox hopened hinv₁ hinv hsenders hreceivers b free hclosing hclosed

end Keeps

/-! ## No assertion of the mailboxes fails -/

variable {s s' : Sys} {mid mid' : Mid} {e : Event} {es : List Event} {p m : ℕ}

theorem first_spec {k : Kern (ℕ × Side)} (h : Waits.Inv k) (q : ℕ × Side) (f : UInt32) :
    ∃ k', k.wakeupFirst q f = some k' ∧ Waits.Inv k' ∧ First k q f k' := by
  rcases h.wakeupFirst_spec q f with ⟨hempty, hsame⟩ | ⟨p, rest, k', hq, hwake, hinv, hwoke⟩
  · exact ⟨k, hsame, h, Or.inl ⟨hempty, rfl⟩⟩
  · exact ⟨k', hwake, hinv, Or.inr ⟨p, rest, hq, hwoke⟩⟩

@[simp] theorem Sys.setCall_call (c : Call) : (s.setCall p c).call p = c := Function.update_self ..

@[simp] theorem Sys.setMbox_mbox (b : Mbox) : (s.setMbox m b).mbox m = b := Function.update_self ..

theorem Sys.setCall_self (c : Call) (h : s.call p = c) : s.setCall p c = s := by
  unfold Sys.setCall
  rw [← h, Function.update_eq_self]

/-- A mailbox with a process inside is not closed. -/
theorem Inv.inuse_pos (h : Inv mid s) (hp : (s.call p).Inside m) : 0 < (s.mbox m).inuse := by
  rw [h.counts.inuse m]
  exact Nat.pos_of_ne_zero (occ_ne_zero (P := Call.Inside m) (h.counts.finite m) hp)

theorem Inv.not_closed (h : Inv mid s) (hp : (s.call p).Inside m) : (s.mbox m).state ≠ .closed := by
  intro hclosed
  have hpos := h.inuse_pos hp
  rw [(h.boxes.closed m hclosed).2.2] at hpos
  exact absurd hpos (Nat.lt_irrefl 0)

/-- The end of `send_msg` and `recv_msg`, after a failure. -/
theorem Inv.leave_spec (h : Inv mid s) (hp : (s.call p).Inside m) : s.leave m true = .ok (s.left m) := by
  have hpos := h.inuse_pos hp
  unfold Sys.leave Sys.left
  by_cases hopened : (s.mbox m).state = .opened
  · have hnot : ¬ ((s.mbox m).state = .closing ∧ (s.mbox m).inuse = 1) := by
      rw [hopened]
      exact fun h => absurd h.1 (by decide)
    rw [if_neg hnot]
    simp [hopened]
  · have hclosing : (s.mbox m).state = .closing := by
      cases hstate : (s.mbox m).state with
      | closed => exact absurd hstate (h.not_closed hp)
      | opened => exact absurd hstate hopened
      | closing => rfl
    obtain ⟨hmsgs, -, hqueues⟩ := h.boxes.closing m hclosing
    by_cases hone : (s.mbox m).inuse = 1
    · -- the last process frees the mailbox
      simp [hclosing, hone, Sys.mboxFree, Sys.setMbox, hmsgs, hqueues]
    · have hmore : ¬ (s.mbox m).inuse - 1 = 0 := by omega
      simp [hclosing, hone, hmore]

theorem Sys.leave_of_opened (hopened : (s.mbox m).state = .opened) (failed : Bool) :
    s.leave m failed = .ok (s.setMbox m { s.mbox m with inuse := (s.mbox m).inuse - 1 }) := by
  simp [Sys.leave, hopened]

theorem Sys.addMsg_spec (h : Waits.Inv s.kern) (hopened : (s.mbox m).state = .opened) (msg : Msg)
    (append : Bool) : ∃ k, s.addMsg m msg append =
      .ok { s.setMbox m { s.mbox m with
        slots := (s.mbox m).slots + 1
        msgs := if append then (s.mbox m).msgs ++ [msg] else msg :: (s.mbox m).msgs } with kern := k } ∧
      Waits.Inv k ∧ First s.kern (m, .receivers) WT_MBOX_RECV k := by
  obtain ⟨k, hwake, hinv, hfirst⟩ := first_spec h (m, .receivers) WT_MBOX_RECV
  refine ⟨k, ?_, hinv, hfirst⟩
  unfold Sys.addMsg Sys.wakeupFirst
  dsimp only
  rw [if_pos hopened]
  show (orFault _ (s.kern.wakeupFirst (m, .receivers) WT_MBOX_RECV)).map _ = _
  rw [hwake]
  rfl

/-- A process inside a mailbox must wait, and its timer has nothing left to wait. -/
def Stuck (s : Sys) (p : ℕ) : Prop :=
  (s.call p).timeout ≠ 0 ∧ s.kern.timers.expires p = 0 ∧
    ∃ m side, (s.call p).queue = some (m, side) ∧ (s.mbox m).state = .opened ∧ s.Full m side

/-- The rest of a step by a process inside a mailbox is an action, or its timer makes it fail. -/
def Goes (mid : Mid) (s : Sys) (p : ℕ) (r : Except Fault (Event × Sys)) : Prop :=
  (∃ e s', r = .ok (e, s') ∧ e.proc = some p ∧ Does mid s [e] .out s') ∨ r = .error .timer ∧ Stuck s p

/-- A call that must wait: it goes to sleep, unless its timer has nothing left to wait. -/
theorem Inv.wait_spec (h : Inv mid s) {side : Side} (hmid : mid = .entered p ∨ mid = .woken p)
    (hcall : (s.call p).queue = some (m, side)) (hopened : (s.mbox m).state = .opened)
    (hfull : s.Full m side) : Goes mid s p (s.wait p m side side.flag (s.call p).timeout) := by
  have hproc : mid.proc = some p := by
    rcases hmid with rfl | rfl <;> rfl
  obtain ⟨hwait, hout⟩ := h.procs.awake p hproc
  unfold Sys.wait
  by_cases htimer : (s.call p).timeout ≠ 0 ∧ s.kern.timers.expires p = 0
  · right
    have hnone : (s.kern.waitCurrentSet (m, side) p side.flag).ipcAddTimer p (s.call p).timeout = none :=
      Kern.ipcAddTimer_zero htimer.1 htimer.2
    rw [hnone]
    exact ⟨rfl, htimer.1, htimer.2, m, side, hcall, hopened, hfull⟩
  · left
    have hint : side.flag &&& WT_INTERRUPTED ≠ 0 := by
      cases side <;> decide
    have hset := h.procs.kern.enqueue hwait (m, side) hint
    obtain ⟨k, hadd, hinv, harmed⟩ := hset.addTimer_spec (p := p) (s.call p).timeout hout
      (Or.inl (by unfold Kern.waitCurrentSet; simp))
      fun hne => ⟨fun hzero => htimer ⟨hne, hzero⟩, h.procs.owned p hne⟩
    rw [hadd]
    exact ⟨_, _, rfl, rfl, .block s p m side mid k hmid hcall hopened hfull hinv harmed⟩

theorem Inv.sendLoop_spec (h : Inv mid s) {msg : Msg} {timeout savedTicks : UInt32} {start : ℕ}
    (hmid : mid = .entered p ∨ mid = .woken p)
    (hcall : s.call p = .sending m msg timeout savedTicks start) (hopened : (s.mbox m).state = .opened) :
    Goes mid s p (s.sendLoop p m msg timeout) := by
  have hqueue : (s.call p).queue = some (m, .senders) := by
    rw [hcall]
    rfl
  have htimeout : (s.call p).timeout = timeout := by
    rw [hcall]
    rfl
  unfold Sys.sendLoop
  dsimp only
  split
  · rename_i hfull
    rw [← htimeout]
    exact h.wait_spec hmid hqueue hopened hfull
  · rename_i hfull
    have hroom : (s.mbox m).slots < (s.mbox m).maxSlots := Nat.not_le.mp hfull
    obtain ⟨k, hadd, hinv, hfirst⟩ := s.addMsg_spec h.procs.kern hopened msg true
    left
    rw [if_pos ⟨hopened, hroom⟩, hadd]
    simp only [Except.bind]
    rw [Sys.leave_of_opened (by simp [Sys.setMbox, hopened])]
    refine ⟨_, _, rfl, rfl, ?_⟩
    have hdoes := Does.sent s p m msg timeout savedTicks start mid k hmid hcall hopened hroom hinv hfirst
    simpa [Sys.setMbox, Sys.setCall] using hdoes

theorem Inv.recvLoop_spec (h : Inv mid s) {size : ℕ} {timeout savedTicks : UInt32} {start : ℕ}
    (hmid : mid = .entered p ∨ mid = .woken p)
    (hcall : s.call p = .receiving m size timeout savedTicks start)
    (hopened : (s.mbox m).state = .opened) : Goes mid s p (s.recvLoop p m size timeout) := by
  have hqueue : (s.call p).queue = some (m, .receivers) := by
    rw [hcall]
    rfl
  have htimeout : (s.call p).timeout = timeout := by
    rw [hcall]
    rfl
  unfold Sys.recvLoop
  dsimp only
  split
  · rename_i hempty
    rw [← htimeout]
    exact h.wait_spec hmid hqueue hopened hempty
  · rename_i hslots
    have hlen := h.boxes.opened m hopened
    cases hmsgs : (s.mbox m).msgs with
    | nil =>
      rw [hmsgs] at hlen
      exact absurd hlen hslots
    | cons msg rest =>
      have hpos : 0 < (s.mbox m).slots := Nat.pos_of_ne_zero hslots
      left
      rw [if_pos ⟨hopened, hpos, nofun⟩]
      unfold Sys.pickMsg
      dsimp only
      rw [if_pos ⟨hopened, hpos⟩, hmsgs]
      dsimp only
      by_cases hbig : size < msg.bytes
      · obtain ⟨k, hwake, hinv, hfirst⟩ := first_spec h.procs.kern (m, .receivers) WT_MBOX_RECV
        rw [if_pos hbig]
        simp only [Except.bind]
        unfold Sys.wakeupFirst
        rw [hwake]
        simp only [orFault, Except.map]
        rw [Sys.leave_of_opened (by exact hopened)]
        refine ⟨_, _, rfl, rfl, ?_⟩
        exact Does.tooBig s p m size timeout savedTicks start mid k hmid hcall hopened hinv hfirst
      · obtain ⟨k, hwake, hinv, hfirst⟩ := first_spec h.procs.kern (m, .senders) WT_MBOX_SEND
        rw [if_neg hbig]
        unfold Sys.wakeupFirst
        have hwake' : (s.setMbox m { s.mbox m with slots := (s.mbox m).slots - 1, msgs := rest }).kern.wakeupFirst
            (m, .senders) WT_MBOX_SEND = some k := hwake
        rw [hwake']
        simp only [orFault, Except.map, Except.bind]
        rw [Sys.leave_of_opened (by simp [Sys.setMbox, hopened])]
        refine ⟨_, _, rfl, rfl, ?_⟩
        have hdoes := Does.picked s p m size msg rest timeout savedTicks start mid k hmid hcall hopened hmsgs
          hinv hfirst
        simpa [Sys.setMbox, Sys.setCall] using hdoes

/-- `send_msg` or `recv_msg` after `schedule()`. -/
theorem Inv.unwait_spec (h : Inv .out s) {side : Side} {w : Waits.WaitT (ℕ × Side)}
    (hrun : (s.kern.procs p).state = .runnable) (hcall : (s.call p).queue = some (m, side))
    (hw : s.kern.wait p = some w) :
    Does .out s [] (if w.wakeupFlags = side.flag then .woken p else .stirred p)
        (s.unwait p m side (s.call p).timeout) ∧
      (w.wakeupFlags = WT_INTERRUPTED ∨ w.wakeupFlags = side.flag) := by
  obtain ⟨hqueue, hflags⟩ := h.procs.waits p w hw
  rw [hcall] at hqueue
  have hq : w.queue = (m, side) := (Option.some.inj hqueue).symm
  rw [hq] at hflags
  have hw' : s.kern.wait p = some ⟨w.wakeupFlags, (m, side)⟩ := by
    rw [hw, ← hq]
  obtain ⟨hinv, hun⟩ := h.procs.kern.unblock_spec (s.call p).timeout hw' fun hzero => h.procs.untimed hzero
  exact ⟨.unwait s p m side w.wakeupFlags _ _ hrun hw' rfl hinv hun, hflags⟩

theorem side_flag_ne (side : Side) : WT_INTERRUPTED ≠ side.flag := by
  cases side <;> decide

/-- The outcome of a step: it is done, or its process, which the mailbox has woken, must wait again with a
timer that has nothing left to wait. -/
def Done (s : Sys) (who : Option ℕ) (r : Except Fault (Event × Sys)) : Prop :=
  (∃ e s', r = .ok (e, s') ∧ e.proc = who ∧ Steps s e s') ∨
    r = .error .timer ∧ ∃ p s₁, who = some p ∧ Does .out s [] (.woken p) s₁ ∧ Stuck s₁ p

/-- The second action of a step. -/
theorem Goes.done {s₁ : Sys} {r : Except Fault (Event × Sys)} (hfirst : Does .out s [] mid s₁)
    (hmid : mid = .entered p ∧ ¬ Stuck s₁ p ∨ mid = .woken p) (h : Goes mid s₁ p r) : Done s (some p) r := by
  rcases h with ⟨e, s', hr, hproc, hdoes⟩ | ⟨hr, hstuck⟩
  · exact Or.inl ⟨e, s', hr, hproc, Or.inr ⟨mid, s₁, hfirst, hdoes⟩⟩
  · rcases hmid with ⟨-, hnot⟩ | rfl
    · exact absurd hstuck hnot
    · exact Or.inr ⟨hr, p, s₁, rfl, hfirst, hstuck⟩

/-- A process that has just entered has all of its time to wait. -/
theorem Inv.not_stuck (h : Inv .out s) {c : Call} (hout : (s.call p).timeout = 0) (n : ℕ) :
    ¬ Stuck { s.enter p m c.timeout c with loads := n } p := by
  rintro ⟨htimeout, hzero, -⟩
  replace htimeout : ((s.setCall p c).call p).timeout ≠ 0 := htimeout
  rw [Sys.setCall_call] at htimeout
  have hexp := ((h.procs.kern.timerInit_spec (h.procs.untimed hout) c.timeout).2.2 htimeout).1
  replace hzero : (s.kern.ipcTimerInit p c.timeout).timers.expires p = 0 := hzero
  rw [hexp] at hzero
  exact htimeout hzero

theorem Inv.resumeSend_spec (h : Inv .out s) {msg : Msg} {timeout savedTicks : UInt32} {start : ℕ}
    {w : Waits.WaitT (ℕ × Side)} (hrun : (s.kern.procs p).state = .runnable)
    (hcall : s.call p = .sending m msg timeout savedTicks start) (hw : s.kern.wait p = some w) :
    Done s (some p) (s.resumeSend p m msg timeout savedTicks w.wakeupFlags) := by
  have hqueue : (s.call p).queue = some (m, .senders) := by
    rw [hcall]
    rfl
  have htimeout : (s.call p).timeout = timeout := by
    rw [hcall]
    rfl
  obtain ⟨hun, hflags⟩ := h.unwait_spec hrun hqueue hw
  rw [htimeout] at hun
  have hinv := h.does hun
  have hcall' : (s.unwait p m .senders timeout).call p = .sending m msg timeout savedTicks start := hcall
  have hinside : ((s.unwait p m .senders timeout).call p).Inside m := ⟨.senders, by rw [hcall']; rfl⟩
  unfold Sys.resumeSend
  dsimp only
  by_cases hfail : ((s.unwait p m .senders timeout).mbox m).state ≠ .opened ∨ w.wakeupFlags ≠ WT_MBOX_SEND
  · have hret : (if w.wakeupFlags = WT_MBOX_SEND then WT_INTERRUPTED else w.wakeupFlags) = WT_INTERRUPTED := by
      split
      · rfl
      · rename_i hne
        exact hflags.resolve_right hne
    have hne : decide (WT_INTERRUPTED ≠ (0 : UInt32)) = true := by decide
    rw [if_pos hfail, hret, hne, hinv.leave_spec hinside]
    simp only [Except.bind, if_true]
    refine Or.inl ⟨_, _, rfl, rfl, Or.inr ⟨_, _, hun, ?_⟩⟩
    have hticks : ((s.unwait p m .senders timeout).left m).kern.ticks =
        (s.unwait p m .senders timeout).kern.ticks := by
      unfold Sys.left
      split <;> rfl
    rw [hticks]
    refine .failedSend _ p m msg timeout savedTicks start _ ?_ hcall'
    split
    · rename_i hflag
      exact Or.inr ⟨rfl, hfail.resolve_right (not_not.mpr hflag)⟩
    · exact Or.inl rfl
  · rw [not_or, not_not, not_not] at hfail
    have hwoken : (if w.wakeupFlags = Side.senders.flag then Mid.woken p else .stirred p) = .woken p :=
      if_pos hfail.2
    rw [hwoken] at hun hinv
    rw [if_neg (by rw [not_or, not_not, not_not]; exact hfail)]
    exact (hinv.sendLoop_spec (Or.inr rfl) hcall' hfail.1).done hun (Or.inr rfl)

theorem Inv.resumeRecv_spec (h : Inv .out s) {size : ℕ} {timeout savedTicks : UInt32} {start : ℕ}
    {w : Waits.WaitT (ℕ × Side)} (hrun : (s.kern.procs p).state = .runnable)
    (hcall : s.call p = .receiving m size timeout savedTicks start) (hw : s.kern.wait p = some w) :
    Done s (some p) (s.resumeRecv p m size timeout savedTicks w.wakeupFlags) := by
  have hqueue : (s.call p).queue = some (m, .receivers) := by
    rw [hcall]
    rfl
  have htimeout : (s.call p).timeout = timeout := by
    rw [hcall]
    rfl
  obtain ⟨hun, hflags⟩ := h.unwait_spec hrun hqueue hw
  rw [htimeout] at hun
  have hinv := h.does hun
  have hcall' : (s.unwait p m .receivers timeout).call p = .receiving m size timeout savedTicks start := hcall
  have hinside : ((s.unwait p m .receivers timeout).call p).Inside m := ⟨.receivers, by rw [hcall']; rfl⟩
  unfold Sys.resumeRecv
  dsimp only
  by_cases hfail : ((s.unwait p m .receivers timeout).mbox m).state ≠ .opened ∨ w.wakeupFlags ≠ WT_MBOX_RECV
  · rw [if_pos hfail, hinv.leave_spec hinside]
    refine Or.inl ⟨_, _, rfl, rfl, Or.inr ⟨_, _, hun, ?_⟩⟩
    have hticks : ((s.unwait p m .receivers timeout).left m).kern.ticks =
        (s.unwait p m .receivers timeout).kern.ticks := by
      unfold Sys.left
      split <;> rfl
    rw [hticks]
    refine .failedRecv _ p m size timeout savedTicks start _ ?_ hcall'
    split
    · rename_i hflag
      exact Or.inr ⟨rfl, hfail.resolve_right (not_not.mpr hflag)⟩
    · exact Or.inl rfl
  · rw [not_or, not_not, not_not] at hfail
    have hwoken : (if w.wakeupFlags = Side.receivers.flag then Mid.woken p else .stirred p) = .woken p :=
      if_pos hfail.2
    rw [hwoken] at hun hinv
    rw [if_neg (by rw [not_or, not_not, not_not]; exact hfail)]
    exact (hinv.recvLoop_spec (Or.inr rfl) hcall' hfail.1).done hun (Or.inr rfl)

theorem Inv.resume_spec (h : Inv .out s) (hrun : (s.kern.procs p).state = .runnable)
    (hwaits : (s.call p).Waits) : Done s (some p) (s.resume p) := by
  unfold Sys.resume
  cases hcall : s.call p with
  | sending m msg timeout savedTicks start =>
    cases hw : s.kern.wait p with
    | none => exact absurd (h.procs.queued p (m, .senders) (by rw [hcall]; rfl) hw) nofun
    | some w => exact h.resumeSend_spec hrun hcall hw
  | receiving m size timeout savedTicks start =>
    cases hw : s.kern.wait p with
    | none => exact absurd (h.procs.queued p (m, .receivers) (by rw [hcall]; rfl) hw) nofun
    | some w => exact h.resumeRecv_spec hrun hcall hw
  | sleeping time =>
    obtain ⟨hinv, hdis⟩ := h.procs.kern.delTimer_spec (p := p) time
      fun hzero => h.procs.untimed (by rw [hcall]; exact hzero)
    exact Or.inl ⟨_, _, rfl, rfl, Or.inl (.arose s p time _ hcall hinv hdis)⟩
  | idle | loading | preparing | holding | mapping => rw [hcall] at hwaits; exact hwaits.elim

theorem Inv.load_spec (h : Inv .out s) {id : ℕ} {timeout : UInt32} (hcall : s.call p = .loading id timeout)
    (loaded : Loaded) : Done s (some p) (s.load p id timeout loaded) := by
  have hplain : (s.call p).Plain := by
    rw [hcall]
    trivial
  cases loaded with
  | inval => exact Or.inl ⟨_, _, rfl, rfl, Or.inl (.plain s p .idle _ hplain trivial (Or.inr ⟨_, rfl⟩))⟩
  | noMem => exact Or.inl ⟨_, _, rfl, rfl, Or.inl (.plain s p .idle _ hplain trivial (Or.inr ⟨_, rfl⟩))⟩
  | data bytes =>
    unfold Sys.load
    dsimp only
    by_cases hget : s.getMbox id
    · have hopened := Sys.getMbox_opened hget
      have hfirst := Does.enterSend s p id bytes timeout hcall hget
      have hinv := h.does hfirst
      have hcall' : (s.setCall p (.sending id ⟨s.loads, p, bytes⟩ timeout s.kern.ticks s.now)).call p =
          .sending id ⟨s.loads, p, bytes⟩ timeout s.kern.ticks s.now := Sys.setCall_call _
      have hopened' : ((s.setMbox id { s.mbox id with inuse := (s.mbox id).inuse + 1 }).mbox id).state =
          .opened := by
        rw [Sys.setMbox_mbox]
        exact hopened
      have hloop := hinv.sendLoop_spec (Or.inl rfl) hcall' hopened'
      rw [show ({ s with loads := s.loads + 1 } : Sys).getMbox id = s.getMbox id from rfl, if_pos hget]
      refine hloop.done hfirst (Or.inl ⟨rfl, ?_⟩)
      exact h.not_stuck (c := .sending id ⟨s.loads, p, bytes⟩ timeout s.kern.ticks s.now) hplain.timeout _
    · rw [show ({ s with loads := s.loads + 1 } : Sys).getMbox id = s.getMbox id from rfl, if_neg hget]
      exact Or.inl ⟨_, _, rfl, rfl, Or.inl (.lost s p id timeout hcall)⟩

theorem Inv.prepare_spec (h : Inv .out s) {id : ℕ} {timeout : UInt32}
    (hcall : s.call p = .preparing id timeout) (size : Option ℕ) : Done s (some p) (s.prepare p id timeout size) := by
  have hplain : (s.call p).Plain := by
    rw [hcall]
    trivial
  have hinval : Steps s (.returned p .inval) (s.setCall p .idle) :=
    Or.inl (.plain s p .idle _ hplain trivial (Or.inr ⟨_, rfl⟩))
  unfold Sys.prepare
  cases size with
  | none => exact Or.inl ⟨_, _, rfl, rfl, hinval⟩
  | some size =>
    dsimp only
    by_cases hget : s.getMbox id
    · have hopened := Sys.getMbox_opened hget
      have hfirst := Does.enterRecv s p id size timeout hcall hget
      have hinv := h.does hfirst
      have hcall' : (s.setCall p (.receiving id size timeout s.kern.ticks s.now)).call p =
          .receiving id size timeout s.kern.ticks s.now := Sys.setCall_call _
      have hopened' : ((s.setMbox id { s.mbox id with inuse := (s.mbox id).inuse + 1 }).mbox id).state =
          .opened := by
        rw [Sys.setMbox_mbox]
        exact hopened
      have hloop := hinv.recvLoop_spec (Or.inl rfl) hcall' hopened'
      rw [if_pos hget]
      refine hloop.done hfirst (Or.inl ⟨rfl, ?_⟩)
      exact h.not_stuck (c := .receiving id size timeout s.kern.ticks s.now) hplain.timeout _
    · rw [if_neg hget]
      exact Or.inl ⟨_, _, rfl, rfl, hinval⟩

theorem Inv.copied_spec (h : Inv .out s) {id opening : ℕ} {msg : Msg}
    (hcall : s.call p = .holding id msg opening) (ok : Bool) : Done s (some p) (s.copied p id msg opening ok) := by
  unfold Sys.copied
  cases ok with
  | true => exact Or.inl ⟨_, _, rfl, rfl, Or.inl (.delivered s p id msg opening hcall)⟩
  | false =>
    rw [if_neg Bool.false_ne_true]
    by_cases hget : s.getMbox id
    · have hopened := Sys.getMbox_opened hget
      obtain ⟨k, hadd, hinv, hfirst⟩ := s.addMsg_spec h.procs.kern hopened msg false
      rw [if_pos hget, hadd]
      exact Or.inl ⟨_, _, rfl, rfl, Or.inl (.putBack s p id msg opening k hcall hopened hinv hfirst)⟩
    · rw [if_neg hget]
      exact Or.inl ⟨_, _, rfl, rfl, Or.inl (.discarded s p id msg opening hcall (by simpa using hget))⟩

theorem Inv.free_spec (h : Inv .out s) (hcall : s.call p = .idle) (id : ℕ) :
    Done s (some p) (s.ipcMboxFree p id) := by
  have hplain : (s.call p).Plain := by
    rw [hcall]
    trivial
  unfold Sys.ipcMboxFree
  by_cases hget : s.getMbox id
  · have hopened := Sys.getMbox_opened hget
    obtain ⟨k₁, hwake₁, hinv₁, hwoke₁⟩ := h.procs.kern.wakeupQueue_spec (id, .senders) WT_INTERRUPTED
    obtain ⟨k, hwake, hinv, hwoke⟩ := hinv₁.wakeupQueue_spec (id, .receivers) WT_INTERRUPTED
    have hqueues : k.queues (id, .senders) = [] ∧ k.queues (id, .receivers) = [] := by
      have hne : ((id, .senders) : ℕ × Side) ≠ (id, .receivers) := by simp
      rw [hwoke.queues, Function.update_self, Function.update_of_ne hne, hwoke₁.queues, Function.update_self]
      exact ⟨rfl, rfl⟩
    rw [if_pos hget]
    unfold Sys.wakeupQueue
    dsimp only
    rw [show (s.setMbox id { s.mbox id with state := .closing, msgs := [] }).kern = s.kern from rfl, hwake₁]
    simp only [orFault, Except.map, Except.bind]
    rw [hwake]
    simp only
    by_cases hzero : (s.mbox id).inuse = 0
    · rw [if_pos hzero]
      unfold Sys.mboxFree
      have hdoes := Does.freed s p id k₁ k hopened hinv₁ hinv hwoke₁ hwoke _ _
        (fun hne => absurd hzero hne) fun _ => ⟨rfl, rfl⟩
      refine Or.inl ⟨_, _, ?_, rfl, Or.inl hdoes⟩
      simp [Sys.setMbox, hzero, hqueues.1, hqueues.2]
    · rw [if_neg hzero]
      exact Or.inl ⟨_, _, rfl, rfl, Or.inl (.freed s p id k₁ k hopened hinv₁ hinv hwoke₁ hwoke _ _
        (fun _ => ⟨rfl, rfl⟩) fun hz => absurd hz hzero)⟩
  · rw [if_neg hget]
    refine Or.inl ⟨_, _, rfl, rfl, Or.inl ?_⟩
    have hdoes := Does.plain s p .idle (.returned p .inval) hplain trivial (Or.inr ⟨_, rfl⟩)
    rw [Sys.setCall_self _ hcall] at hdoes
    exact hdoes

/-- The end of `new_mbox`. -/
theorem openFirst_spec (hcall : s.call p = .idle) (maxSlots : ℕ) :
    Does .out s [(s.openFirst p maxSlots).1] .out (s.openFirst p maxSlots).2 := by
  unfold Sys.openFirst
  cases hfree : s.free with
  | nil =>
    exact .plain s p .idle _ (by rw [hcall]; trivial) trivial (Or.inr ⟨_, rfl⟩)
  | cons m rest =>
    have hdoes := Does.opened s p m maxSlots rest hcall hfree
    have hsame : (s.setMbox m { s.mbox m with state := .opened, maxSlots := maxSlots, opening := s.opens }).setCall
        p .idle = s.setMbox m { s.mbox m with state := .opened, maxSlots := maxSlots, opening := s.opens } :=
      Sys.setCall_self _ hcall
    dsimp only
    rw [hsame]
    exact hdoes

theorem Sys.openFirst_proc (p maxSlots : ℕ) : (s.openFirst p maxSlots).1.proc = some p := by
  unfold Sys.openFirst
  split <;> rfl

theorem Sys.ipcMboxInit_proc (p maxSlots : ℕ) : (s.ipcMboxInit p maxSlots).1.proc = some p := by
  unfold Sys.ipcMboxInit
  split
  · rfl
  · split
    · split <;> rfl
    · exact s.openFirst_proc p maxSlots

theorem Sys.map_proc (p maxSlots i : ℕ) (page : Bool) : (s.map p maxSlots i page).1.proc = some p := by
  unfold Sys.map
  dsimp only
  split
  · exact Sys.openFirst_proc p maxSlots
  · exact Sys.openFirst_proc p maxSlots

theorem Sys.missingPage_spec {i : ℕ} (h : s.missingPage = some i) : s.mapped i = false := by
  have hp := List.find?_some h
  simpa using hp

theorem Inv.init_spec (hcall : s.call p = .idle) (hsem : s.mapping = false) (maxSlots : ℕ) :
    Steps s (s.ipcMboxInit p maxSlots).1 (s.ipcMboxInit p maxSlots).2 := by
  have hrefused : ∀ r, Steps s (.returned p r) s := by
    intro r
    have hdoes := Does.plain s p .idle (.returned p r) (by rw [hcall]; trivial) trivial (Or.inr ⟨_, rfl⟩)
    rw [Sys.setCall_self _ hcall] at hdoes
    exact Or.inl hdoes
  unfold Sys.ipcMboxInit
  split
  · exact hrefused _
  · split
    · cases hpage : s.missingPage with
      | none => exact hrefused _
      | some i => exact Or.inl (.mapping s p maxSlots i hcall hsem (Sys.missingPage_spec hpage))
    · exact Or.inl (openFirst_spec hcall maxSlots)

theorem map_spec {maxSlots i : ℕ} (hcall : s.call p = .mapping maxSlots i) (page : Bool) :
    Steps s (s.map p maxSlots i page).1 (s.map p maxSlots i page).2 := by
  -- the call ends with the page; opening a mailbox leaves the process where it is
  have hopen : ∀ t : Sys, (t.openFirst p maxSlots) = ((t.setCall p .idle).openFirst p maxSlots) := by
    intro t
    unfold Sys.openFirst Sys.setCall Sys.setMbox
    cases hfree : t.free with
    | nil => simp
    | cons m rest => simp
  unfold Sys.map
  cases page with
  | true =>
    dsimp only
    rw [if_pos rfl, hopen]
    exact Or.inr ⟨.out, _, .mapped s p maxSlots i hcall, openFirst_spec (by exact Sys.setCall_call _) maxSlots⟩
  | false =>
    dsimp only
    rw [if_neg Bool.false_ne_true, hopen]
    exact Or.inr ⟨.out, _, .unmapped s p maxSlots i hcall, openFirst_spec (by exact Sys.setCall_call _) maxSlots⟩

theorem Inv.sleep_spec (h : Inv .out s) (hcall : s.call p = .idle) (time : UInt32) :
    Done s (some p) (s.doSleep p time) := by
  have hqueue : (s.call p).queue = none := by
    rw [hcall]
    rfl
  have hout := h.procs.untimed (p := p) (by rw [hcall]; rfl)
  unfold Sys.doSleep
  split
  · refine Or.inl ⟨_, _, rfl, rfl, Or.inl ?_⟩
    have hdoes := Does.plain s p .idle (.returned p .ok) (by rw [hcall]; trivial) trivial (Or.inr ⟨_, rfl⟩)
    rw [Sys.setCall_self _ hcall] at hdoes
    exact hdoes
  · rename_i hne
    obtain ⟨hinit, hdead, hexp⟩ := h.procs.kern.timerInit_spec hout time
    obtain ⟨hexp, hproc⟩ := hexp hne
    have hwait : (s.kern.ipcTimerInit p time).wait p = none := by
      rw [Kern.ipcTimerInit_wait]
      exact h.procs.no_wait hqueue
    have hdoze := hinit.doze hwait (by decide : WT_TIMER &&& WT_INTERRUPTED ≠ 0)
    have hout' : p ∉ (s.kern.ipcTimerInit p time).timers.list := by
      rw [Kern.ipcTimerInit_list]
      exact hout
    obtain ⟨k, hadd, hinv, harmed⟩ := hdoze.addTimer_spec (p := p) time hout'
      (Or.inl (by rw [Kern.setProc_self])) fun _ => ⟨by
        show (s.kern.ipcTimerInit p time).timers.expires p ≠ 0
        rw [hexp]
        exact hne, hproc⟩
    dsimp only
    rw [hadd]
    refine Or.inl ⟨_, _, rfl, rfl, Or.inl (.slept s p time k hcall hinv ?_ ?_ (fun q hq => ?_) ?_ ?_ ?_ hne)⟩
    · rw [harmed.wait]
      exact Kern.ipcTimerInit_wait time
    · rw [harmed.queues]
      exact Kern.ipcTimerInit_queues time
    · rw [harmed.procs, Kern.setProc_of_ne hq, Kern.ipcTimerInit_procs]
    · rw [harmed.ticks]
      exact Kern.ipcTimerInit_ticks time
    · rw [harmed.deadlines, if_pos hne]
      show Function.update (s.kern.ipcTimerInit p time).timers.deadlines p
        (some ((s.kern.ipcTimerInit p time).timers.expires p).toNat) = _
      rw [hdead, hexp]
    · rw [harmed.proc]
      show (s.kern.ipcTimerInit p time).timers.proc = _
      unfold Kern.ipcTimerInit
      rw [if_pos hne]
      rfl

/-- A send or a receive begins. -/
theorem begin_spec {c : Call} (hcall : s.call p = .idle) (hc : c.Plain) (id : ℕ) :
    Done s (some p) (.ok (if s.getMbox id then (.begun p, s.setCall p c) else (.returned p .inval, s))) := by
  have hplain : (s.call p).Plain := by
    rw [hcall]
    trivial
  split
  · exact Or.inl ⟨_, _, rfl, rfl, Or.inl (.plain s p c _ hplain hc (Or.inl rfl))⟩
  · have hdoes := Does.plain s p .idle (.returned p .inval) hplain trivial (Or.inr ⟨_, rfl⟩)
    rw [Sys.setCall_self _ hcall] at hdoes
    exact Or.inl ⟨_, _, rfl, rfl, Or.inl hdoes⟩

/-- **No assertion of the mailboxes fails.** -/
theorem Inv.step_spec (h : Inv .out s) {op : Op} (henabled : s.Enabled op) : Done s op.proc (s.step op) := by
  cases op with
  | init p maxSlots =>
    exact Or.inl ⟨_, _, rfl, s.ipcMboxInit_proc p maxSlots, Inv.init_spec henabled.2.1 henabled.2.2 maxSlots⟩
  | map p page =>
    obtain ⟨-, maxSlots, i, hcall⟩ := henabled
    unfold Sys.step
    dsimp only
    rw [hcall]
    exact Or.inl ⟨_, _, rfl, s.map_proc p maxSlots i page, map_spec hcall page⟩
  | send p id timeout => exact begin_spec (c := .loading id timeout) henabled.2 trivial id
  | load p loaded =>
    obtain ⟨-, ⟨id, timeout, hcall⟩, -⟩ := henabled
    unfold Sys.step
    dsimp only
    rw [hcall]
    exact h.load_spec hcall loaded
  | recv p id timeout => exact begin_spec (c := .preparing id timeout) henabled.2 trivial id
  | prepare p size =>
    obtain ⟨-, ⟨id, timeout, hcall⟩, -⟩ := henabled
    unfold Sys.step
    dsimp only
    rw [hcall]
    exact h.prepare_spec hcall size
  | resume p => exact h.resume_spec henabled.1 henabled.2
  | copy p ok =>
    obtain ⟨-, id, msg, opening, hcall⟩ := henabled
    unfold Sys.step
    dsimp only
    rw [hcall]
    exact h.copied_spec hcall ok
  | free p id => exact h.free_spec henabled.2 id
  | sleep p time => exact h.sleep_spec henabled.2 time
  | tick =>
    obtain ⟨k, htick, hinv, hticked⟩ := h.procs.kern.tick_spec
    unfold Sys.step
    dsimp only
    rw [htick]
    exact Or.inl ⟨_, _, rfl, rfl, Or.inl (.ticked s k hinv hticked)⟩
  | kill p =>
    obtain ⟨k, hkill, hinv, hkilled⟩ := h.procs.kern.kill_spec p
    unfold Sys.step
    dsimp only
    rw [hkill]
    exact Or.inl ⟨_, _, rfl, rfl, Or.inl (.killed s p k hinv hkilled)⟩

/-! ## Runs -/

theorem mboxInit_inv {k : Kern (ℕ × Side)} (hk : Waits.Quiet k) : Inv .out (Sys.mboxInit k) := by
  have hnone : ∀ m, ¬ Call.idle.Inside m := fun m => Call.not_inside rfl m
  refine ⟨⟨hk.inv, fun p w hw => ?_, nofun, nofun, fun p hp => ?_, fun p hp => absurd rfl hp⟩,
    ⟨fun m => ?_, fun m => ?_⟩, ⟨nofun, nofun, fun _ _ => ⟨rfl, rfl, rfl⟩⟩, ⟨List.nodup_nil, nofun, fun _ _ => rfl⟩,
    nofun, nofun⟩
  · exact absurd ((hk.wait p).symm.trans hw) nofun
  · replace hp : p ∈ k.timers.list := hp
    rw [hk.timers] at hp
    cases hp
  · have hempty : {p : ℕ | Call.idle.Inside m} = ∅ := Set.eq_empty_iff_forall_notMem.mpr fun _ => hnone m
    show {p : ℕ | Call.idle.Inside m}.Finite
    rw [hempty]
    exact Set.finite_empty
  · show 0 = occ (fun _ : ℕ => Call.idle) (Call.Inside m)
    have hempty : {p : ℕ | Call.idle.Inside m} = ∅ := Set.eq_empty_iff_forall_notMem.mpr fun _ => hnone m
    unfold occ
    rw [hempty, Set.ncard_empty]

theorem Inv.steps (h : Inv .out s) (hsteps : Steps s e s') : Inv .out s' := by
  rcases hsteps with hdoes | ⟨mid, s₁, hfirst, hsecond⟩
  · exact h.does hdoes
  · exact (h.does hfirst).does hsecond

/-- A step that does not fail is one action, or two. -/
theorem Inv.steps_of_step (h : Inv .out s) {op : Op} (henabled : s.Enabled op)
    (hstep : s.step op = .ok (e, s')) : Steps s e s' := by
  rcases h.step_spec henabled with ⟨e', s'', hstep', -, hsteps⟩ | ⟨hfail, -⟩
  · rw [hstep] at hstep'
    cases hstep'
    exact hsteps
  · rw [hstep] at hfail
    cases hfail

theorem Run.inv {s₀ : Sys} {tr : List Event} (h₀ : Inv .out s₀) (h : Run s₀ tr s) : Inv .out s := by
  induction h with
  | nil => exact h₀
  | cons op _ henabled hstep ih => exact ih.steps (ih.steps_of_step henabled hstep)

theorem RunIf.run {P : Sys → Op → Prop} {s₀ : Sys} {tr : List Event} (h : RunIf P s₀ tr s) : Run s₀ tr s := by
  induction h with
  | nil => exact .nil
  | cons op _ _ henabled hstep ih => exact ih.cons op henabled hstep

/-- The calls in which a process takes a step. -/
def Op.Allows : Op → Call → Prop
  | .init _ _, c | .send _ _ _, c | .recv _ _ _, c | .free _ _, c | .sleep _ _, c => c = .idle
  | .map _ _, c => ∃ maxSlots i, c = .mapping maxSlots i
  | .load _ _, c => ∃ id timeout, c = .loading id timeout
  | .prepare _ _, c => ∃ id timeout, c = .preparing id timeout
  | .resume _, c => c.Waits
  | .copy _ _, c => ∃ id msg opening, c = .holding id msg opening
  | .tick, _ | .kill _, _ => False

theorem Sys.Enabled.allows {op : Op} (h : s.Enabled op) (hproc : op.proc = some p) : op.Allows (s.call p) := by
  cases op with
  | init =>
    cases hproc
    exact h.2.1
  | send | recv | free | sleep | map | resume | copy =>
    cases hproc
    exact h.2
  | load | prepare =>
    cases hproc
    exact h.2.1
  | tick | kill => cases hproc

theorem Sys.enabled_load {bytes : List UInt8} (hrun : (s.kern.procs p).state = .runnable)
    (hcall : ∃ id timeout, s.call p = .loading id timeout)
    (hbytes : 0 < bytes.length ∧ bytes.length ≤ MAX_MSG_BYTES) : s.Enabled (.load p (.data bytes)) := by
  refine ⟨hrun, hcall, fun bytes' heq => ?_⟩
  cases heq
  exact hbytes

end Ucore.Mboxes
