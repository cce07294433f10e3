import Ucore.Sync.MboxInv

/-!
# Mailboxes: timeouts

A call that must wait again queues its timer again, and `add_timer` takes the ticks to wait from the
`expires` field, where the last `add_timer` and `run_timer_list` have left the distance to the timer ahead.

* `timed_calls` — no assertion of `add_timer` fails, and calls end on time, in the runs where every call
  that waits again has the first timer of the list.
* `rearmed_timer` — runs in which one has not: the assertion fails, or the call ends too soon.
-/

namespace Ucore.Mboxes

open Ksem (WT_INTERRUPTED)
open Waits (Kern Ret ipcCheckTimeout)
open Function (update update_eq_self update_of_ne update_self)

/-- When a call that can wait was made. -/
def Call.start : Call → ℕ
  | .sending _ _ _ _ start | .receiving _ _ _ _ start => start
  | _ => 0

/-- What `ipc_timer_init` has saved. -/
def Call.savedTicks : Call → UInt32
  | .sending _ _ _ savedTicks _ | .receiving _ _ _ savedTicks _ => savedTicks
  | _ => 0

/-- A call that waits: its timer runs out when its time is over, it sleeps only with the timer pending, and
nothing but the timer wakes it when it is not killed and the mailbox is open and has not woken it. -/
structure Waiting (s : Sys) (p : ℕ) (w : Waits.WaitT (ℕ × Side)) : Prop where
  pending : ∀ d, (s.call p).timeout ≠ 0 → s.kern.timers.deadlines p = some d →
    s.now + d = (s.call p).start + (s.call p).timeout.toNat
  ended : (s.call p).timeout ≠ 0 → s.kern.timers.deadlines p = none →
    (s.call p).start + (s.call p).timeout.toNat ≤ s.now
  armed : (s.call p).timeout ≠ 0 → (s.kern.procs p).state = .sleeping → s.kern.timers.deadlines p ≠ none
  timer : w.wakeupFlags = WT_INTERRUPTED → (s.kern.procs p).state = .runnable → (s.kern.procs p).exiting = false →
    (s.mbox w.queue.1).state = .opened → (s.call p).timeout ≠ 0 ∧ s.kern.timers.deadlines p = none

/-- The timer of a process that may have to wait has the ticks that are left. -/
def Rearm (mid : Mid) (s : Sys) : Prop :=
  ∀ p m side, mid = .entered p ∨ mid = .woken p → (s.call p).queue = some (m, side) → (s.call p).timeout ≠ 0 →
    (s.mbox m).state = .opened → s.Full m side →
    s.now + (s.kern.timers.expires p).toNat = (s.call p).start + (s.call p).timeout.toNat

/-- The clock of the kernel has gone as far as `now` since a call was made. -/
def Clock (s : Sys) : Prop :=
  ∀ p q, (s.call p).queue = some q → (s.call p).start ≤ s.now ∧
    s.kern.ticks = (s.call p).savedTicks + UInt32.ofNat (s.now - (s.call p).start)

/-- What holds of the calls that wait, and of the clock. -/
structure Timed (mid : Mid) (s : Sys) : Prop where
  waiting : ∀ p w, s.kern.wait p = some w → Waiting s p w
  rearm : Rearm mid s
  clock : Clock s

variable {s s' : Sys} {mid mid' : Mid} {es : List Event} {e : Event} {p m : ℕ} {side : Side} {k k' : Kern (ℕ × Side)}
  {c : Call} {op : Op}

/-- A process keeps its timer and its wait, unless the mailbox wakes it. -/
structure Calm (k k' : Kern (ℕ × Side)) (p : ℕ) : Prop where
  deadline : k'.timers.deadlines p = k.timers.deadlines p
  sleeping : (k'.procs p).state = .sleeping → (k.procs p).state = .sleeping
  wait : ∀ w, k'.wait p = some w → ∃ w₀, k.wait p = some w₀ ∧
    (w.wakeupFlags = WT_INTERRUPTED → w = w₀ ∧ k'.procs p = k.procs p)

theorem Calm.of_eq (hdead : k'.timers.deadlines p = k.timers.deadlines p) (hprocs : k'.procs p = k.procs p)
    (hwait : k'.wait p = k.wait p) : Calm k k' p :=
  ⟨hdead, fun h => by rw [← hprocs]; exact h, fun w hw => ⟨w, hwait.symm.trans hw, fun _ => ⟨rfl, hprocs⟩⟩⟩

/-- The first process of a queue is woken by the mailbox. -/
theorem First.calm (h : First k (m, side) side.flag k') (hinv : Waits.Inv k) (p : ℕ) : Calm k k' p := by
  rcases h with ⟨-, rfl⟩ | ⟨x, rest, hq, hwoke⟩
  · exact .of_eq rfl rfl rfl
  · by_cases hp : p = x
    · subst hp
      refine ⟨by rw [hwoke.timers], fun hsleep => ?_, fun w hw => ?_⟩
      · rw [hwoke.procs, update_self, Waits.Proc.rouse_state] at hsleep
        cases hsleep
      · have hqueued := hinv.queued (m, side) p (by simp [hq])
        rw [hwoke.wait, update_self] at hw
        cases hw
        exact ⟨_, hqueued, fun hflag => absurd hflag.symm (side_flag_ne side)⟩
    · refine .of_eq (by rw [hwoke.timers]) ?_ ?_
      · rw [hwoke.procs, update_of_ne hp]
      · rw [hwoke.wait, update_of_ne hp]

/-- A process that is left alone, or woken by the mailbox. -/
theorem Waiting.calm {w₀ w : Waits.WaitT (ℕ × Side)} (h : Waiting s p w₀) (hcalm : Calm s.kern s'.kern p)
    (hwait₀ : s.kern.wait p = some w₀) (hwait : s'.kern.wait p = some w) (hcall : s'.call p = s.call p)
    (hnow : s'.now = s.now) (hopened : (s'.mbox w₀.queue.1).state = .opened → (s.mbox w₀.queue.1).state = .opened) :
    Waiting s' p w := by
  refine ⟨fun d ht hd => ?_, fun ht hd => ?_, fun ht hsleep => ?_, fun hflag hrun hlive hop => ?_⟩
  · rw [hcalm.deadline] at hd
    rw [hcall] at ht ⊢
    rw [hnow]
    exact h.pending d ht hd
  · rw [hcalm.deadline] at hd
    rw [hcall] at ht ⊢
    rw [hnow]
    exact h.ended ht hd
  · rw [hcalm.deadline]
    rw [hcall] at ht
    exact h.armed ht (hcalm.sleeping hsleep)
  · obtain ⟨w₁, hw₁, hint⟩ := hcalm.wait w hwait
    obtain ⟨rfl, hprocs⟩ := hint hflag
    cases hwait₀.symm.trans hw₁
    rw [hprocs] at hrun hlive
    rw [hcalm.deadline, hcall]
    exact h.timer hflag hrun hlive (hopened hop)

/-- The processes other than the one that runs, and that one when it does not wait. -/
theorem Timed.frame (h : Timed mid s) (hcalm : ∀ q, q ≠ p → Calm s.kern s'.kern q) (hp : s'.kern.wait p = none)
    (hcall : ∀ q, q ≠ p → s'.call q = s.call q) (hnow : s'.now = s.now)
    (hopened : ∀ q w, s.kern.wait q = some w → (s'.mbox w.queue.1).state = .opened →
      (s.mbox w.queue.1).state = .opened) (q : ℕ) (w : Waits.WaitT (ℕ × Side)) (hw : s'.kern.wait q = some w) :
    Waiting s' q w := by
  have hqp : q ≠ p := by
    rintro rfl
    rw [hp] at hw
    cases hw
  obtain ⟨w₀, hw₀, -⟩ := (hcalm q hqp).wait w hw
  exact (h.waiting q w₀ hw₀).calm (hcalm q hqp) hw₀ hw (hcall q hqp) hnow (hopened q w₀ hw₀)

theorem Rearm.out (s : Sys) : Rearm .out s := by
  intro p m side hmid
  rcases hmid with hmid | hmid <;> cases hmid

/-- The clock stands, and a process may have a new call. -/
theorem Clock.frame (h : Clock s) (hcall : s'.call = update s.call p c) (hc : c.queue = none)
    (hnow : s'.now = s.now) (hticks : s'.kern.ticks = s.kern.ticks) : Clock s' := by
  intro r q hr
  rw [hcall] at hr ⊢
  by_cases hrp : r = p
  · rw [hrp, update_self, hc] at hr
    cases hr
  · rw [update_of_ne hrp] at hr ⊢
    rw [hnow, hticks]
    exact h r q hr

theorem Clock.same (h : Clock s) (hcall : s'.call = s.call) (hnow : s'.now = s.now)
    (hticks : s'.kern.ticks = s.kern.ticks) : Clock s' := by
  intro r q hr
  rw [hcall] at hr ⊢
  rw [hnow, hticks]
  exact h r q hr

/-- A process goes from where it does not wait to where it does not wait. -/
theorem Timed.recall (h : Timed mid s) (hcalm : ∀ q, q ≠ p → Calm s.kern s'.kern q) (hp : s'.kern.wait p = none)
    (hcall : s'.call = update s.call p c) (hc : c.queue = none) (hnow : s'.now = s.now)
    (hticks : s'.kern.ticks = s.kern.ticks)
    (hopened : ∀ q w, s.kern.wait q = some w → (s'.mbox w.queue.1).state = .opened →
      (s.mbox w.queue.1).state = .opened) : Timed .out s' := by
  refine ⟨h.frame hcalm hp (fun q hq => ?_) hnow hopened, Rearm.out s', h.clock.frame hcall hc hnow hticks⟩
  rw [hcall, update_of_ne hq]

/-- A tick of the clock. -/
theorem Timed.tick (h : Timed .out s) (hinv : Inv .out s) (hticked : Waits.Ticked s.kern k) :
    Timed .out { s with kern := k, now := s.now + 1 } := by
  refine ⟨fun p w hw => ?_, Rearm.out _, fun p q hq => ?_⟩
  · replace hw : k.wait p = some w := hw
    rw [hticked.roused.wait] at hw
    have hold := h.waiting p w hw
    have hdead : k.timers.deadlines p =
      (s.kern.timers.deadlines p).bind fun n => if n ≤ 1 then none else some (n - 1) := by
      rw [hticked.deadlines]
      rfl
    -- the deadline before the tick: none, the last tick, or later
    cases hd : s.kern.timers.deadlines p with
    | none =>
      have hnone : k.timers.deadlines p = none := by
        rw [hdead, hd]
        rfl
      have hsame : k.procs p = s.kern.procs p := by
        rw [hticked.procs, hd]
        exact if_neg nofun
      refine ⟨fun d ht hd' => ?_, fun ht _ => ?_, fun ht hsleep => ?_, fun hflag hrun hlive hop => ?_⟩
      · exact absurd (hnone.symm.trans hd') nofun
      · exact (hold.ended ht hd).trans (Nat.le_succ _)
      · replace hsleep : (k.procs p).state = .sleeping := hsleep
        rw [hsame] at hsleep
        exact absurd hd (hold.armed ht hsleep)
      · replace hrun : (k.procs p).state = .runnable := hrun
        replace hlive : (k.procs p).exiting = false := hlive
        rw [hsame] at hrun hlive
        exact ⟨(hold.timer hflag hrun hlive hop).1, hnone⟩
    | some d =>
      have hmem := Timers.mem_of_deadlines hd
      have hpos := hinv.procs.kern.timers.remaining_pos hmem.1
      rw [hmem.2] at hpos
      by_cases hone : d = 1
      · subst hone
        have hnone : k.timers.deadlines p = none := by
          rw [hdead, hd]
          rfl
        have hroused : k.procs p = (s.kern.procs p).rouse := by
          rw [hticked.procs]
          exact if_pos hd
        refine ⟨fun d ht hd' => ?_, fun ht _ => ?_, fun ht hsleep => ?_, fun _ _ _ _ => ?_⟩
        · exact absurd (hnone.symm.trans hd') nofun
        · exact (hold.pending 1 ht hd).ge
        · replace hsleep : (k.procs p).state = .sleeping := hsleep
          rw [hroused, Waits.Proc.rouse_state] at hsleep
          cases hsleep
        · exact ⟨hinv.procs.timed p hmem.1, hnone⟩
      · have hsome : k.timers.deadlines p = some (d - 1) := by
          rw [hdead, hd]
          exact if_neg (by omega)
        have hsame : k.procs p = s.kern.procs p := by
          rw [hticked.procs, hd]
          exact if_neg fun heq => hone (Option.some.inj heq)
        refine ⟨fun d' ht hd' => ?_, fun ht hd' => ?_, fun _ _ => ?_, fun hflag hrun hlive hop => ?_⟩
        · cases hsome.symm.trans hd'
          have hdue := hold.pending d ht hd
          show s.now + 1 + (d - 1) = (s.call p).start + (s.call p).timeout.toNat
          omega
        · exact absurd (hsome.symm.trans hd') nofun
        · show k.timers.deadlines p ≠ none
          rw [hsome]
          nofun
        · replace hrun : (k.procs p).state = .runnable := hrun
          replace hlive : (k.procs p).exiting = false := hlive
          rw [hsame] at hrun hlive
          exact absurd (hd.symm.trans (hold.timer hflag hrun hlive hop).2) nofun
  · obtain ⟨hstart, hticks⟩ := h.clock p q hq
    refine ⟨hstart.trans (Nat.le_succ _), ?_⟩
    show k.ticks = (s.call p).savedTicks + UInt32.ofNat (s.now + 1 - (s.call p).start)
    rw [hticked.ticks, hticks, Nat.succ_sub hstart, Nat.succ_eq_add_one, UInt32.ofNat_add, UInt32.add_assoc]
    rfl

/-- A process is killed. -/
theorem Timed.kill (h : Timed .out s) (hkilled : Waits.Killed s.kern p k) : Timed .out { s with kern := k } := by
  refine ⟨fun r w hw => ?_, Rearm.out _, h.clock.same rfl rfl hkilled.ticks⟩
  replace hw : k.wait r = some w := hw
  rw [hkilled.roused.wait] at hw
  have hold := h.waiting r w hw
  have hdead : k.timers.deadlines r = s.kern.timers.deadlines r := by
    rw [hkilled.timers]
  by_cases hrp : r = p
  · subst hrp
    refine ⟨fun d ht hd => ?_, fun ht hd => ?_, fun ht hsleep => ?_, fun _ _ hlive _ => ?_⟩
    · exact hold.pending d ht (hdead.symm.trans hd)
    · exact hold.ended ht (hdead.symm.trans hd)
    · show k.timers.deadlines r ≠ none
      rw [hdead]
      exact hold.armed ht (hkilled.roused.sleeping hsleep).1
    · exact absurd (hkilled.exiting.symm.trans hlive) nofun
  · refine hold.calm (.of_eq hdead (hkilled.frame r hrp) ?_) hw ?_ rfl rfl fun hop => hop
    · show k.wait r = s.kern.wait r
      rw [hkilled.roused.wait]
    · show k.wait r = some w
      rw [hkilled.roused.wait, hw]

/-- A process enters a mailbox, with all of its time left. -/
theorem Timed.enter (h : Timed .out s) (hinv : Inv .out s) {timeout : UInt32} {n : ℕ} (hplain : (s.call p).Plain)
    (htimeout : c.timeout = timeout) (hstart : c.start = s.now) (hsaved : c.savedTicks = s.kern.ticks) :
    Timed (.entered p) { s.enter p m timeout c with loads := n } := by
  have hwait := hinv.procs.no_wait hplain.queue
  have hout := hinv.procs.untimed hplain.timeout
  obtain ⟨-, hdead, hexp⟩ := hinv.procs.kern.timerInit_spec hout timeout
  have hkwait : (s.kern.ipcTimerInit p timeout).wait = s.kern.wait := Kern.ipcTimerInit_wait timeout
  have hkprocs : (s.kern.ipcTimerInit p timeout).procs = s.kern.procs := Kern.ipcTimerInit_procs timeout
  have hcallp : update s.call p c p = c := update_self ..
  refine ⟨h.frame (p := p) (fun q hq => ?_) ?_ (fun q hq => ?_) rfl fun q w _ hop => ?_, ?_, ?_⟩
  · exact .of_eq (congrFun hdead q) (congrFun hkprocs q) (congrFun hkwait q)
  · show (s.kern.ipcTimerInit p timeout).wait p = none
    rw [hkwait]
    exact hwait
  · exact update_of_ne hq ..
  · replace hop : (update s.mbox m _ w.queue.1).state = .opened := hop
    by_cases hm : w.queue.1 = m
    · rw [hm, update_self] at hop
      rw [hm]
      exact hop
    · rw [update_of_ne hm] at hop
      exact hop
  · intro r m' side hmid _ ht _ _
    have hrp : p = r := by
      rcases hmid with hmid | hmid <;> cases hmid
      rfl
    subst hrp
    replace ht : (update s.call p c p).timeout ≠ 0 := ht
    show s.now + ((s.kern.ipcTimerInit p timeout).timers.expires p).toNat =
      (update s.call p c p).start + (update s.call p c p).timeout.toNat
    rw [hcallp, htimeout] at ht
    rw [hcallp, hstart, htimeout, (hexp ht).1]
  · intro r q hq
    replace hq : (update s.call p c r).queue = some q := hq
    show (update s.call p c r).start ≤ s.now ∧ (s.kern.ipcTimerInit p timeout).ticks =
      (update s.call p c r).savedTicks + UInt32.ofNat (s.now - (update s.call p c r).start)
    rw [Kern.ipcTimerInit_ticks]
    by_cases hrp : r = p
    · rw [hrp, hcallp, hstart, hsaved, Nat.sub_self]
      exact ⟨Nat.le_refl _, (UInt32.add_zero _).symm⟩
    · rw [update_of_ne hrp] at hq ⊢
      exact h.clock r q hq

/-- A process goes to sleep. -/
theorem Timed.block (h : Timed mid s) (hmid : mid = .entered p ∨ mid = .woken p)
    (hcall : (s.call p).queue = some (m, side)) (hopened : (s.mbox m).state = .opened) (hfull : s.Full m side)
    (harmed : Waits.Armed (s.kern.waitCurrentSet (m, side) p side.flag) p (s.call p).timeout k) :
    Timed .out { s with kern := k } := by
  have hdead : ∀ r, r ≠ p → k.timers.deadlines r = s.kern.timers.deadlines r := by
    intro r hr
    rw [harmed.deadlines]
    split
    · exact update_of_ne hr ..
    · rfl
  have hprocs : k.procs = update s.kern.procs p
      { s.kern.procs p with state := .sleeping, waitState := side.flag } := harmed.procs
  have hwait : k.wait = update s.kern.wait p (some ⟨WT_INTERRUPTED, (m, side)⟩) := harmed.wait
  refine ⟨fun r w hw => ?_, Rearm.out _, h.clock.same rfl rfl harmed.ticks⟩
  replace hw : k.wait r = some w := hw
  by_cases hrp : r = p
  · subst hrp
    have hsome : (s.call r).timeout ≠ 0 → k.timers.deadlines r = some (s.kern.timers.expires r).toNat := by
      intro ht
      rw [harmed.deadlines, if_pos ht]
      exact update_self ..
    refine ⟨fun d ht hd => ?_, fun ht hd => ?_, fun ht _ => ?_, fun _ hrun _ _ => ?_⟩
    · cases (hsome ht).symm.trans hd
      exact h.rearm r m side hmid hcall ht hopened hfull
    · exact absurd ((hsome ht).symm.trans hd) nofun
    · show k.timers.deadlines r ≠ none
      rw [hsome ht]
      nofun
    · replace hrun : (k.procs r).state = .runnable := hrun
      rw [hprocs, update_self] at hrun
      cases hrun
  · rw [hwait, update_of_ne hrp] at hw
    refine (h.waiting r w hw).calm (.of_eq (hdead r hrp) ?_ ?_) hw ?_ rfl rfl fun hop => hop
    · rw [hprocs, update_of_ne hrp]
    · rw [hwait, update_of_ne hrp]
    · show k.wait r = some w
      rw [hwait, update_of_ne hrp, hw]

/-- A process runs again; if it may have to wait again, its timer has the ticks that are left. -/
theorem Timed.unwait (h : Timed .out s) (hmid : mid = .woken p ∨ mid = .stirred p) {w : Waits.WaitT (ℕ × Side)}
    (hwait : s.kern.wait p = some w) (hun : Waits.Unblocked s.kern (m, side) p k)
    (hfirst : ∀ m side, mid = .woken p → (s.call p).queue = some (m, side) → (s.call p).timeout ≠ 0 →
      (s.mbox m).state = .opened → s.Full m side →
      s.kern.timers.deadlines p = some (s.kern.timers.expires p).toNat) : Timed mid { s with kern := k } := by
  refine ⟨h.frame (p := p) (fun q hq => ?_) ?_ (fun _ _ => rfl) rfl fun _ _ _ hop => hop, ?_,
    h.clock.same rfl rfl hun.ticks⟩
  · refine .of_eq ?_ (congrFun hun.procs q) ?_
    · show k.timers.deadlines q = _
      rw [hun.deadlines, update_of_ne hq]
    · show k.wait q = _
      rw [hun.wait, update_of_ne hq]
  · show k.wait p = none
    rw [hun.wait, update_self]
  · intro r m' side' hmid' hq ht hopened hfull
    have hwoken : mid = .woken r := by
      rcases hmid' with hmid' | hmid'
      · rcases hmid with rfl | rfl <;> cases hmid'
      · exact hmid'
    have hrp : r = p := by
      rcases hmid with rfl | rfl
      · cases hwoken
        rfl
      · cases hwoken
    subst hrp
    have hpending := hfirst m' side' hwoken hq ht hopened hfull
    show s.now + (k.timers.expires r).toNat = _
    rw [hun.expires]
    exact (h.waiting r w hwait).pending _ ht hpending

/-- A process leaves a mailbox, or puts a message into one, and the first process of a queue is woken. -/
theorem Timed.change (h : Timed mid s) (hinv : Inv mid s) (side : Side) {box : Mbox} (hp : s.kern.wait p = none)
    (hfirst : First s.kern (m, side) side.flag k) (hbox : box.state = (s.mbox m).state) (hc : c.queue = none) :
    Timed .out { (s.setMbox m box).setCall p c with kern := k } := by
  have hticks : k.ticks = s.kern.ticks := by
    rcases hfirst with ⟨-, rfl⟩ | ⟨x, rest, hq, hwoke⟩
    · rfl
    · exact hwoke.ticks
  have hp' : k.wait p = none := by
    cases hw : k.wait p with
    | none => rfl
    | some w =>
      obtain ⟨w₀, hw₀, -⟩ := (hfirst.calm hinv.procs.kern p).wait w hw
      exact absurd (hp.symm.trans hw₀) nofun
  refine h.recall (p := p) (fun q _ => hfirst.calm hinv.procs.kern q) hp' rfl hc rfl hticks fun q w _ hop => ?_
  replace hop : (update s.mbox m box w.queue.1).state = .opened := hop
  by_cases hm : w.queue.1 = m
  · rw [hm, update_self, hbox] at hop
    rw [hm]
    exact hop
  · rw [update_of_ne hm] at hop
    exact hop

/-- A process gives up. -/
theorem Timed.leave (h : Timed mid s) (hp : s.kern.wait p = none) : Timed .out ((s.left m).setCall p .idle) := by
  have hkern : (s.left m).kern = s.kern := by
    unfold Sys.left
    split <;> rfl
  have hnow : (s.left m).now = s.now := by
    unfold Sys.left
    split <;> rfl
  have hcall : (s.left m).call = s.call := by
    unfold Sys.left
    split <;> rfl
  refine h.recall (p := p) (c := .idle) (fun q _ => .of_eq ?_ ?_ ?_) ?_ ?_ rfl hnow ?_ fun q w _ hop => ?_
  · show (s.left m).kern.timers.deadlines q = _
    rw [hkern]
  · show (s.left m).kern.procs q = _
    rw [hkern]
  · show (s.left m).kern.wait q = _
    rw [hkern]
  · show (s.left m).kern.wait p = none
    rw [hkern]
    exact hp
  · show update (s.left m).call p .idle = _
    rw [hcall]
  · show (s.left m).kern.ticks = _
    rw [hkern]
  · replace hop : ((s.left m).mbox w.queue.1).state = .opened := hop
    unfold Sys.left at hop
    by_cases hm : w.queue.1 = m
    · rw [hm] at hop ⊢
      split at hop
      · replace hop : (update s.mbox m _ m).state = .opened := hop
        rw [update_self] at hop
        cases hop
      · rw [Sys.setMbox_mbox] at hop
        exact hop
    · split at hop
      · replace hop : (update s.mbox m _ w.queue.1).state = .opened := hop
        rw [update_of_ne hm] at hop
        exact hop
      · replace hop : (update s.mbox m _ w.queue.1).state = .opened := hop
        rw [update_of_ne hm] at hop
        exact hop

/-- The waiting processes of a mailbox are interrupted, and it is no longer open. -/
theorem Timed.free (h : Timed .out s) (hinv : Inv .out s) {k₁ : Kern (ℕ × Side)} {box : Mbox} {free : List ℕ}
    (hk₁ : Waits.Inv k₁) (hsenders : Waits.WokeAll s.kern (m, .senders) WT_INTERRUPTED k₁)
    (hreceivers : Waits.WokeAll k₁ (m, .receivers) WT_INTERRUPTED k) (hbox : box.state ≠ .opened) :
    Timed .out { s.setMbox m box with kern := k, free := free } := by
  have hticks : k.ticks = s.kern.ticks := hreceivers.ticks.trans hsenders.ticks
  have hdead : k.timers.deadlines = s.kern.timers.deadlines := by
    rw [hreceivers.timers, hsenders.timers]
  have hwait : ∀ r, k.wait r = s.kern.wait r := by
    intro r
    rw [interrupted_wait hk₁ hreceivers, interrupted_wait hinv.procs.kern hsenders]
  -- a process is woken only from the queues of the mailbox
  have hprocs : ∀ r, k.procs r = s.kern.procs r ∨ k.procs r = (s.kern.procs r).rouse := by
    intro r
    have hfirst : k₁.procs r = s.kern.procs r ∨ k₁.procs r = (s.kern.procs r).rouse := by
      by_cases hr : r ∈ s.kern.queues (m, .senders)
      · exact Or.inr (hsenders.woken r hr).2
      · exact Or.inl (hsenders.frame r hr).2
    by_cases hr : r ∈ k₁.queues (m, .receivers)
    · right
      rw [(hreceivers.woken r hr).2]
      rcases hfirst with hsame | hroused
      · rw [hsame]
      · rw [hroused]
        exact Waits.Proc.rouse_of_runnable (Waits.Proc.rouse_state _)
    · rw [(hreceivers.frame r hr).2]
      exact hfirst
  have hframe : ∀ r w, s.kern.wait r = some w → w.queue.1 ≠ m → k.procs r = s.kern.procs r := by
    intro r w hw hne
    have hsend : r ∉ s.kern.queues (m, .senders) := by
      intro hr
      cases hw.symm.trans (hinv.procs.kern.queued _ r hr)
      exact hne rfl
    have hrecv : r ∉ k₁.queues (m, .receivers) := by
      intro hr
      have hqueued := hk₁.queued _ r hr
      rw [interrupted_wait hinv.procs.kern hsenders] at hqueued
      cases hw.symm.trans hqueued
      exact hne rfl
    rw [(hreceivers.frame r hrecv).2, (hsenders.frame r hsend).2]
  refine ⟨fun r w hw => ?_, Rearm.out _, h.clock.same rfl rfl hticks⟩
  replace hw : k.wait r = some w := hw
  rw [hwait] at hw
  have hold := h.waiting r w hw
  refine ⟨fun d ht hd => ?_, fun ht hd => ?_, fun ht hsleep => ?_, fun hflag hrun hlive hop => ?_⟩
  · exact hold.pending d ht ((congrFun hdead r).symm.trans hd)
  · exact hold.ended ht ((congrFun hdead r).symm.trans hd)
  · show k.timers.deadlines r ≠ none
    replace hsleep : (k.procs r).state = .sleeping := hsleep
    rw [hdead]
    rcases hprocs r with hsame | hroused
    · rw [hsame] at hsleep
      exact hold.armed ht hsleep
    · rw [hroused, Waits.Proc.rouse_state] at hsleep
      cases hsleep
  · replace hop : (update s.mbox m box w.queue.1).state = .opened := hop
    by_cases hm : w.queue.1 = m
    · rw [hm, update_self] at hop
      exact absurd hop hbox
    · rw [update_of_ne hm] at hop
      replace hrun : (k.procs r).state = .runnable := hrun
      replace hlive : (k.procs r).exiting = false := hlive
      rw [hframe r w hw hm] at hrun hlive
      show _ ∧ k.timers.deadlines r = none
      rw [hdead]
      exact hold.timer hflag hrun hlive hop

/-- **Every action keeps the timers in step with the calls**, if a process that has to wait again has the first
timer of the list. -/
theorem Timed.does (h : Timed mid s) (hinv : Inv mid s) (hdoes : Does mid s es mid' s')
    (hfirst : ∀ p m side, mid' = .woken p → (s.call p).queue = some (m, side) → (s.call p).timeout ≠ 0 →
      (s.mbox m).state = .opened → s.Full m side →
      s.kern.timers.deadlines p = some (s.kern.timers.expires p).toNat) : Timed mid' s' := by
  have hcalm : ∀ q, Calm s.kern s.kern q := fun q => .of_eq rfl rfl rfl
  -- a process that is nowhere in a queue does not wait
  have hnone : ∀ {p}, (s.call p).queue = none → s.kern.wait p = none := fun hq => hinv.procs.no_wait hq
  cases hdoes with
  | ticked _ k hk hticked => exact h.tick hinv hticked
  | killed _ p k hk hkilled => exact h.kill hkilled
  | plain _ p c e hold hnew he =>
    exact h.recall (p := p) (fun q _ => hcalm q) (hnone hold.queue) rfl hnew.queue rfl rfl fun _ _ _ hop => hop
  | slept _ p time k hcall hk hwait hqueues hprocs hticks hdead hproc htime =>
    refine h.recall (p := p) (fun q hq => .of_eq ?_ (hprocs q hq) (congrFun hwait q)) ?_ rfl rfl rfl hticks
      fun _ _ _ hop => hop
    · show k.timers.deadlines q = _
      rw [hdead, update_of_ne hq]
    · show k.wait p = none
      rw [hwait]
      exact hnone (by rw [hcall]; rfl)
  | arose _ p time k hcall hk hdis =>
    refine h.recall (p := p) (fun q hq => .of_eq ?_ (congrFun hdis.procs q) (congrFun hdis.wait q)) ?_ rfl rfl rfl
      hdis.ticks fun _ _ _ hop => hop
    · show k.timers.deadlines q = _
      rw [hdis.deadlines, update_of_ne hq]
    · show k.wait p = none
      rw [hdis.wait]
      exact hnone (by rw [hcall]; rfl)
  | mapping _ p maxSlots i hcall | unmapped _ p maxSlots i hcall =>
    exact h.recall (p := p) (fun q _ => hcalm q) (hnone (by rw [hcall]; rfl)) rfl rfl rfl rfl fun _ _ _ hop => hop
  | mapped _ p maxSlots i hcall =>
    refine h.recall (p := p) (fun q _ => hcalm q) (hnone (by rw [hcall]; rfl)) rfl rfl rfl rfl fun q w _ hop => ?_
    replace hop : (if w.queue.1 / MBOX_P_PAGE = i then Mbox.fresh else s.mbox w.queue.1).state = .opened := hop
    split at hop
    · cases hop
    · exact hop
  | opened _ p m maxSlots rest hcall hfree =>
    refine h.recall (p := p) (c := .idle) (fun q _ => hcalm q) (hnone (by rw [hcall]; rfl)) ?_ rfl rfl rfl
      fun q w hw hop => ?_
    · rw [← hcall]
      exact (update_eq_self p s.call).symm
    · replace hop : (update s.mbox m _ w.queue.1).state = .opened := hop
      by_cases hm : w.queue.1 = m
      · -- no process waits at a mailbox that was closed
        have hclosed := (hinv.frees.free m (by simp [hfree])).1
        have hpos := hinv.inuse_pos ⟨w.queue.2, (hinv.procs.waits q w hw).1⟩
        rw [hm, (hinv.boxes.closed m hclosed).2.2] at hpos
        exact absurd hpos (Nat.lt_irrefl 0)
      · rw [update_of_ne hm] at hop
        exact hop
  | enterSend _ p m bytes timeout hcall hget => exact h.enter hinv (by rw [hcall]; trivial) rfl rfl rfl
  | enterRecv _ p m size timeout hcall hget =>
    exact h.enter hinv (m := m) (n := s.loads) (c := .receiving m size timeout s.kern.ticks s.now)
      (by rw [hcall]; trivial) rfl rfl rfl
  | unwait _ p m side f k _ hrun hwait hmid hk hun =>
    refine h.unwait ?_ hwait hun fun m side => hfirst p m side
    rw [hmid]
    split
    · exact Or.inl rfl
    · exact Or.inr rfl
  | block _ p m side _ k hmid hcall hopened hfull hk harmed => exact h.block hmid hcall hopened hfull harmed
  | sent _ p m msg timeout savedTicks start _ k hmid hcall hopened hroom hk hfirst' =>
    have hproc : mid.proc = some p := by
      rcases hmid with rfl | rfl <;> rfl
    exact h.change hinv .receivers (hinv.procs.awake p hproc).1 hfirst' rfl rfl
  | picked _ p m size msg rest timeout savedTicks start _ k hmid hcall hopened hmsgs hk hfirst' =>
    have hproc : mid.proc = some p := by
      rcases hmid with rfl | rfl <;> rfl
    exact h.change hinv .senders (hinv.procs.awake p hproc).1 hfirst' rfl rfl
  | tooBig _ p m size timeout savedTicks start _ k hmid hcall hopened hk hfirst' =>
    have hproc : mid.proc = some p := by
      rcases hmid with rfl | rfl <;> rfl
    exact h.change hinv .receivers (hinv.procs.awake p hproc).1 hfirst' rfl rfl
  | failedSend _ p m msg timeout savedTicks start _ hmid hcall =>
    have hproc : mid.proc = some p := by
      rcases hmid with rfl | ⟨rfl, -⟩ <;> rfl
    exact h.leave (hinv.procs.awake p hproc).1
  | failedRecv _ p m size timeout savedTicks start _ hmid hcall =>
    have hproc : mid.proc = some p := by
      rcases hmid with rfl | ⟨rfl, -⟩ <;> rfl
    exact h.leave (hinv.procs.awake p hproc).1
  | lost _ p id timeout hcall | delivered _ p id msg opening hcall | discarded _ p id msg opening hcall hgone =>
    exact h.recall (p := p) (fun q _ => hcalm q) (hnone (by rw [hcall]; rfl)) rfl rfl rfl rfl fun _ _ _ hop => hop
  | putBack _ p id msg opening k hcall hopened hk hfirst' =>
    exact h.change hinv .receivers (hnone (by rw [hcall]; rfl)) hfirst' rfl rfl
  | freed _ p m k₁ k hopened hk₁ hk hsenders hreceivers box free hclosing hclosed =>
    refine h.free hinv hk₁ hsenders hreceivers ?_
    by_cases hzero : (s.mbox m).inuse = 0
    · rw [(hclosed hzero).1]
      nofun
    · rw [(hclosing hzero).1]
      nofun

/-! ## Runs -/

/-- A timed call that runs again in an open mailbox: when it must wait again, its timer is the first of
`timer_list`; when something else than the mailbox has woken it, fewer than 2^32 ticks have passed. -/
def Punctual (s : Sys) : Op → Prop
  | .resume p => ∀ w m side, s.kern.wait p = some w → (s.call p).queue = some (m, side) → (s.call p).timeout ≠ 0 →
    (s.mbox m).state = .opened →
    (w.wakeupFlags = side.flag → s.Full m side → s.kern.timers.list.head? = some p) ∧
    (w.wakeupFlags ≠ side.flag → s.now - (s.call p).start < 2 ^ 32)
  | _ => True

/-- The first timer has all of its ticks in its own field. -/
theorem deadlines_head {t : Timers} (h : t.list.head? = some p) : t.deadlines p = some (t.expires p).toNat := by
  cases hlist : t.list with
  | nil =>
    rw [hlist] at h
    cases h
  | cons x rest =>
    rw [hlist] at h
    cases h
    have hmem : p ∈ t.list := by
      rw [hlist]
      exact List.mem_cons_self
    rw [Timers.deadlines_of_mem hmem]
    unfold Timers.remaining
    rw [hlist, Timers.sumTo_cons_self]

/-- A process in a mailbox only goes on with its call. -/
theorem Sys.Enabled.resume_of_queue (h : s.Enabled op) (hproc : op.proc = some p) {q : ℕ × Side}
    (hcall : (s.call p).queue = some q) : op = .resume p := by
  have hallows := h.allows hproc
  cases op with
  | resume =>
    cases hproc
    rfl
  | init | send | recv | free | sleep =>
    rw [show s.call p = .idle from hallows] at hcall
    cases hcall
  | map | load | prepare =>
    obtain ⟨_, _, hc⟩ := hallows
    rw [hc] at hcall
    cases hcall
  | copy =>
    obtain ⟨_, _, _, hc⟩ := hallows
    rw [hc] at hcall
    cases hcall
  | tick | kill => exact hallows.elim

theorem Does.woken_proc (h : Does (.woken p) s [e] mid' s') : e.proc = some p := by
  cases h with
  | block _ _ _ _ _ _ hmid | sent _ _ _ _ _ _ _ _ _ hmid | picked _ _ _ _ _ _ _ _ _ _ _ hmid
  | tooBig _ _ _ _ _ _ _ _ _ hmid =>
    rcases hmid with hmid | hmid <;> cases hmid
    rfl
  | failedSend _ _ _ _ _ _ _ _ hmid | failedRecv _ _ _ _ _ _ _ _ hmid =>
    rcases hmid with hmid | ⟨hmid, -⟩ <;> cases hmid
    rfl

/-- A process that the mailbox has woken goes on with its call. -/
theorem Does.woken_wait (h : Does .out s [] (.woken p) s') :
    ∃ m side, s.kern.wait p = some ⟨side.flag, (m, side)⟩ ∧ s'.call = s.call ∧ s'.mbox = s.mbox ∧
      s'.kern.timers.expires p = s.kern.timers.expires p := by
  cases h with
  | unwait _ q m side f k _ hrun hwait hmid hk hun =>
    split at hmid
    · rename_i hf
      cases hmid
      rw [hf] at hwait
      exact ⟨m, side, hwait, rfl, rfl, hun.expires⟩
    · cases hmid

/-- The timer of a process that the mailbox has woken, and that must wait again. -/
theorem Punctual.first (h : Punctual s (.resume p)) (hinv : Inv .out s) (hdoes : Does .out s [] (.woken p) s')
    {m : ℕ} {side : Side} (hcall : (s.call p).queue = some (m, side)) (ht : (s.call p).timeout ≠ 0)
    (hopened : (s.mbox m).state = .opened) (hfull : s.Full m side) :
    s.kern.timers.deadlines p = some (s.kern.timers.expires p).toNat := by
  obtain ⟨m', side', hwait, -⟩ := hdoes.woken_wait
  have hqueue := (hinv.procs.waits p _ hwait).1
  cases hcall.symm.trans hqueue
  exact deadlines_head ((h _ _ _ hwait hcall ht hopened).1 rfl hfull)

theorem Timed.step (h : Timed .out s) (hinv : Inv .out s) (hmeets : Punctual s op) (henabled : s.Enabled op)
    (hstep : s.step op = .ok (e, s')) : Timed .out s' := by
  rcases hinv.step_spec henabled with ⟨e', s'', hstep', hproc, hsteps⟩ | ⟨hfail, -⟩
  · rw [hstep] at hstep'
    cases hstep'
    rcases hsteps with hdoes | ⟨mid, s₁, hfirst, hsecond⟩
    · exact h.does hinv hdoes nofun
    · refine (h.does hinv hfirst fun p m side hmid hcall ht hopened hfull => ?_).does (hinv.does hfirst) hsecond nofun
      subst hmid
      have hop := henabled.resume_of_queue (hproc.symm.trans hsecond.woken_proc) hcall
      subst hop
      exact hmeets.first hinv hfirst hcall ht hopened hfull
  · rw [hstep] at hfail
    cases hfail

theorem mboxInit_timed {k : Kern (ℕ × Side)} (hk : Waits.Quiet k) : Timed .out (Sys.mboxInit k) := by
  refine ⟨fun p w hw => ?_, Rearm.out _, fun p q hq => ?_⟩
  · exact absurd ((hk.wait p).symm.trans hw) nofun
  · cases hq

theorem RunIf.timed {k : Kern (ℕ × Side)} {tr : List Event} (hk : Waits.Quiet k)
    (h : RunIf Punctual (Sys.mboxInit k) tr s) : Timed .out s := by
  induction h with
  | nil => exact mboxInit_timed hk
  | cons op hrun hmeets henabled hstep ih =>
    exact ih.step (hrun.run.inv (mboxInit_inv hk)) hmeets henabled hstep

/-- The call has sent its message, picked one, or found one that its buffer cannot hold. -/
def Event.Satisfied (p : ℕ) (e : Event) : Prop :=
  (∃ n, e = .sent p n ∨ e = .picked p n) ∨ e = .returned p .tooBig

/-- The call has given up, with what `ipc_check_timeout` returns. -/
def Event.GaveUp (p : ℕ) (r : Ret) (e : Event) : Prop :=
  (∃ n, e = .failed p n (.wait r)) ∨ e = .returned p (.wait r)

/-- The mailbox is open, and has woken the process. -/
theorem Does.woken_event (h : Does (.woken p) s [e] mid' s') (hcall : (s.call p).queue = some (m, side))
    (hopened : (s.mbox m).state = .opened) : e.Satisfied p ∨ e = .waiting p := by
  cases h with
  | block _ _ _ _ _ _ hmid =>
    rcases hmid with hmid | hmid <;> cases hmid
    exact Or.inr rfl
  | sent _ _ _ msg _ _ _ _ _ hmid =>
    rcases hmid with hmid | hmid <;> cases hmid
    exact Or.inl (Or.inl ⟨msg.num, Or.inl rfl⟩)
  | picked _ _ _ _ msg _ _ _ _ _ _ hmid =>
    rcases hmid with hmid | hmid <;> cases hmid
    exact Or.inl (Or.inl ⟨msg.num, Or.inr rfl⟩)
  | tooBig _ _ _ _ _ _ _ _ _ hmid =>
    rcases hmid with hmid | hmid <;> cases hmid
    exact Or.inl (Or.inr rfl)
  | failedSend _ _ _ _ _ _ _ _ hmid hc =>
    rcases hmid with hmid | ⟨hmid, hshut⟩ <;> cases hmid
    rw [hc] at hcall
    cases hcall
    exact absurd hopened hshut
  | failedRecv _ _ _ _ _ _ _ _ hmid hc =>
    rcases hmid with hmid | ⟨hmid, hshut⟩ <;> cases hmid
    rw [hc] at hcall
    cases hcall
    exact absurd hopened hshut

theorem Goes.event {r : Except Fault (Event × Sys)} (h : Goes (.woken p) s p r) (hr : r = .ok (e, s'))
    (hcall : (s.call p).queue = some (m, side)) (hopened : (s.mbox m).state = .opened) :
    e.Satisfied p ∨ e = .waiting p := by
  rcases h with ⟨e', s'', hok, -, hdoes⟩ | ⟨hfail, -⟩
  · rw [hr] at hok
    cases hok
    exact hdoes.woken_event hcall hopened
  · rw [hr] at hfail
    cases hfail

theorem Inv.unwait_ticks (h : Inv .out s) (m : ℕ) (side : Side) :
    (s.unwait p m side (s.call p).timeout).kern.ticks = s.kern.ticks := by
  obtain ⟨-, hdis⟩ := h.procs.kern.delTimer_spec (p := p) (s.call p).timeout fun hzero => h.procs.untimed hzero
  exact hdis.ticks

/-- What `send_msg` comes to after a sleep, in an open mailbox. -/
theorem Inv.resumeSend_event (h : Inv .out s) (hrun : (s.kern.procs p).state = .runnable)
    {w : Waits.WaitT (ℕ × Side)} {msg : Msg} {timeout savedTicks : UInt32} {start : ℕ} (hw : s.kern.wait p = some w)
    (hcall : s.call p = .sending m msg timeout savedTicks start) (hopened : (s.mbox m).state = .opened)
    (hstep : s.resumeSend p m msg timeout savedTicks w.wakeupFlags = .ok (e, s')) :
    w.wakeupFlags = WT_MBOX_SEND ∧ (e.Satisfied p ∨ e = .waiting p) ∨
      w.wakeupFlags = WT_INTERRUPTED ∧ e.GaveUp p (ipcCheckTimeout timeout savedTicks s.kern.ticks) := by
  have hqueue : (s.call p).queue = some (m, .senders) := by
    rw [hcall]
    rfl
  have htimeout : (s.call p).timeout = timeout := by
    rw [hcall]
    rfl
  obtain ⟨hun, hflags⟩ := h.unwait_spec hrun hqueue hw
  have hticks := h.unwait_ticks (p := p) m .senders
  rw [htimeout] at hun hticks
  have hopened' : ((s.unwait p m .senders timeout).mbox m).state = .opened := hopened
  unfold Sys.resumeSend at hstep
  dsimp only at hstep
  rcases hflags with hflag | hflag
  · have hne : WT_INTERRUPTED ≠ WT_MBOX_SEND := side_flag_ne .senders
    rw [hflag, if_pos (Or.inr hne), if_neg hne, Sys.leave_of_opened hopened'] at hstep
    simp only [Except.bind, if_true] at hstep
    cases hstep
    refine Or.inr ⟨hflag, Or.inl ⟨msg.num, ?_⟩⟩
    rw [← hticks]
    rfl
  · have hwoken : (if w.wakeupFlags = Side.senders.flag then Mid.woken p else .stirred p) = .woken p := if_pos hflag
    rw [hwoken] at hun
    have hloop := (h.does hun).sendLoop_spec (Or.inr rfl) hcall hopened'
    rw [if_neg (by rw [not_or, not_not, not_not]; exact ⟨hopened', hflag⟩)] at hstep
    exact Or.inl ⟨hflag, hloop.event hstep hqueue hopened'⟩

/-- What `recv_msg` comes to after a sleep, in an open mailbox. -/
theorem Inv.resumeRecv_event (h : Inv .out s) (hrun : (s.kern.procs p).state = .runnable)
    {w : Waits.WaitT (ℕ × Side)} {size : ℕ} {timeout savedTicks : UInt32} {start : ℕ} (hw : s.kern.wait p = some w)
    (hcall : s.call p = .receiving m size timeout savedTicks start) (hopened : (s.mbox m).state = .opened)
    (hstep : s.resumeRecv p m size timeout savedTicks w.wakeupFlags = .ok (e, s')) :
    w.wakeupFlags = WT_MBOX_RECV ∧ (e.Satisfied p ∨ e = .waiting p) ∨
      w.wakeupFlags = WT_INTERRUPTED ∧ e.GaveUp p (ipcCheckTimeout timeout savedTicks s.kern.ticks) := by
  have hqueue : (s.call p).queue = some (m, .receivers) := by
    rw [hcall]
    rfl
  have htimeout : (s.call p).timeout = timeout := by
    rw [hcall]
    rfl
  obtain ⟨hun, hflags⟩ := h.unwait_spec hrun hqueue hw
  have hticks := h.unwait_ticks (p := p) m .receivers
  rw [htimeout] at hun hticks
  have hopened' : ((s.unwait p m .receivers timeout).mbox m).state = .opened := hopened
  unfold Sys.resumeRecv at hstep
  dsimp only at hstep
  rcases hflags with hflag | hflag
  · have hne : WT_INTERRUPTED ≠ WT_MBOX_RECV := side_flag_ne .receivers
    rw [hflag, if_pos (Or.inr hne), Sys.leave_of_opened hopened'] at hstep
    cases hstep
    refine Or.inr ⟨hflag, Or.inr ?_⟩
    rw [← hticks]
    rfl
  · have hwoken : (if w.wakeupFlags = Side.receivers.flag then Mid.woken p else .stirred p) = .woken p := if_pos hflag
    rw [hwoken] at hun
    have hloop := (h.does hun).recvLoop_spec (Or.inr rfl) hcall hopened'
    rw [if_neg (by rw [not_or, not_not, not_not]; exact ⟨hopened', hflag⟩)] at hstep
    exact Or.inl ⟨hflag, hloop.event hstep hqueue hopened'⟩

/-- What a call comes to after a sleep, in an open mailbox: the mailbox has woken its process, or it gives up. -/
theorem Inv.resume_event (h : Inv .out s) (hrun : (s.kern.procs p).state = .runnable)
    {w : Waits.WaitT (ℕ × Side)} (hw : s.kern.wait p = some w) (hqueue : (s.call p).queue = some (m, side))
    (hopened : (s.mbox m).state = .opened) (hstep : s.step (.resume p) = .ok (e, s')) :
    w.wakeupFlags = side.flag ∧ (e.Satisfied p ∨ e = .waiting p) ∨
      w.wakeupFlags = WT_INTERRUPTED ∧
        e.GaveUp p (ipcCheckTimeout (s.call p).timeout (s.call p).savedTicks s.kern.ticks) := by
  replace hstep : s.resume p = .ok (e, s') := hstep
  unfold Sys.resume at hstep
  rw [hw] at hstep
  cases hcall : s.call p with
  | sending m' msg timeout savedTicks start =>
    rw [hcall] at hqueue hstep
    cases hqueue
    exact h.resumeSend_event hrun hw hcall hopened hstep
  | receiving m' size timeout savedTicks start =>
    rw [hcall] at hqueue hstep
    cases hqueue
    exact h.resumeRecv_event hrun hw hcall hopened hstep
  | idle | loading | preparing | holding | mapping | sleeping =>
    rw [hcall] at hqueue
    cases hqueue

/-- `ipc_check_timeout` sees that the time of a call is over. -/
theorem Clock.check_timeout (h : Clock s) {q : ℕ × Side} (hcall : (s.call p).queue = some q)
    (ht : (s.call p).timeout ≠ 0) (hover : (s.call p).start + (s.call p).timeout.toNat ≤ s.now)
    (hwrap : s.now - (s.call p).start < 2 ^ 32) :
    ipcCheckTimeout (s.call p).timeout (s.call p).savedTicks s.kern.ticks = .timeout := by
  obtain ⟨-, hticks⟩ := h p q hcall
  have hsince : s.kern.ticks - (s.call p).savedTicks = UInt32.ofNat (s.now - (s.call p).start) := by
    rw [hticks, UInt32.add_comm, UInt32.add_sub_cancel]
  have hle : (s.call p).timeout ≤ s.kern.ticks - (s.call p).savedTicks := by
    rw [hsince, UInt32.le_iff_toNat_le, UInt32.toNat_ofNat_of_lt' hwrap]
    omega
  unfold ipcCheckTimeout
  exact if_pos ⟨ht, hle⟩

/-- Timers in a state: the next step does not fail `add_timer`; a call whose time is over is awake; and a call
whose process has not been killed, in an open mailbox, is satisfied, waits on, or gives up with
`-E_TIMEOUT` when its time is over. -/
structure OnTime (s : Sys) : Prop where
  timer : ∀ op, s.Enabled op → Punctual s op → s.step op ≠ .error .timer
  awake : ∀ p q, (s.call p).queue = some q → (s.call p).timeout ≠ 0 →
    (s.call p).start + (s.call p).timeout.toNat ≤ s.now → (s.kern.procs p).state = .runnable
  ended : ∀ p m side e s', s.Enabled (.resume p) → Punctual s (.resume p) → (s.call p).queue = some (m, side) →
    (s.call p).timeout ≠ 0 → (s.kern.procs p).exiting = false → (s.mbox m).state = .opened →
    s.step (.resume p) = .ok (e, s') →
    e.Satisfied p ∨ e = .waiting p ∨ e.GaveUp p .timeout ∧ (s.call p).start + (s.call p).timeout.toNat ≤ s.now

/-- **Timed calls end on time.**  In every run whose timed calls, when they must wait again, have the first timer of
`timer_list`, and run again within 2^32 ticks: the assertion of `add_timer` does not fail; a call is awake when
its time is over; and a call that is neither satisfied nor killed, in a mailbox that is not closed, gives up
with `-E_TIMEOUT`, and not before its time is over. -/
theorem timed_calls {k : Kern (ℕ × Side)} {tr : List Event} (hk : Waits.Quiet k)
    (hrun : RunIf Punctual (Sys.mboxInit k) tr s) : OnTime s := by
  have hinv := hrun.run.inv (mboxInit_inv hk)
  have htimed := hrun.timed hk
  refine ⟨fun op henabled hmeets hstep => ?_, fun p q hq ht hover => ?_,
    fun p m side e s' henabled hmeets hq ht hlive hopened hstep => ?_⟩
  · rcases hinv.step_spec henabled with
      ⟨e, s', hok, -⟩ | ⟨-, p, s₁, hproc, hdoes, ht, hzero, m, side, hq, hopened, hfull⟩
    · rw [hstep] at hok
      cases hok
    · obtain ⟨-, -, -, hcall, hmbox, hexp⟩ := hdoes.woken_wait
      rw [hcall] at ht hq
      have hop := henabled.resume_of_queue hproc hq
      subst hop
      have hfull' : s.Full m side := by
        cases side with
        | senders =>
          replace hfull : (s₁.mbox m).maxSlots ≤ (s₁.mbox m).slots := hfull
          rw [hmbox] at hfull
          exact hfull
        | receivers =>
          replace hfull : (s₁.mbox m).slots = 0 := hfull
          rw [hmbox] at hfull
          exact hfull
      rw [hmbox] at hopened
      have hfirst := hmeets.first hinv hdoes hq ht hopened hfull'
      -- a pending timer has something to wait
      obtain ⟨hmem, hrem⟩ := Timers.mem_of_deadlines hfirst
      have hpos := hinv.procs.kern.timers.remaining_pos hmem
      rw [hrem, ← hexp, hzero] at hpos
      exact absurd hpos (Nat.lt_irrefl 0)
  · cases hw : s.kern.wait p with
    | none => exact absurd (hinv.procs.queued p q hq hw) nofun
    | some w =>
      have hwaiting := htimed.waiting p w hw
      rcases hinv.procs.kern.blocked p w hw with hrunnable | ⟨hsleep, -⟩
      · exact hrunnable
      · cases hd : s.kern.timers.deadlines p with
        | none => exact absurd hd (hwaiting.armed ht hsleep)
        | some d =>
          have hpending := hwaiting.pending d ht hd
          obtain ⟨hmem, hrem⟩ := Timers.mem_of_deadlines hd
          have hpos := hinv.procs.kern.timers.remaining_pos hmem
          omega
  · cases hw : s.kern.wait p with
    | none => exact absurd (hinv.procs.queued p _ hq hw) nofun
    | some w =>
      have hwaiting := htimed.waiting p w hw
      have hqueue : w.queue = (m, side) := by
        have hwq := (hinv.procs.waits p w hw).1
        rw [hq] at hwq
        exact (Option.some.inj hwq).symm
      rcases hinv.resume_event henabled.1 hw hq hopened hstep with ⟨-, hsat | hwait⟩ | ⟨hflag, hgave⟩
      · exact Or.inl hsat
      · exact Or.inr (Or.inl hwait)
      · obtain ⟨-, hnone⟩ := hwaiting.timer hflag henabled.1 hlive (by rw [hqueue]; exact hopened)
        have hover := hwaiting.ended ht hnone
        have hwrap := (hmeets w m side hw hq ht hopened).2 (by rw [hflag]; exact side_flag_ne side)
        rw [htimed.clock.check_timeout hq ht hover hwrap] at hgave
        exact Or.inr (Or.inr ⟨hgave, hover⟩)

/-- Process 1 waits two ticks for a message; process 2 takes the one that comes, process 1 waits again, and its
time is over. -/
theorem timed_calls_again : ∃ tr s, RunIf Punctual (Sys.mboxInit (Kern.boot (ℕ × Side))) tr s ∧
    .waiting 1 ∈ tr ∧ (s.call 1).timeout = 2 ∧ s.now = 2 ∧ OnTime s := by
  have h₁ := (@RunIf.nil Punctual (Sys.mboxInit (Kern.boot (ℕ × Side)))).cons (.init 1 1) trivial ⟨rfl, rfl, rfl⟩ rfl
  have h₂ := h₁.cons (.map 1 true) trivial ⟨rfl, _, _, rfl⟩ rfl
  have h₃ := h₂.cons (.recv 1 0 2) trivial ⟨rfl, rfl⟩ rfl
  have h₄ := h₃.cons (.prepare 1 (some 8)) trivial ⟨rfl, ⟨_, _, rfl⟩, nofun⟩ rfl
  have h₅ := h₄.cons (.send 3 0 0) trivial ⟨rfl, rfl⟩ rfl
  have h₆ := h₅.cons (.load 3 (.data [7])) trivial (Sys.enabled_load rfl ⟨_, _, rfl⟩ (by decide)) rfl
  have h₇ := h₆.cons (.recv 2 0 0) trivial ⟨rfl, rfl⟩ rfl
  have h₈ := h₇.cons (.prepare 2 (some 8)) trivial ⟨rfl, ⟨_, _, rfl⟩, nofun⟩ rfl
  have h₉ := h₈.cons (.resume 1) (fun _ _ _ _ _ _ _ => ⟨fun _ _ => rfl, fun _ => by decide⟩) ⟨rfl, trivial⟩ rfl
  have h₁₀ := h₉.cons .tick trivial trivial rfl
  have h₁₁ := h₁₀.cons .tick trivial trivial rfl
  exact ⟨_, _, h₁₁, by simp, rfl, rfl, timed_calls (Kern.boot_quiet _) h₁₁⟩

/-- Process 2 takes the message that process 1 was woken for.  When the timer of process 1 has run out by then,
`add_timer` fails; when it is behind that of a sleeping process, process 1 waits only for the distance
between the two, and its call fails after two of its five ticks. -/
theorem rearmed_timer :
    (∃ tr s, Run (Sys.mboxInit (Kern.boot (ℕ × Side))) tr s ∧ s.Enabled (.resume 1) ∧
      s.step (.resume 1) = .error .timer) ∧
    ∃ tr s s', Run (Sys.mboxInit (Kern.boot (ℕ × Side))) tr s ∧ s.Enabled (.resume 1) ∧ (s.call 1).timeout = 5 ∧
      (s.kern.procs 1).exiting = false ∧ (s.mbox 0).state = .opened ∧ (s.call 1).start = 0 ∧ s.now = 2 ∧
      s.step (.resume 1) = .ok (.returned 1 (.wait .failed), s') := by
  constructor
  · have h₁ := (@Run.nil (Sys.mboxInit (Kern.boot (ℕ × Side)))).cons (.init 1 1) ⟨rfl, rfl, rfl⟩ rfl
    have h₂ := h₁.cons (.map 1 true) ⟨rfl, _, _, rfl⟩ rfl
    have h₃ := h₂.cons (.recv 1 0 1) ⟨rfl, rfl⟩ rfl
    have h₄ := h₃.cons (.prepare 1 (some 8)) ⟨rfl, ⟨_, _, rfl⟩, nofun⟩ rfl
    have h₅ := h₄.cons (.send 3 0 0) ⟨rfl, rfl⟩ rfl
    have h₆ := h₅.cons (.load 3 (.data [7])) (Sys.enabled_load rfl ⟨_, _, rfl⟩ (by decide)) rfl
    have h₇ := h₆.cons .tick trivial rfl
    have h₈ := h₇.cons (.recv 2 0 0) ⟨rfl, rfl⟩ rfl
    have h₉ := h₈.cons (.prepare 2 (some 8)) ⟨rfl, ⟨_, _, rfl⟩, nofun⟩ rfl
    exact ⟨_, _, h₉, ⟨rfl, trivial⟩, rfl⟩
  · have h₁ := (@Run.nil (Sys.mboxInit (Kern.boot (ℕ × Side)))).cons (.init 1 1) ⟨rfl, rfl, rfl⟩ rfl
    have h₂ := h₁.cons (.map 1 true) ⟨rfl, _, _, rfl⟩ rfl
    have h₃ := h₂.cons (.sleep 4 3) ⟨rfl, rfl⟩ rfl
    have h₄ := h₃.cons (.recv 1 0 5) ⟨rfl, rfl⟩ rfl
    have h₅ := h₄.cons (.prepare 1 (some 8)) ⟨rfl, ⟨_, _, rfl⟩, nofun⟩ rfl
    have h₆ := h₅.cons (.send 3 0 0) ⟨rfl, rfl⟩ rfl
    have h₇ := h₆.cons (.load 3 (.data [7])) (Sys.enabled_load rfl ⟨_, _, rfl⟩ (by decide)) rfl
    have h₈ := h₇.cons (.recv 2 0 0) ⟨rfl, rfl⟩ rfl
    have h₉ := h₈.cons (.prepare 2 (some 8)) ⟨rfl, ⟨_, _, rfl⟩, nofun⟩ rfl
    have h₁₀ := h₉.cons (.resume 1) ⟨rfl, trivial⟩ rfl
    have h₁₁ := h₁₀.cons .tick trivial rfl
    have h₁₂ := h₁₁.cons .tick trivial rfl
    exact ⟨_, _, _, h₁₂, ⟨rfl, trivial⟩, rfl, rfl, rfl, rfl, rfl, rfl⟩

end Ucore.Mboxes
