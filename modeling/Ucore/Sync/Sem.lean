import Mathlib.Algebra.BigOperators.Group.Finset.Basic
import Mathlib.Data.UInt
import Ucore.Lib.Count

/-!
# Kernel semaphores

Reference model of `sem_init`, `up`, `down` and `try_down` of `kern/sync/sem.c`, with the wait queue
of `kern/sync/wait.c` and `wakeup_proc` of `kern/schedule/sched.c`.

A process that blocks in `down` leaves the processor in `schedule()` with its `wait_t` on its stack;
what `down` does after that is a call of its own, `resume`, which the scheduler may make at any time
once the process is runnable.  A failed assertion is `none`.

* `Inv.step_spec` — no assertion fails, and every call keeps the invariant.
* `semaphore_permits` — permits are conserved and handed out in the order of blocking.
-/

namespace Ucore.Ksem

open Occurrence

def WT_INTERRUPTED : UInt32 := 0x80000000

def WT_KSEM : UInt32 := 0x00000100

/-- `enum proc_state`. -/
inductive ProcState where
  | uninit
  | sleeping
  | runnable
  | zombie
  deriving DecidableEq, Repr

/-- What the semaphore touches of a `proc_struct`; `wait` is the `wakeup_flags` of the `wait_t` on the
stack of a process that has called `schedule()` in `__down`. -/
structure Proc where
  state : ProcState
  waitState : UInt32
  wait : Option UInt32
  deriving DecidableEq, Repr

/-- `semaphore_t`; a `wait_t` in the queue is represented by its process. -/
structure Sem where
  value : Int
  valid : Bool
  waitQueue : List ℕ
  procs : ℕ → Proc

/-- The value of an `int`. -/
def int32 (n : Int) : Int := (n + 2 ^ 31) % 2 ^ 32 - 2 ^ 31

/-- `sem_init`. -/
def semInit (value : Int) (procs : ℕ → Proc) : Sem := ⟨value, true, [], procs⟩

variable (s : Sem)

def Sem.setProc (p : ℕ) (x : Proc) : Sem := { s with procs := Function.update s.procs p x }

/-- `wakeup_proc`. -/
def Sem.wakeupProc (p : ℕ) : Option Sem :=
  let x := s.procs p
  if x.state = .zombie then none
  else if x.state = .runnable then some s
  else some (s.setProc p { x with state := .runnable, waitState := 0 })

/-- `wakeup_wait`, with `del`. -/
def Sem.wakeupWait (p : ℕ) (wakeupFlags : UInt32) : Option Sem :=
  if p ∈ s.waitQueue then
    let s := { s with waitQueue := s.waitQueue.erase p }
    (s.setProc p { s.procs p with wait := some wakeupFlags }).wakeupProc p
  else none

/-- `wait_current_set`. -/
def Sem.waitCurrentSet (p : ℕ) (waitState : UInt32) : Sem :=
  { s.setProc p ⟨.sleeping, waitState, some WT_INTERRUPTED⟩ with waitQueue := s.waitQueue ++ [p] }

/-- What a call has done: it took a permit, blocked or found none; it stored a permit or handed it to
a process; a blocked `down` went on. -/
inductive Event where
  | took (p : ℕ)
  | blocked (p : ℕ)
  | refused (p : ℕ)
  | stored (p : ℕ)
  | handed (p w : ℕ)
  | resumed (p : ℕ)
  deriving DecidableEq, Repr

/-- `up`. -/
def Sem.up (p : ℕ) : Option (Event × Sem) :=
  if s.valid then
    match s.waitQueue with
    | [] => some (.stored p, { s with value := int32 (s.value + 1) })
    | w :: _ =>
      if (s.procs w).waitState = WT_KSEM then
        (s.wakeupWait w WT_KSEM).map fun s => (.handed p w, s)
      else none
  else none

/-- `down`, up to the call of `schedule()`. -/
def Sem.down (p : ℕ) : Option (Event × Sem) :=
  if s.valid then
    if s.value > 0 then some (.took p, { s with value := int32 (s.value - 1) })
    else some (.blocked p, s.waitCurrentSet p WT_KSEM)
  else none

/-- The rest of `down` after `schedule()`; `flags` is `wait->wakeup_flags`. -/
def Sem.resume (p : ℕ) (flags : UInt32) : Option (Event × Sem) :=
  let s := { s with waitQueue := s.waitQueue.erase p }
  let s := s.setProc p { s.procs p with wait := none }
  if flags = WT_KSEM then some (.resumed p, s) else none

/-- `try_down`. -/
def Sem.tryDown (p : ℕ) : Event × Sem :=
  if s.value > 0 then (.took p, { s with value := int32 (s.value - 1) }) else (.refused p, s)

/-- A call by a process. -/
inductive Op where
  | down (p : ℕ)
  | tryDown (p : ℕ)
  | up (p : ℕ)
  | resume (p : ℕ)
  deriving DecidableEq, Repr

/-- The process can run, and is where it makes the call. -/
def Sem.Enabled : Op → Prop
  | .down p | .tryDown p | .up p => (s.procs p).wait = none
  | .resume p => (s.procs p).wait ≠ none ∧ (s.procs p).state = .runnable

/-- One call. -/
def Sem.step : Op → Option (Event × Sem)
  | .down p => s.down p
  | .tryDown p => some (s.tryDown p)
  | .up p => s.up p
  | .resume p => (s.procs p).wait.bind (s.resume p)

/-- Any number of calls, with what they have done, the last one first. -/
inductive Run (s₀ : Sem) : List Event → Sem → Prop
  | nil : Run s₀ [] s₀
  | cons {tr : List Event} {s s' : Sem} {e : Event} (op : Op) (hrun : Run s₀ tr s)
      (henabled : s.Enabled op) (hstep : s.step op = some (e, s')) : Run s₀ (e :: tr) s'

/-! ## What has happened -/

/-- Permits released. -/
def ups : List Event → ℕ
  | [] => 0
  | .stored _ :: tr | .handed _ _ :: tr => ups tr + 1
  | _ :: tr => ups tr

/-- Permits taken by a `down` that has returned or by a `try_down`. -/
def takes : List Event → ℕ
  | [] => 0
  | .took _ :: tr | .resumed _ :: tr => takes tr + 1
  | _ :: tr => takes tr

/-- The processes that blocked, in order. -/
def blocked : List Event → List ℕ
  | [] => []
  | .blocked p :: tr => blocked tr ++ [p]
  | _ :: tr => blocked tr

/-- The processes that were handed a permit, in order. -/
def handed : List Event → List ℕ
  | [] => []
  | .handed _ w :: tr => handed tr ++ [w]
  | _ :: tr => handed tr

/-- The processes whose blocked `down` has returned, in order. -/
def resumed : List Event → List ℕ
  | [] => []
  | .resumed p :: tr => resumed tr ++ [p]
  | _ :: tr => resumed tr

/-- Permits that the process has taken and not released. -/
def balance (p : ℕ) : List Event → Int
  | [] => 0
  | .took q :: tr | .resumed q :: tr => balance p tr + if q = p then 1 else 0
  | .stored q :: tr | .handed q _ :: tr => balance p tr - if q = p then 1 else 0
  | _ :: tr => balance p tr

/-- Every `up` is by a process that has a permit. -/
def Matched : List Event → Prop
  | [] => True
  | .stored p :: tr | .handed p _ :: tr => 1 ≤ balance p tr ∧ Matched tr
  | _ :: tr => Matched tr

/-- The processes that were handed a permit and have not gone on. -/
noncomputable def pending (s : Sem) : ℕ := occ s.procs fun x => x.wait = some WT_KSEM

/-! ## The invariant -/

/-- What holds between two calls. -/
structure Inv (s : Sem) : Prop where
  valid : s.valid = true
  exclusive : 0 < s.value → s.waitQueue = []
  nodup : s.waitQueue.Nodup
  queued : ∀ p, p ∈ s.waitQueue ↔ (s.procs p).wait = some WT_INTERRUPTED
  asleep : ∀ p ∈ s.waitQueue, (s.procs p).state = .sleeping ∧ (s.procs p).waitState = WT_KSEM
  flags : ∀ p f, (s.procs p).wait = some f → f = WT_INTERRUPTED ∨ f = WT_KSEM
  awake : ∀ p, (s.procs p).wait = some WT_KSEM → (s.procs p).state = .runnable
  finite : {p | (s.procs p).wait = some WT_KSEM}.Finite

/-- Everything a call can do. -/
inductive Does (s : Sem) : Event → Sem → Prop
  | took (p : ℕ) (hpos : 0 < s.value) : Does s (.took p) { s with value := int32 (s.value - 1) }
  | blocked (p : ℕ) (hzero : s.value ≤ 0) (hwait : (s.procs p).wait = none) :
      Does s (.blocked p) (s.waitCurrentSet p WT_KSEM)
  | refused (p : ℕ) : Does s (.refused p) s
  | stored (p : ℕ) (hempty : s.waitQueue = []) :
      Does s (.stored p) { s with value := int32 (s.value + 1) }
  | handed (p w : ℕ) (rest : List ℕ) (hqueue : s.waitQueue = w :: rest) :
      Does s (.handed p w)
        { s.setProc w ⟨.runnable, 0, some WT_KSEM⟩ with waitQueue := rest }
  | resumed (p : ℕ) (hwait : (s.procs p).wait = some WT_KSEM) :
      Does s (.resumed p) (s.setProc p { s.procs p with wait := none })

variable {s} {s' : Sem} {e : Event}

theorem flags_ne : WT_INTERRUPTED ≠ WT_KSEM := by decide

theorem Inv.down_spec (h : Inv s) {p : ℕ} (hwait : (s.procs p).wait = none) :
    ∃ e s', s.down p = some (e, s') ∧ Does s e s' := by
  unfold Sem.down
  rw [if_pos h.valid]
  split
  · rename_i hpos
    exact ⟨_, _, rfl, .took p hpos⟩
  · rename_i hpos
    exact ⟨_, _, rfl, .blocked p (by omega) hwait⟩

theorem Sem.tryDown_spec (s : Sem) (p : ℕ) : Does s (s.tryDown p).1 (s.tryDown p).2 := by
  unfold Sem.tryDown
  split
  · rename_i hpos
    exact .took p hpos
  · exact .refused p

theorem Inv.up_spec (h : Inv s) (p : ℕ) : ∃ e s', s.up p = some (e, s') ∧ Does s e s' := by
  unfold Sem.up
  rw [if_pos h.valid]
  cases hq : s.waitQueue with
  | nil =>
    have hdoes := Does.stored (s := s) p hq
    rw [hq] at hdoes
    exact ⟨_, _, rfl, hdoes⟩
  | cons w rest =>
    have hw : w ∈ s.waitQueue := by simp [hq]
    obtain ⟨hsleep, hstate⟩ := h.asleep w hw
    refine ⟨.handed p w, _, ?_, .handed p w rest hq⟩
    -- the first process sleeps on this semaphore, so it can be woken
    simp [hstate, Sem.wakeupWait, hq, Sem.wakeupProc, Sem.setProc, hsleep]

theorem Inv.resume_spec (h : Inv s) {p : ℕ} (hwait : (s.procs p).wait ≠ none)
    (hrun : (s.procs p).state = .runnable) :
    ∃ e s', (s.procs p).wait.bind (s.resume p) = some (e, s') ∧ Does s e s' := by
  obtain ⟨f, hf⟩ := Option.ne_none_iff_exists'.mp hwait
  have hout : p ∉ s.waitQueue := by
    intro hp
    rw [(h.asleep p hp).1] at hrun
    cases hrun
  have hflag : f = WT_KSEM := by
    rcases h.flags p f hf with rfl | hk
    · exact absurd ((h.queued p).mpr hf) hout
    · exact hk
  subst hflag
  refine ⟨.resumed p, _, ?_, .resumed p hf⟩
  simp [hf, Sem.resume, List.erase_of_not_mem hout]

/-- **No assertion fails.** -/
theorem Inv.step_spec (h : Inv s) {op : Op} (henabled : s.Enabled op) :
    ∃ e s', s.step op = some (e, s') ∧ Does s e s' := by
  cases op with
  | down p => exact h.down_spec henabled
  | tryDown p => exact ⟨_, _, rfl, s.tryDown_spec p⟩
  | up p => exact h.up_spec p
  | resume p => exact h.resume_spec henabled.1 henabled.2

theorem Sem.setProc_self (p : ℕ) (x : Proc) : (s.setProc p x).procs p = x := Function.update_self ..

theorem Sem.setProc_of_ne {p q : ℕ} (hne : q ≠ p) (x : Proc) :
    (s.setProc p x).procs q = s.procs q := Function.update_of_ne hne ..

theorem Inv.block (h : Inv s) {p : ℕ} (hzero : s.value ≤ 0) (hwait : (s.procs p).wait = none) :
    Inv (s.waitCurrentSet p WT_KSEM) := by
  have hout : p ∉ s.waitQueue := by
    rw [h.queued, hwait]
    exact nofun
  have hself : (s.waitCurrentSet p WT_KSEM).procs p = ⟨.sleeping, WT_KSEM, some WT_INTERRUPTED⟩ :=
    Sem.setProc_self p _
  have hother : ∀ q, q ≠ p → (s.waitCurrentSet p WT_KSEM).procs q = s.procs q :=
    fun q hq => Sem.setProc_of_ne hq _
  have hqueue : (s.waitCurrentSet p WT_KSEM).waitQueue = s.waitQueue ++ [p] := rfl
  refine ⟨h.valid, fun hpos => absurd hpos (by show ¬ 0 < s.value; omega), ?_, fun q => ?_,
    fun q hq => ?_, fun q f hf => ?_, fun q hq => ?_, ?_⟩
  · rw [hqueue, List.nodup_append]
    refine ⟨h.nodup, by simp, fun a ha b hb => ?_⟩
    rw [List.mem_singleton.mp hb]
    exact fun hap => hout (hap ▸ ha)
  · rw [hqueue, List.mem_append, List.mem_singleton]
    by_cases hqp : q = p
    · subst hqp
      rw [hself]
      simp
    · rw [hother q hqp, ← h.queued q]
      simp [hqp]
  · by_cases hqp : q = p
    · subst hqp
      rw [hself]
      exact ⟨rfl, rfl⟩
    · rw [hother q hqp]
      rw [hqueue, List.mem_append, List.mem_singleton] at hq
      exact h.asleep q (hq.resolve_right hqp)
  · by_cases hqp : q = p
    · subst hqp
      rw [hself] at hf
      cases hf
      exact Or.inl rfl
    · rw [hother q hqp] at hf
      exact h.flags q f hf
  · by_cases hqp : q = p
    · subst hqp
      rw [hself] at hq
      exact absurd (Option.some.inj hq) flags_ne
    · rw [hother q hqp] at hq ⊢
      exact h.awake q hq
  · exact finite_update (P := fun x : Proc => x.wait = some WT_KSEM) p _ h.finite

theorem Inv.hand (h : Inv s) {w : ℕ} {rest : List ℕ} (hqueue : s.waitQueue = w :: rest) :
    Inv { s.setProc w ⟨.runnable, 0, some WT_KSEM⟩ with waitQueue := rest } := by
  have hnodup := h.nodup
  rw [hqueue, List.nodup_cons] at hnodup
  have hmem : ∀ q, q ∈ s.waitQueue ↔ q = w ∨ q ∈ rest := by
    intro q
    rw [hqueue, List.mem_cons]
  have hne : ∀ q ∈ rest, q ≠ w := fun q hq hqw => hnodup.1 (hqw ▸ hq)
  refine ⟨h.valid, fun hpos => ?_, hnodup.2, fun q => ?_, fun q hq => ?_, fun q f hf => ?_,
    fun q hq => ?_, ?_⟩
  · have hempty := h.exclusive hpos
    rw [hqueue] at hempty
    cases hempty
  · show q ∈ rest ↔ ((s.setProc w _).procs q).wait = _
    by_cases hqw : q = w
    · subst hqw
      rw [Sem.setProc_self]
      refine ⟨fun hq => absurd hq hnodup.1, fun hq => ?_⟩
      exact absurd (Option.some.inj hq).symm flags_ne
    · rw [Sem.setProc_of_ne hqw, ← h.queued q, hmem]
      simp [hqw]
  · show ((s.setProc w _).procs q).state = _ ∧ ((s.setProc w _).procs q).waitState = _
    rw [Sem.setProc_of_ne (hne q hq)]
    exact h.asleep q ((hmem q).mpr (Or.inr hq))
  · have hf : ((s.setProc w ⟨.runnable, 0, some WT_KSEM⟩).procs q).wait = some f := hf
    by_cases hqw : q = w
    · subst hqw
      rw [Sem.setProc_self] at hf
      exact Or.inr (Option.some.inj hf).symm
    · rw [Sem.setProc_of_ne hqw] at hf
      exact h.flags q f hf
  · have hq : ((s.setProc w ⟨.runnable, 0, some WT_KSEM⟩).procs q).wait = some WT_KSEM := hq
    show ((s.setProc w _).procs q).state = _
    by_cases hqw : q = w
    · subst hqw
      rw [Sem.setProc_self]
    · rw [Sem.setProc_of_ne hqw] at hq ⊢
      exact h.awake q hq
  · exact finite_update (P := fun x : Proc => x.wait = some WT_KSEM) w _ h.finite

theorem Inv.goOn (h : Inv s) {p : ℕ} (hwait : (s.procs p).wait = some WT_KSEM) :
    Inv (s.setProc p { s.procs p with wait := none }) := by
  have hout : p ∉ s.waitQueue := by
    rw [h.queued, hwait]
    exact fun hp => flags_ne (Option.some.inj hp).symm
  have hself := Sem.setProc_self (s := s) p { s.procs p with wait := none }
  have hother : ∀ q, q ≠ p → (s.setProc p { s.procs p with wait := none }).procs q = s.procs q :=
    fun q hq => Sem.setProc_of_ne hq _
  refine ⟨h.valid, h.exclusive, h.nodup, fun q => ?_, fun q hq => ?_, fun q f hf => ?_,
    fun q hq => ?_, ?_⟩
  · show q ∈ s.waitQueue ↔ _
    by_cases hqp : q = p
    · subst hqp
      rw [hself]
      exact ⟨fun hq => absurd hq hout, nofun⟩
    · rw [hother q hqp]
      exact h.queued q
  · have hqp : q ≠ p := fun hqp => hout (hqp ▸ hq)
    rw [hother q hqp]
    exact h.asleep q hq
  · by_cases hqp : q = p
    · subst hqp
      rw [hself] at hf
      cases hf
    · rw [hother q hqp] at hf
      exact h.flags q f hf
  · by_cases hqp : q = p
    · subst hqp
      rw [hself] at hq
      cases hq
    · rw [hother q hqp] at hq ⊢
      exact h.awake q hq
  · exact finite_update (P := fun x : Proc => x.wait = some WT_KSEM) p _ h.finite

theorem Inv.does (h : Inv s) (hdoes : Does s e s') : Inv s' := by
  cases hdoes with
  | took p hpos =>
    exact ⟨h.valid, fun _ => h.exclusive hpos, h.nodup, h.queued, h.asleep, h.flags, h.awake,
      h.finite⟩
  | blocked p hzero hwait => exact h.block hzero hwait
  | refused p => exact h
  | stored p hempty =>
    exact ⟨h.valid, fun _ => hempty, h.nodup, h.queued, h.asleep, h.flags, h.awake, h.finite⟩
  | handed p w rest hqueue => exact h.hand hqueue
  | resumed p hwait => exact h.goOn hwait

/-! ## Conservation of permits -/

theorem int32_of_range {n : Int} (hlo : 0 ≤ n) (hhi : n < 2 ^ 31) : int32 n = n := by
  unfold int32
  omega

theorem pending_setProc (h : Inv s) (p : ℕ) (x : Proc) :
    pending (s.setProc p x) + (if (s.procs p).wait = some WT_KSEM then 1 else 0) =
      pending s + (if x.wait = some WT_KSEM then 1 else 0) := by
  have hup := occ_update (P := fun x : Proc => x.wait = some WT_KSEM) p x h.finite
  unfold pending Sem.setProc
  convert hup

/-- What one call does to the accounts. -/
theorem Inv.account (h : Inv s) {v : Int} {tr : List Event} (hdoes : Does s e s')
    (hvalue : 0 ≤ s.value) (haccount : v + ups tr = s.value + takes tr + pending s)
    (hfit : v + ups (e :: tr) < 2 ^ 31) :
    0 ≤ s'.value ∧ v + ups (e :: tr) = s'.value + takes (e :: tr) + pending s' := by
  cases hdoes with
  | took p hpos =>
    simp only [ups, takes] at hfit ⊢
    rw [int32_of_range (by omega) (by omega)]
    refine ⟨by omega, ?_⟩
    show _ = _ + (pending s : Int)
    push_cast
    omega
  | blocked p hzero hwait =>
    have hp := pending_setProc h p ⟨.sleeping, WT_KSEM, some WT_INTERRUPTED⟩
    rw [if_neg (by rw [hwait]; exact nofun),
      if_neg fun heq => flags_ne (Option.some.inj heq)] at hp
    refine ⟨hvalue, ?_⟩
    show _ = s.value + _ + (pending (s.setProc p _) : Int)
    simp only [ups, takes]
    omega
  | refused p => exact ⟨hvalue, haccount⟩
  | stored p hempty =>
    simp only [ups, takes] at hfit ⊢
    push_cast at hfit ⊢
    rw [int32_of_range (by omega) (by omega)]
    refine ⟨by omega, ?_⟩
    show _ = _ + (pending s : Int)
    omega
  | handed p w rest hqueue =>
    have hw : w ∈ s.waitQueue := by simp [hqueue]
    have hp := pending_setProc h w ⟨.runnable, 0, some WT_KSEM⟩
    rw [if_neg (by rw [(h.queued w).mp hw]; exact fun heq => flags_ne (Option.some.inj heq)),
      if_pos rfl] at hp
    refine ⟨hvalue, ?_⟩
    show _ = s.value + _ + (pending (s.setProc w _) : Int)
    simp only [ups, takes]
    omega
  | resumed p hwait =>
    have hp := pending_setProc h p ⟨(s.procs p).state, (s.procs p).waitState, none⟩
    rw [if_pos hwait, if_neg nofun] at hp
    refine ⟨hvalue, ?_⟩
    show _ = s.value + _ +
      (pending (s.setProc p ⟨(s.procs p).state, (s.procs p).waitState, none⟩) : Int)
    simp only [ups, takes]
    omega

/-- **Hand-over is in the order of blocking.** -/
theorem fifo_step {tr : List Event} (hdoes : Does s e s') (hfifo : blocked tr = handed tr ++ s.waitQueue) :
    blocked (e :: tr) = handed (e :: tr) ++ s'.waitQueue := by
  cases hdoes with
  | took p hpos => exact hfifo
  | blocked p hzero hwait =>
    show blocked tr ++ [p] = handed tr ++ (s.waitQueue ++ [p])
    rw [hfifo, List.append_assoc]
  | refused p => exact hfifo
  | stored p hempty => exact hfifo
  | handed p w rest hqueue =>
    show blocked tr = handed tr ++ [w] ++ rest
    rw [hfifo, hqueue, List.append_assoc]
    rfl
  | resumed p hwait => exact hfifo

theorem ups_mono (tr : List Event) (e : Event) : ups tr ≤ ups (e :: tr) := by
  cases e <;> simp [ups]

/-- With matched calls, what any processes hold together has been taken and not given back. -/
theorem sum_balance_le : ∀ tr : List Event, Matched tr →
    (∀ p, 0 ≤ balance p tr) ∧ ∀ F : Finset ℕ, ∑ p ∈ F, balance p tr + ups tr ≤ takes tr
  | [], _ => by simp [balance, ups, takes]
  | e :: tr, h => by
    have htake : ∀ q, (∀ p, 0 ≤ balance p tr) →
        (∀ F : Finset ℕ, ∑ p ∈ F, balance p tr + ups tr ≤ takes tr) →
        (∀ p, 0 ≤ balance p tr + if q = p then 1 else 0) ∧
        ∀ F : Finset ℕ, ∑ p ∈ F, (balance p tr + if q = p then 1 else 0) + (ups tr : Int) ≤
          (takes tr + 1 : ℕ) := by
      intro q hnn hsum
      refine ⟨fun p => ?_, fun F => ?_⟩
      · have hp := hnn p
        split <;> omega
      · rw [Finset.sum_add_distrib, Finset.sum_ite_eq]
        have hF := hsum F
        push_cast
        split <;> omega
    have hgive : ∀ q, 1 ≤ balance q tr → (∀ p, 0 ≤ balance p tr) →
        (∀ F : Finset ℕ, ∑ p ∈ F, balance p tr + ups tr ≤ takes tr) →
        (∀ p, 0 ≤ balance p tr - if q = p then 1 else 0) ∧
        ∀ F : Finset ℕ, ∑ p ∈ F, (balance p tr - if q = p then 1 else 0) + ((ups tr + 1 : ℕ) : Int) ≤
          takes tr := by
      intro q hq hnn hsum
      refine ⟨fun p => ?_, fun F => ?_⟩
      · have hp := hnn p
        split
        · rename_i hqp
          subst hqp
          omega
        · omega
      · rw [Finset.sum_sub_distrib, Finset.sum_ite_eq]
        push_cast
        split
        · have hF := hsum F
          omega
        · -- the permit that is given back was not in the sum
          rename_i hqF
          have hF := hsum (insert q F)
          rw [Finset.sum_insert hqF] at hF
          omega
    cases e with
    | took q =>
      obtain ⟨hnn, hsum⟩ := sum_balance_le tr h
      exact htake q hnn hsum
    | blocked q => exact sum_balance_le tr h
    | refused q => exact sum_balance_le tr h
    | stored q => exact hgive q h.1 (sum_balance_le tr h.2).1 (sum_balance_le tr h.2).2
    | handed q w => exact hgive q h.1 (sum_balance_le tr h.2).1 (sum_balance_le tr h.2).2
    | resumed q =>
      obtain ⟨hnn, hsum⟩ := sum_balance_le tr h
      exact htake q hnn hsum

/-! ## Runs -/

theorem semInit_inv {procs : ℕ → Proc} (v : Int) (hprocs : ∀ p, (procs p).wait = none) :
    Inv (semInit v procs) := by
  refine ⟨rfl, fun _ => rfl, List.nodup_nil, fun p => ?_, nofun, fun p f hf => ?_, fun p hp => ?_, ?_⟩
  · show p ∈ [] ↔ (procs p).wait = _
    rw [hprocs]
    exact ⟨nofun, nofun⟩
  · have hf : (procs p).wait = some f := hf
    rw [hprocs] at hf
    cases hf
  · have hp : (procs p).wait = some WT_KSEM := hp
    rw [hprocs] at hp
    cases hp
  · have hempty : {p | ((semInit v procs).procs p).wait = some WT_KSEM} = ∅ := by
      refine Set.eq_empty_iff_forall_notMem.mpr fun p (hp : (procs p).wait = _) => ?_
      rw [hprocs] at hp
      cases hp
    rw [hempty]
    exact Set.finite_empty

theorem Run.inv {s₀ : Sem} {tr : List Event} (h₀ : Inv s₀) (h : Run s₀ tr s) : Inv s := by
  induction h with
  | nil => exact h₀
  | cons op _ henabled hstep ih =>
    obtain ⟨e', s'', hstep', hdoes⟩ := ih.step_spec henabled
    rw [hstep] at hstep'
    cases hstep'
    exact ih.does hdoes

theorem Run.fifo {s₀ : Sem} {tr : List Event} (h₀ : Inv s₀) (hempty : s₀.waitQueue = [])
    (h : Run s₀ tr s) : blocked tr = handed tr ++ s.waitQueue := by
  induction h with
  | nil => rw [hempty]; rfl
  | cons op hrun henabled hstep ih =>
    obtain ⟨e', s'', hstep', hdoes⟩ := (hrun.inv h₀).step_spec henabled
    rw [hstep] at hstep'
    cases hstep'
    exact fifo_step hdoes ih

theorem Run.account {s₀ : Sem} {tr : List Event} (h₀ : Inv s₀) (hvalue : 0 ≤ s₀.value)
    (hpending : pending s₀ = 0) (h : Run s₀ tr s) (hfit : s₀.value + ups tr < 2 ^ 31) :
    0 ≤ s.value ∧ s₀.value + ups tr = s.value + takes tr + pending s := by
  induction h with
  | nil => exact ⟨hvalue, by simp [ups, takes, hpending]⟩
  | @cons tr s s' e op hrun henabled hstep ih =>
    have hmono := ups_mono tr e
    obtain ⟨hs, haccount⟩ := ih (by omega)
    obtain ⟨e', s'', hstep', hdoes⟩ := (hrun.inv h₀).step_spec henabled
    rw [hstep] at hstep'
    cases hstep'
    exact (hrun.inv h₀).account hdoes hs haccount hfit

/-- The accounts of a semaphore that began with `v` permits. -/
structure Permits (v : Int) (tr : List Event) (s : Sem) : Prop where
  nonneg : 0 ≤ s.value
  exclusive : 0 < s.value → s.waitQueue = []
  conserved : v + ups tr = s.value + takes tr + pending s
  fifo : blocked tr = handed tr ++ s.waitQueue
  noPanic : ∀ op, s.Enabled op → s.step op ≠ none
  mutex : v = 1 → Matched tr → (∀ p, balance p tr ≤ 1) ∧
    ∀ p q, 0 < balance p tr → 0 < balance q tr → p = q

/-- **Kernel semaphores conserve permits and hand them over in order.**  In every run from `sem_init`
with `v` permits, as long as the permits released and the first ones fit in an `int`: the value is
never negative and there is no queue while it is positive; the permits are in the value, taken, or
handed to a process that has not gone on; they are handed over in the order of blocking; no assertion
fails; and a semaphore with one permit whose calls are matched is a mutex. -/
theorem semaphore_permits (v : Int) (procs : ℕ → Proc) (tr : List Event) (s : Sem) (hv : 0 ≤ v)
    (hprocs : ∀ p, (procs p).wait = none) (hrun : Run (semInit v procs) tr s)
    (hfit : v + ups tr < 2 ^ 31) : Permits v tr s := by
  have h₀ := semInit_inv v hprocs
  have hpending : pending (semInit v procs) = 0 := by
    refine (occ_eq_zero h₀.finite).mpr fun p (hp : (procs p).wait = _) => ?_
    rw [hprocs] at hp
    cases hp
  have h := hrun.inv h₀
  obtain ⟨hnonneg, haccount⟩ := hrun.account h₀ hv hpending hfit
  have haccount : v + ups tr = s.value + takes tr + pending s := haccount
  refine ⟨hnonneg, h.exclusive, haccount, hrun.fifo h₀ rfl, fun op hop => ?_, fun hone hmatched => ?_⟩
  · obtain ⟨e, s', hstep, -⟩ := h.step_spec hop
    rw [hstep]
    exact Option.some_ne_none _
  · obtain ⟨hnn, hsum⟩ := sum_balance_le _ hmatched
    refine ⟨fun p => ?_, fun p q hp hq => ?_⟩
    · have hsum' := hsum {p}
      rw [Finset.sum_singleton] at hsum'
      omega
    · by_contra hpq
      have hsum' := hsum {p, q}
      rw [Finset.sum_pair hpq] at hsum'
      omega

/-- Processes that are not waiting. -/
def idle : ℕ → Proc := fun _ => ⟨.runnable, 0, none⟩

/-- A mutex: `1` takes it, `2` blocks, `1` hands it over, and `2` goes on. -/
theorem semaphore_permits_mutex : ∃ tr s, Run (semInit 1 idle) tr s ∧ Matched tr ∧
    balance 2 tr = 1 ∧ Permits 1 tr s := by
  have hrun : ∃ s, Run (semInit 1 idle) [.resumed 2, .handed 1 2, .blocked 2, .took 1] s := by
    have h₁ := (@Run.nil (semInit 1 idle)).cons (.down 1) rfl rfl
    have h₂ := h₁.cons (.down 2) rfl rfl
    have h₃ := h₂.cons (.up 1) rfl rfl
    exact ⟨_, h₃.cons (.resume 2) ⟨nofun, rfl⟩ rfl⟩
  obtain ⟨s, hrun⟩ := hrun
  refine ⟨_, s, hrun, by simp [Matched, balance], by simp [balance], ?_⟩
  exact semaphore_permits 1 idle _ s (by decide) (fun _ => rfl) hrun (by decide)

/-- The scheduler may let the second of two processes go on first, although the permits were handed
over in order; and an `int` may overflow. -/
theorem semaphore_overtakes : (∃ tr s, Run (semInit 0 idle) tr s ∧ blocked tr = [1, 2] ∧
      handed tr = [1, 2] ∧ resumed tr = [2]) ∧
    ∃ tr s, Run (semInit (2 ^ 31 - 1) idle) tr s ∧ s.value < 0 := by
  refine ⟨⟨[.resumed 2, .handed 0 2, .handed 0 1, .blocked 2, .blocked 1], ?_⟩, [.stored 0], ?_⟩
  · have h₁ := (@Run.nil (semInit 0 idle)).cons (.down 1) rfl rfl
    have h₂ := h₁.cons (.down 2) rfl rfl
    have h₃ := h₂.cons (.up 0) rfl rfl
    have h₄ := h₃.cons (.up 0) rfl rfl
    exact ⟨_, h₄.cons (.resume 2) ⟨nofun, rfl⟩ rfl, rfl, rfl, rfl⟩
  · exact ⟨_, Run.nil.cons (.up 0) rfl rfl, by decide⟩

end Ucore.Ksem
