import Ucore.Sync.Wait

/-!
# User semaphores

Reference model of `ipc_sem_wait`, `ipc_sem_post` and `ipc_sem_free` of `kern/sync/sem.c` on one
semaphore, with `semu_list_search`, `usem_up`, `usem_down`, `__up` and `__down`.  The processes that
share the semaphore are those with an entry for it in their undo list.

A process that waits goes on in `resume`.  A waiter that the clock or `do_kill` has woken stays in the
queue until it does, with `wait_state` cleared; a post that finds it there fails the assertion of
`__up`.

* `Inv.step_spec` — a call fails an assertion exactly in that case (`Raced`).
* `usem_permits` — in every run, and every wait that returns 0 has consumed one permit.
-/

namespace Ucore.Usem

open Ksem (int32 WT_INTERRUPTED)
open Waits (Kern Ret ipcCheckTimeout)
open Function (update update_of_ne update_self)

def WT_USEM : UInt32 := 0x80000101

/-- The semaphore and the kernel around it.  `member p`: the undo list of `p` has an entry for the
semaphore; `call p`: `p` is in `usem_down`, with its timeout and its saved ticks. -/
structure Sem where
  kern : Kern Unit
  value : Int
  valid : Bool
  member : ℕ → Bool
  call : ℕ → Option (UInt32 × UInt32)

/-- `sem_init`, for the processes `member`. -/
def semInit (kern : Kern Unit) (value : Int) (member : ℕ → Bool) : Sem :=
  ⟨kern, value, true, member, fun _ => none⟩

/-- What a step has done. -/
inductive Event where
  | took (p : ℕ)
  | blocked (p : ℕ)
  | stored (p : ℕ)
  | handed (p w : ℕ)
  | freed (p : ℕ)
  | refused (p : ℕ)
  | returned (p : ℕ) (r : Ret)
  | ticked
  | killed (p : ℕ)
  deriving DecidableEq, Repr

variable (s : Sem)

/-- `semu_list_search`: the entry of a semaphore that has been freed is destroyed. -/
def Sem.semuListSearch (p : ℕ) : Bool × Sem :=
  if s.member p then
    if s.valid then (true, s) else (false, { s with member := update s.member p false })
  else (false, s)

/-- `usem_up`. -/
def Sem.usemUp (p : ℕ) : Option (Event × Sem) :=
  if s.valid then
    match s.kern.queues () with
    | [] => some (.stored p, { s with value := int32 (s.value + 1) })
    | w :: _ =>
      if (s.kern.procs w).waitState = WT_USEM then
        (s.kern.wakeupWait () w WT_USEM).map fun k => (.handed p w, { s with kern := k })
      else none
  else none

/-- `usem_down`, up to the call of `schedule()`. -/
def Sem.usemDown (p : ℕ) (timeout : UInt32) : Option (Event × Sem) :=
  let k := s.kern.ipcTimerInit p timeout
  if s.valid then
    if s.value > 0 then some (.took p, { s with kern := k, value := int32 (s.value - 1) })
    else
      ((k.waitCurrentSet () p WT_USEM).ipcAddTimer p timeout).map fun k =>
        (.blocked p, { s with
          kern := k
          call := update s.call p (some (timeout, s.kern.ticks)) })
  else none

/-- The rest of `usem_down` after `schedule()`; `flags` is `wait->wakeup_flags`. -/
def Sem.resume (p : ℕ) (timeout savedTicks flags : UInt32) : Option (Event × Sem) :=
  let k := ((s.kern.ipcDelTimer p timeout).waitCurrentDel () p).dropWait p
  let s := { s with kern := k, call := update s.call p none }
  if flags = WT_USEM then some (.returned p .ok, s)
  else if flags = WT_INTERRUPTED then
    some (.returned p (ipcCheckTimeout timeout savedTicks k.ticks), s)
  else none

/-- `ipc_sem_post`. -/
def Sem.ipcSemPost (p : ℕ) : Option (Event × Sem) :=
  let r := s.semuListSearch p
  if r.1 then r.2.usemUp p else some (.refused p, r.2)

/-- `ipc_sem_wait`. -/
def Sem.ipcSemWait (p : ℕ) (timeout : UInt32) : Option (Event × Sem) :=
  let r := s.semuListSearch p
  if r.1 then r.2.usemDown p timeout else some (.refused p, r.2)

/-- `ipc_sem_free`. -/
def Sem.ipcSemFree (p : ℕ) : Option (Event × Sem) :=
  let r := s.semuListSearch p
  if r.1 then
    (r.2.kern.wakeupQueue () WT_INTERRUPTED).map fun k =>
      (.freed p, { r.2 with kern := k, valid := false })
  else some (.refused p, r.2)

/-- A step: a call, the rest of a wait, the clock, or `do_kill`. -/
inductive Op where
  | wait (p : ℕ) (timeout : UInt32)
  | post (p : ℕ)
  | free (p : ℕ)
  | resume (p : ℕ)
  | tick
  | kill (p : ℕ)
  deriving DecidableEq, Repr

/-- The process runs, and is where it takes the step. -/
def Sem.Enabled : Op → Prop
  | .wait p _ | .post p | .free p => (s.kern.procs p).state = .runnable ∧ s.call p = none
  | .resume p => (s.kern.procs p).state = .runnable ∧ s.call p ≠ none
  | .tick | .kill _ => True

/-- One step. -/
def Sem.step : Op → Option (Event × Sem)
  | .wait p timeout => s.ipcSemWait p timeout
  | .post p => s.ipcSemPost p
  | .free p => s.ipcSemFree p
  | .resume p =>
    (s.call p).bind fun c => (s.kern.wait p).bind fun w => s.resume p c.1 c.2 w.wakeupFlags
  | .tick => s.kern.tick.map fun k => (.ticked, { s with kern := k })
  | .kill p => (s.kern.doKill p).map fun k => (.killed p, { s with kern := k })

/-- Any number of steps, with what they have done, the last one first. -/
inductive Run (s₀ : Sem) : List Event → Sem → Prop
  | nil : Run s₀ [] s₀
  | cons {tr : List Event} {s s' : Sem} {e : Event} (op : Op) (hrun : Run s₀ tr s)
      (henabled : s.Enabled op) (hstep : s.step op = some (e, s')) : Run s₀ (e :: tr) s'

/-- A post while the first waiter of the queue has been woken by the clock or by `do_kill`, and has not
run since. -/
def Sem.Raced : Op → Prop
  | .post p => s.member p = true ∧ s.valid = true ∧
    ∃ w, (s.kern.queues ()).head? = some w ∧ (s.kern.procs w).state ≠ .sleeping
  | _ => False

/-! ## What has happened -/

/-- Permits added to the value, less those taken from it. -/
def stored : List Event → Int
  | [] => 0
  | .stored _ :: tr => stored tr + 1
  | .took _ :: tr => stored tr - 1
  | _ :: tr => stored tr

/-- Permits handed to a process since it last blocked. -/
def grants (p : ℕ) : List Event → ℕ
  | [] => 0
  | .blocked q :: tr => if q = p then 0 else grants p tr
  | .handed _ w :: tr => grants p tr + if w = p then 1 else 0
  | _ :: tr => grants p tr

/-- A blocked wait that returned 0 was handed one permit, and one that returned an error none. -/
def Honest : List Event → Prop
  | [] => True
  | .returned p r :: tr => grants p tr = (if r = .ok then 1 else 0) ∧ Honest tr
  | _ :: tr => Honest tr

/-! ## The invariant -/

/-- What holds between two steps. -/
structure Inv (s : Sem) : Prop where
  kern : Waits.Inv s.kern
  calls : ∀ p, s.kern.wait p = none ↔ s.call p = none
  timed : ∀ p ∈ s.kern.timers.list, ∃ c, s.call p = some c ∧ c.1 ≠ 0
  flags : ∀ p w, s.kern.wait p = some w → w.wakeupFlags = WT_INTERRUPTED ∨ w.wakeupFlags = WT_USEM
  asleep : ∀ p, s.kern.wait p ≠ none → (s.kern.procs p).state = .sleeping →
    (s.kern.procs p).waitState = WT_USEM

variable {s} {s' : Sem} {e : Event}

theorem flags_ne : WT_INTERRUPTED ≠ WT_USEM := by decide

theorem usem_interrupted : WT_USEM &&& WT_INTERRUPTED ≠ 0 := by decide

/-- Everything a step can do. -/
inductive Does (s : Sem) : Event → Sem → Prop
  | took (p : ℕ) (timeout : UInt32) (hpos : 0 < s.value) (hcall : s.call p = none) :
      Does s (.took p)
        { s with kern := s.kern.ipcTimerInit p timeout, value := int32 (s.value - 1) }
  | blocked (p : ℕ) (timeout : UInt32) (k : Kern Unit) (hcall : s.call p = none) (hinv : Waits.Inv k)
      (hblocked : Waits.Blocked s.kern () p WT_USEM timeout k) :
      Does s (.blocked p)
        { s with kern := k, call := update s.call p (some (timeout, s.kern.ticks)) }
  | stored (p : ℕ) : Does s (.stored p) { s with value := int32 (s.value + 1) }
  | handed (p w : ℕ) (k : Kern Unit) (hw : w ∈ s.kern.queues ()) (hinv : Waits.Inv k)
      (hwoke : Waits.Woke s.kern () w WT_USEM k) : Does s (.handed p w) { s with kern := k }
  | freed (p : ℕ) (k : Kern Unit) (hinv : Waits.Inv k)
      (hwoke : Waits.WokeAll s.kern () WT_INTERRUPTED k) :
      Does s (.freed p) { s with kern := k, valid := false }
  | refused (p : ℕ) (member : ℕ → Bool) : Does s (.refused p) { s with member := member }
  | returned (p : ℕ) (r : Ret) (k : Kern Unit) (f : UInt32) (hwait : s.kern.wait p = some ⟨f, ()⟩)
      (hret : r = .ok ↔ f = WT_USEM) (hinv : Waits.Inv k) (hunblocked : Waits.Unblocked s.kern () p k) :
      Does s (.returned p r) { s with kern := k, call := update s.call p none }
  | ticked (k : Kern Unit) (hinv : Waits.Inv k) (hticked : Waits.Ticked s.kern k) :
      Does s .ticked { s with kern := k }
  | killed (p : ℕ) (k : Kern Unit) (hinv : Waits.Inv k) (hkilled : Waits.Killed s.kern p k) :
      Does s (.killed p) { s with kern := k }

theorem Sem.semuListSearch_of_found {p : ℕ} (hmember : s.member p = true) (hvalid : s.valid = true) :
    s.semuListSearch p = (true, s) := by
  unfold Sem.semuListSearch
  rw [if_pos hmember, if_pos hvalid]

theorem Sem.semuListSearch_of_not {p : ℕ} (h : ¬ (s.member p = true ∧ s.valid = true)) :
    ∃ member, s.semuListSearch p = (false, { s with member := member }) := by
  unfold Sem.semuListSearch
  by_cases hmember : s.member p = true
  · rw [if_pos hmember, if_neg fun hvalid => h ⟨hmember, hvalid⟩]
    exact ⟨_, rfl⟩
  · rw [if_neg hmember]
    exact ⟨s.member, rfl⟩

theorem Inv.untimed (h : Inv s) {p : ℕ} (hcall : s.call p = none) : p ∉ s.kern.timers.list := by
  intro hp
  obtain ⟨c, hc, -⟩ := h.timed p hp
  rw [hcall] at hc
  cases hc

theorem Inv.down_spec (h : Inv s) {p : ℕ} (timeout : UInt32) (hcall : s.call p = none)
    (hvalid : s.valid = true) : ∃ e s', s.usemDown p timeout = some (e, s') ∧ Does s e s' := by
  unfold Sem.usemDown
  dsimp only
  rw [if_pos hvalid]
  split
  · rename_i hpos
    exact ⟨_, _, rfl, .took p timeout hpos hcall⟩
  · obtain ⟨k, hblock, hinv, hblocked⟩ := h.kern.block_spec ((h.calls p).mpr hcall) (h.untimed hcall) ()
      usem_interrupted timeout
    rw [hblock]
    exact ⟨_, _, rfl, .blocked p timeout k hcall hinv hblocked⟩

theorem Inv.wait_spec (h : Inv s) {p : ℕ} (timeout : UInt32) (hcall : s.call p = none) :
    ∃ e s', s.ipcSemWait p timeout = some (e, s') ∧ Does s e s' := by
  unfold Sem.ipcSemWait
  by_cases hfound : s.member p = true ∧ s.valid = true
  · rw [Sem.semuListSearch_of_found hfound.1 hfound.2, if_pos rfl]
    exact h.down_spec timeout hcall hfound.2
  · obtain ⟨member, hsearch⟩ := Sem.semuListSearch_of_not hfound
    rw [hsearch]
    exact ⟨_, _, rfl, .refused p member⟩

/-- A sleeping waiter waits for this semaphore, and one that has been woken for nothing. -/
theorem Inv.waitState_iff (h : Inv s) {w : ℕ} (hw : w ∈ s.kern.queues ()) :
    (s.kern.procs w).waitState = WT_USEM ↔ (s.kern.procs w).state = .sleeping := by
  constructor
  · intro hstate
    by_contra hne
    rw [h.kern.awake w hne] at hstate
    exact absurd hstate (by decide)
  · intro hsleep
    refine h.asleep w ?_ hsleep
    rw [h.kern.queued () w hw]
    exact Option.some_ne_none _

theorem Inv.up_spec (h : Inv s) (p : ℕ) (hvalid : s.valid = true)
    (hhead : ∀ w, (s.kern.queues ()).head? = some w → (s.kern.procs w).state = .sleeping) :
    ∃ e s', s.usemUp p = some (e, s') ∧ Does s e s' := by
  unfold Sem.usemUp
  rw [if_pos hvalid]
  cases hq : s.kern.queues () with
  | nil => exact ⟨_, _, rfl, .stored p⟩
  | cons w rest =>
    have hw : w ∈ s.kern.queues () := by simp [hq]
    have hsleep := hhead w (by simp [hq])
    obtain ⟨k, hwake, hinv, hwoke⟩ := h.kern.wakeupWait_spec hw WT_USEM
    refine ⟨.handed p w, { s with kern := k }, ?_, .handed p w k hw hinv hwoke⟩
    dsimp only
    rw [if_pos ((h.waitState_iff hw).mpr hsleep), hwake]
    rfl

/-- **A post fails its assertion** when the first waiter has been woken by another. -/
theorem Inv.up_raced (h : Inv s) (p : ℕ) {w : ℕ} (hw : (s.kern.queues ()).head? = some w)
    (hwoken : (s.kern.procs w).state ≠ .sleeping) : s.usemUp p = none := by
  unfold Sem.usemUp
  split
  · cases hq : s.kern.queues () with
    | nil =>
      rw [hq] at hw
      cases hw
    | cons x rest =>
      rw [hq] at hw
      cases hw
      have hmem : w ∈ s.kern.queues () := by simp [hq]
      dsimp only
      rw [if_neg fun hstate => hwoken ((h.waitState_iff hmem).mp hstate)]
  · rfl

theorem Inv.post_spec (h : Inv s) {p : ℕ} (hquiet : ¬ s.Raced (.post p)) :
    ∃ e s', s.ipcSemPost p = some (e, s') ∧ Does s e s' := by
  unfold Sem.ipcSemPost
  by_cases hfound : s.member p = true ∧ s.valid = true
  · rw [Sem.semuListSearch_of_found hfound.1 hfound.2, if_pos rfl]
    refine h.up_spec p hfound.2 fun w hw => ?_
    by_contra hwoken
    exact hquiet ⟨hfound.1, hfound.2, w, hw, hwoken⟩
  · obtain ⟨member, hsearch⟩ := Sem.semuListSearch_of_not hfound
    rw [hsearch]
    exact ⟨_, _, rfl, .refused p member⟩

theorem Inv.post_raced (h : Inv s) {p : ℕ} (hraced : s.Raced (.post p)) : s.ipcSemPost p = none := by
  obtain ⟨hmember, hvalid, w, hw, hwoken⟩ := hraced
  unfold Sem.ipcSemPost
  rw [Sem.semuListSearch_of_found hmember hvalid, if_pos rfl]
  exact h.up_raced p hw hwoken

theorem Inv.free_spec (h : Inv s) (p : ℕ) : ∃ e s', s.ipcSemFree p = some (e, s') ∧ Does s e s' := by
  unfold Sem.ipcSemFree
  by_cases hfound : s.member p = true ∧ s.valid = true
  · rw [Sem.semuListSearch_of_found hfound.1 hfound.2, if_pos rfl]
    obtain ⟨k, hwake, hinv, hwoke⟩ := h.kern.wakeupQueue_spec () WT_INTERRUPTED
    dsimp only
    rw [hwake]
    exact ⟨_, _, rfl, .freed p k hinv hwoke⟩
  · obtain ⟨member, hsearch⟩ := Sem.semuListSearch_of_not hfound
    rw [hsearch]
    exact ⟨_, _, rfl, .refused p member⟩

theorem ipcCheckTimeout_ne_ok (timeout savedTicks ticks : UInt32) :
    ipcCheckTimeout timeout savedTicks ticks ≠ .ok := by
  unfold ipcCheckTimeout
  split <;> decide

theorem Inv.resume_spec (h : Inv s) {p : ℕ} {c : UInt32 × UInt32} (hcall : s.call p = some c) :
    ∃ e s', (s.kern.wait p).bind (fun w => s.resume p c.1 c.2 w.wakeupFlags) = some (e, s') ∧
      Does s e s' := by
  have hwait : s.kern.wait p ≠ none := by
    intro hwait
    rw [(h.calls p).mp hwait] at hcall
    cases hcall
  obtain ⟨w, hw⟩ := Option.ne_none_iff_exists'.mp hwait
  obtain ⟨hinv, hunblocked⟩ := h.kern.unblock_spec c.1 hw fun hzero hp => by
    obtain ⟨c', hc', hne⟩ := h.timed p hp
    rw [hcall] at hc'
    cases hc'
    exact hne hzero
  rw [hw, Option.bind_some]
  unfold Sem.resume
  dsimp only
  split
  · rename_i hflag
    exact ⟨_, _, rfl, .returned p .ok _ _ hw ⟨fun _ => hflag, fun _ => rfl⟩ hinv hunblocked⟩
  · rename_i hflag
    rw [if_pos ((h.flags p w hw).resolve_right hflag)]
    refine ⟨_, _, rfl, .returned p _ _ _ hw ⟨fun hok => ?_, fun hf => absurd hf hflag⟩ hinv hunblocked⟩
    exact absurd hok (ipcCheckTimeout_ne_ok _ _ _)

/-- **The calls fail no assertion** but that of `__up`, and that one only in a race. -/
theorem Inv.step_spec (h : Inv s) {op : Op} (henabled : s.Enabled op) (hquiet : ¬ s.Raced op) :
    ∃ e s', s.step op = some (e, s') ∧ Does s e s' := by
  cases op with
  | wait p timeout => exact h.wait_spec timeout henabled.2
  | post p => exact h.post_spec hquiet
  | free p => exact h.free_spec p
  | resume p =>
    obtain ⟨c, hc⟩ := Option.ne_none_iff_exists'.mp henabled.2
    unfold Sem.step
    dsimp only
    rw [hc, Option.bind_some]
    exact h.resume_spec hc
  | tick =>
    obtain ⟨k, htick, hinv, hticked⟩ := h.kern.tick_spec
    unfold Sem.step
    rw [htick]
    exact ⟨_, _, rfl, .ticked k hinv hticked⟩
  | kill p =>
    obtain ⟨k, hkill, hinv, hkilled⟩ := h.kern.kill_spec p
    unfold Sem.step
    dsimp only
    rw [hkill]
    exact ⟨_, _, rfl, .killed p k hinv hkilled⟩

theorem Inv.step_raced (h : Inv s) {op : Op} (hraced : s.Raced op) : s.step op = none := by
  cases op with
  | post p => exact h.post_raced hraced
  | wait p timeout => exact hraced.elim
  | free p => exact hraced.elim
  | resume p => exact hraced.elim
  | tick => exact hraced.elim
  | kill p => exact hraced.elim

/-- Waking processes keeps the invariant. -/
theorem Inv.roused (h : Inv s) {k : Kern Unit} (hinv : Waits.Inv k) (hroused : Waits.Roused s.kern k)
    (htimers : ∀ p ∈ k.timers.list, p ∈ s.kern.timers.list) : Inv { s with kern := k } := by
  refine ⟨hinv, fun p => ?_, fun p hp => h.timed p (htimers p hp), fun p w hw => ?_, fun p hp hsleep => ?_⟩
  · show k.wait p = none ↔ _
    rw [hroused.wait]
    exact h.calls p
  · replace hw : k.wait p = some w := hw
    rw [hroused.wait] at hw
    exact h.flags p w hw
  · replace hp : k.wait p ≠ none := hp
    rw [hroused.wait] at hp
    obtain ⟨hold, hstate⟩ := hroused.sleeping hsleep
    exact hstate.trans (h.asleep p hp hold)

theorem Inv.block (h : Inv s) {p : ℕ} {timeout : UInt32} {k : Kern Unit} (hcall : s.call p = none)
    (hinv : Waits.Inv k) (hblocked : Waits.Blocked s.kern () p WT_USEM timeout k) (saved : UInt32) :
    Inv { s with kern := k, call := update s.call p (some (timeout, saved)) } := by
  refine ⟨hinv, fun r => ?_, fun r hr => ?_, fun r w hw => ?_, fun r hr hsleep => ?_⟩
  · show k.wait r = none ↔ update s.call p _ r = none
    rw [hblocked.wait]
    by_cases hrp : r = p
    · subst hrp
      rw [update_self, update_self]
      exact ⟨nofun, nofun⟩
    · rw [update_of_ne hrp, update_of_ne hrp]
      exact h.calls r
  · show ∃ c, update s.call p _ r = some c ∧ _
    by_cases hrp : r = p
    · subst hrp
      rw [update_self]
      refine ⟨_, rfl, fun hzero => ?_⟩
      -- with no timeout there is no timer, neither before nor now
      replace hzero : timeout = 0 := hzero
      have hdead := hblocked.deadlines
      rw [if_neg (not_not.mpr hzero)] at hdead
      have hr' := (Timers.same_of_deadlines (congrFun hdead r)).1.mp hr
      exact h.untimed hcall hr'
    · rw [update_of_ne hrp]
      refine h.timed r ((Timers.same_of_deadlines ?_).1.mp hr)
      rw [hblocked.deadlines]
      split
      · rw [update_of_ne hrp]
      · rfl
  · replace hw : k.wait r = some w := hw
    rw [hblocked.wait] at hw
    by_cases hrp : r = p
    · subst hrp
      rw [update_self] at hw
      cases hw
      exact Or.inl rfl
    · rw [update_of_ne hrp] at hw
      exact h.flags r w hw
  · replace hr : k.wait r ≠ none := hr
    replace hsleep : (k.procs r).state = .sleeping := hsleep
    show (k.procs r).waitState = _
    rw [hblocked.wait] at hr
    rw [hblocked.procs] at hsleep ⊢
    by_cases hrp : r = p
    · subst hrp
      rw [update_self]
    · rw [update_of_ne hrp] at hr hsleep ⊢
      exact h.asleep r hr hsleep

theorem Inv.hand (h : Inv s) {w : ℕ} {k : Kern Unit} (hw : w ∈ s.kern.queues ()) (hinv : Waits.Inv k)
    (hwoke : Waits.Woke s.kern () w WT_USEM k) : Inv { s with kern := k } := by
  have hwait := h.kern.queued () w hw
  refine ⟨hinv, fun r => ?_, fun r hr => ?_, fun r x hx => ?_, fun r hr hsleep => ?_⟩
  · show k.wait r = none ↔ _
    rw [hwoke.wait]
    by_cases hrw : r = w
    · subst hrw
      rw [update_self, ← h.calls r, hwait]
      simp
    · rw [update_of_ne hrw]
      exact h.calls r
  · replace hr : r ∈ k.timers.list := hr
    rw [hwoke.timers] at hr
    exact h.timed r hr
  · replace hx : k.wait r = some x := hx
    rw [hwoke.wait] at hx
    by_cases hrw : r = w
    · subst hrw
      rw [update_self] at hx
      cases hx
      exact Or.inr rfl
    · rw [update_of_ne hrw] at hx
      exact h.flags r x hx
  · replace hr : k.wait r ≠ none := hr
    replace hsleep : (k.procs r).state = .sleeping := hsleep
    show (k.procs r).waitState = _
    rw [hwoke.procs] at hsleep ⊢
    rw [hwoke.wait] at hr
    by_cases hrw : r = w
    · subst hrw
      rw [update_self, Waits.Proc.rouse_state] at hsleep
      cases hsleep
    · rw [update_of_ne hrw] at hr hsleep ⊢
      exact h.asleep r hr hsleep

theorem Inv.free (h : Inv s) {k : Kern Unit} (hinv : Waits.Inv k)
    (hwoke : Waits.WokeAll s.kern () WT_INTERRUPTED k) : Inv { s with kern := k, valid := false } := by
  refine ⟨hinv, fun r => ?_, fun r hr => ?_, fun r x hx => ?_, fun r hr hsleep => ?_⟩
  · show k.wait r = none ↔ _
    by_cases hrq : r ∈ s.kern.queues ()
    · rw [(hwoke.woken r hrq).1, ← h.calls r, h.kern.queued () r hrq]
    · rw [(hwoke.frame r hrq).1]
      exact h.calls r
  · replace hr : r ∈ k.timers.list := hr
    rw [hwoke.timers] at hr
    exact h.timed r hr
  · replace hx : k.wait r = some x := hx
    by_cases hrq : r ∈ s.kern.queues ()
    · rw [(hwoke.woken r hrq).1] at hx
      cases hx
      exact Or.inl rfl
    · rw [(hwoke.frame r hrq).1] at hx
      exact h.flags r x hx
  · replace hr : k.wait r ≠ none := hr
    replace hsleep : (k.procs r).state = .sleeping := hsleep
    show (k.procs r).waitState = _
    by_cases hrq : r ∈ s.kern.queues ()
    · rw [(hwoke.woken r hrq).2, Waits.Proc.rouse_state] at hsleep
      cases hsleep
    · rw [(hwoke.frame r hrq).2] at hsleep ⊢
      rw [(hwoke.frame r hrq).1] at hr
      exact h.asleep r hr hsleep

theorem Inv.goOn (h : Inv s) {p : ℕ} {k : Kern Unit} (hinv : Waits.Inv k)
    (hun : Waits.Unblocked s.kern () p k) :
    Inv { s with kern := k, call := update s.call p none } := by
  refine ⟨hinv, fun r => ?_, fun r hr => ?_, fun r x hx => ?_, fun r hr hsleep => ?_⟩
  · show k.wait r = none ↔ update s.call p none r = none
    rw [hun.wait]
    by_cases hrp : r = p
    · subst hrp
      simp
    · rw [update_of_ne hrp, update_of_ne hrp]
      exact h.calls r
  · show ∃ c, update s.call p none r = some c ∧ _
    by_cases hrp : r = p
    · subst hrp
      refine absurd hr (Timers.not_mem_of_deadlines ?_)
      rw [hun.deadlines, update_self]
    · rw [update_of_ne hrp]
      refine h.timed r ((Timers.same_of_deadlines ?_).1.mp hr)
      rw [hun.deadlines, update_of_ne hrp]
  · replace hx : k.wait r = some x := hx
    rw [hun.wait] at hx
    by_cases hrp : r = p
    · subst hrp
      rw [update_self] at hx
      cases hx
    · rw [update_of_ne hrp] at hx
      exact h.flags r x hx
  · replace hr : k.wait r ≠ none := hr
    replace hsleep : (k.procs r).state = .sleeping := hsleep
    show (k.procs r).waitState = _
    rw [hun.wait] at hr
    rw [hun.procs] at hsleep ⊢
    by_cases hrp : r = p
    · subst hrp
      rw [update_self] at hr
      exact absurd rfl hr
    · rw [update_of_ne hrp] at hr
      exact h.asleep r hr hsleep

/-- A process with no timer pending may initialise its timer. -/
theorem Inv.init (h : Inv s) {p : ℕ} (hcall : s.call p = none) (timeout : UInt32) :
    Inv { s with kern := s.kern.ipcTimerInit p timeout } := by
  refine ⟨(h.kern.timerInit_spec (h.untimed hcall) timeout).1, fun r => ?_, fun r hr => ?_,
    fun r w hw => ?_, fun r hr hsleep => ?_⟩
  · show (s.kern.ipcTimerInit p timeout).wait r = none ↔ _
    rw [Kern.ipcTimerInit_wait]
    exact h.calls r
  · replace hr : r ∈ (s.kern.ipcTimerInit p timeout).timers.list := hr
    rw [Kern.ipcTimerInit_list] at hr
    exact h.timed r hr
  · replace hw : (s.kern.ipcTimerInit p timeout).wait r = some w := hw
    rw [Kern.ipcTimerInit_wait] at hw
    exact h.flags r w hw
  · replace hr : (s.kern.ipcTimerInit p timeout).wait r ≠ none := hr
    replace hsleep : ((s.kern.ipcTimerInit p timeout).procs r).state = .sleeping := hsleep
    show ((s.kern.ipcTimerInit p timeout).procs r).waitState = _
    rw [Kern.ipcTimerInit_wait] at hr
    rw [Kern.ipcTimerInit_procs] at hsleep ⊢
    exact h.asleep r hr hsleep

theorem Inv.does (h : Inv s) (hdoes : Does s e s') : Inv s' := by
  cases hdoes with
  | took p timeout _ hcall =>
    have hinit := h.init hcall timeout
    exact ⟨hinit.kern, hinit.calls, hinit.timed, hinit.flags, hinit.asleep⟩
  | blocked p timeout k hcall hinv hblocked => exact h.block hcall hinv hblocked _
  | stored p => exact ⟨h.kern, h.calls, h.timed, h.flags, h.asleep⟩
  | handed p w k hw hinv hwoke => exact h.hand hw hinv hwoke
  | freed p k hinv hwoke => exact h.free hinv hwoke
  | refused p member => exact ⟨h.kern, h.calls, h.timed, h.flags, h.asleep⟩
  | returned p r k f hwait hret hinv hun => exact h.goOn hinv hun
  | ticked k hinv hticked =>
    exact h.roused hinv hticked.roused fun p hp => hticked.mem hp
  | killed p k hinv hkilled =>
    refine h.roused hinv hkilled.roused fun p hp => ?_
    rw [hkilled.timers] at hp
    exact hp

/-! ## Permits -/

/-- What has been handed to the processes that wait. -/
def Granted (tr : List Event) (s : Sem) : Prop :=
  ∀ p w, s.kern.wait p = some w → grants p tr = if w.wakeupFlags = WT_USEM then 1 else 0

/-- The permits of one step. -/
theorem Inv.granted (h : Inv s) {tr : List Event} (hdoes : Does s e s') (hg : Granted tr s) :
    Granted (e :: tr) s' := by
  intro p w hw
  cases hdoes with
  | took q timeout _ hcall =>
    replace hw : (s.kern.ipcTimerInit q timeout).wait p = some w := hw
    rw [Kern.ipcTimerInit_wait] at hw
    exact hg p w hw
  | blocked q timeout k hcall hinv hblocked =>
    replace hw : k.wait p = some w := hw
    rw [hblocked.wait] at hw
    unfold grants
    by_cases hpq : p = q
    · subst hpq
      rw [update_self] at hw
      cases hw
      rw [if_pos rfl, if_neg flags_ne]
    · rw [update_of_ne hpq] at hw
      rw [if_neg fun hqp => hpq hqp.symm]
      exact hg p w hw
  | stored q => exact hg p w hw
  | handed q x k hx hinv hwoke =>
    replace hw : k.wait p = some w := hw
    rw [hwoke.wait] at hw
    unfold grants
    by_cases hpx : p = x
    · -- a process in the queue has been handed nothing yet
      subst hpx
      rw [update_self] at hw
      cases hw
      rw [hg p _ (h.kern.queued () p hx), if_neg flags_ne, if_pos rfl, if_pos rfl]
    · rw [update_of_ne hpx] at hw
      rw [if_neg fun hxp => hpx hxp.symm, Nat.add_zero]
      exact hg p w hw
  | freed q k hinv hwoke =>
    replace hw : k.wait p = some w := hw
    by_cases hpq : p ∈ s.kern.queues ()
    · rw [(hwoke.woken p hpq).1] at hw
      cases hw
      exact hg p _ (h.kern.queued () p hpq)
    · rw [(hwoke.frame p hpq).1] at hw
      exact hg p w hw
  | refused q member => exact hg p w hw
  | returned q r k f hwait hret hinv hun =>
    replace hw : k.wait p = some w := hw
    rw [hun.wait] at hw
    by_cases hpq : p = q
    · subst hpq
      rw [update_self] at hw
      cases hw
    · rw [update_of_ne hpq] at hw
      exact hg p w hw
  | ticked k hinv hticked =>
    replace hw : k.wait p = some w := hw
    rw [hticked.roused.wait] at hw
    exact hg p w hw
  | killed q k hinv hkilled =>
    replace hw : k.wait p = some w := hw
    rw [hkilled.roused.wait] at hw
    exact hg p w hw

theorem honest_step {tr : List Event} (hdoes : Does s e s') (hg : Granted tr s) (h : Honest tr) :
    Honest (e :: tr) := by
  cases hdoes with
  | returned p r k f hwait hret hinv hun =>
    refine ⟨?_, h⟩
    rw [hg p _ hwait]
    exact if_congr hret.symm rfl rfl
  | took | blocked | stored | handed | freed | refused | ticked | killed => exact h

theorem int32_add_one (n m : Int) (h : n = int32 m) : int32 (n + 1) = int32 (m + 1) := by
  subst h
  unfold int32
  omega

theorem int32_sub_one (n m : Int) (h : n = int32 m) : int32 (n - 1) = int32 (m - 1) := by
  subst h
  unfold int32
  omega

theorem value_step {v : Int} {tr : List Event} (hdoes : Does s e s')
    (h : s.value = int32 (v + stored tr)) : s'.value = int32 (v + stored (e :: tr)) := by
  cases hdoes with
  | took p timeout _ hcall =>
    show int32 (s.value - 1) = int32 (v + (stored tr - 1))
    rw [int32_sub_one _ _ h, Int.add_sub_assoc]
  | stored p =>
    show int32 (s.value + 1) = int32 (v + (stored tr + 1))
    rw [int32_add_one _ _ h, Int.add_assoc]
  | blocked | handed | freed | refused | returned | ticked | killed => exact h

/-! ## Runs -/

theorem semInit_inv {k : Kern Unit} (hk : Waits.Quiet k) (v : Int) (member : ℕ → Bool) :
    Inv (semInit k v member) := by
  refine ⟨hk.inv, fun p => ⟨fun _ => rfl, fun _ => hk.wait p⟩, fun p hp => ?_, fun p w hw => ?_,
    fun p hp => absurd (hk.wait p) hp⟩
  · replace hp : p ∈ k.timers.list := hp
    rw [hk.timers] at hp
    cases hp
  · exact absurd ((hk.wait p).symm.trans hw) nofun

theorem Run.spec {k : Kern Unit} {v : Int} {member : ℕ → Bool} {tr : List Event} (hk : Waits.Quiet k)
    (hv : int32 v = v) (hrun : Run (semInit k v member) tr s) :
    Inv s ∧ Granted tr s ∧ Honest tr ∧ s.value = int32 (v + stored tr) := by
  induction hrun with
  | nil =>
    refine ⟨semInit_inv hk v member, fun p w hw => ?_, trivial, ?_⟩
    · exact absurd ((hk.wait p).symm.trans hw) nofun
    · show v = int32 (v + 0)
      rw [Int.add_zero, hv]
  | @cons tr s s' e op _ henabled hstep ih =>
    obtain ⟨hinv, hgranted, hhonest, hvalue⟩ := ih
    have hquiet : ¬ s.Raced op := by
      intro hraced
      rw [hinv.step_raced hraced] at hstep
      cases hstep
    obtain ⟨e', s'', hstep', hdoes⟩ := hinv.step_spec henabled hquiet
    rw [hstep] at hstep'
    cases hstep'
    exact ⟨hinv.does hdoes, hinv.granted hdoes hgranted, honest_step hdoes hgranted hhonest,
      value_step hdoes hvalue⟩

/-- What a run has kept. -/
structure Permits (v : Int) (tr : List Event) (s : Sem) : Prop where
  noPanic : ∀ op, s.Enabled op → (s.step op ≠ none ↔ ¬ s.Raced op)
  value : s.value = int32 (v + stored tr)
  honest : Honest tr

/-- **A post panics exactly in a race with the clock or a kill.**  In every run from `ipc_sem_init`, an
assertion fails at a step exactly if the step is a post that finds, first in the queue, a waiter that the
clock or `do_kill` has woken and that has not run since; and every wait that has returned 0 took one
permit from the value or was handed one, since it blocked, by one post. -/
theorem usem_permits (k : Kern Unit) (v : Int) (member : ℕ → Bool) (tr : List Event) (s : Sem)
    (hk : Waits.Quiet k) (hv : int32 v = v) (hrun : Run (semInit k v member) tr s) : Permits v tr s := by
  obtain ⟨hinv, -, hhonest, hvalue⟩ := hrun.spec hk hv
  refine ⟨fun op henabled => ⟨fun hstep hraced => hstep (hinv.step_raced hraced), fun hquiet => ?_⟩, hvalue,
    hhonest⟩
  obtain ⟨e, s', hstep, -⟩ := hinv.step_spec henabled hquiet
  rw [hstep]
  exact Option.some_ne_none _

/-- One wait takes the permit, another is handed the next. -/
theorem usem_permits_handed : ∃ s, Run (semInit (Kern.boot Unit) 1 fun _ => true)
      [.returned 2 .ok, .handed 1 2, .ticked, .blocked 2, .took 1] s ∧
      Permits 1 [.returned 2 .ok, .handed 1 2, .ticked, .blocked 2, .took 1] s := by
  have h₁ := (@Run.nil (semInit (Kern.boot Unit) 1 fun _ => true)).cons (.wait 1 0) ⟨rfl, rfl⟩ rfl
  have h₂ := h₁.cons (.wait 2 5) ⟨rfl, rfl⟩ rfl
  have h₃ := h₂.cons .tick trivial rfl
  have h₄ := h₃.cons (.post 1) ⟨rfl, rfl⟩ rfl
  have h₅ := h₄.cons (.resume 2) ⟨rfl, nofun⟩ rfl
  exact ⟨_, h₅, usem_permits _ _ _ _ _ (Kern.boot_quiet Unit) (by decide) h₅⟩

/-- Process 1 waits for one tick; the tick comes, and process 2 posts before process 1 runs. -/
theorem post_panics_after_timeout : ∃ tr s, Run (semInit (Kern.boot Unit) 0 fun _ => true) tr s ∧
    s.Enabled (.post 2) ∧ s.step (.post 2) = none := by
  have h₁ := (@Run.nil (semInit (Kern.boot Unit) 0 fun _ => true)).cons (.wait 1 1) ⟨rfl, rfl⟩ rfl
  have h₂ := h₁.cons .tick trivial rfl
  exact ⟨_, _, h₂, ⟨rfl, rfl⟩, rfl⟩

end Ucore.Usem
