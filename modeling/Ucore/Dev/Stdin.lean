import Ucore.Sync.Wait

/-!
# Console input

Reference model of `kern/fs/devs/dev_stdin.c`: `dev_stdin_write` is the interrupt handler of the
keyboard and the serial line, and any number of processes are in `dev_stdin_read`.  Interrupts are off
in both, so they interleave where a reader sleeps.

* `devStdinWrite`, `devStdinRead` — over the wait queues of `kern/sync/wait.c`; a failed assertion, or
  an index out of bounds, is `none`;
* `accept` — which characters are accepted;
* `Inv` — what was taken, and after it what is in the ring, is what was accepted.

Principal result: `delivered_in_order`.
-/

namespace Ucore.Stdin

open Waits (Kern)
open Ksem (ProcState)
open Function (update update_eq_self update_of_ne update_self)

def STDIN_BUFSIZE : ℕ := 4096

def WT_KBD : UInt32 := 0x80000004

/-- The value of an `off_t`. -/
def offT (x : ℤ) : ℤ := Int.bmod x (2 ^ 32)

/-- `pos % STDIN_BUFSIZE`, as an index. -/
def slot (pos : ℤ) : Option ℕ :=
  if 0 ≤ pos.tmod STDIN_BUFSIZE then some (pos.tmod STDIN_BUFSIZE).toNat else none

/-- A call of `dev_stdin_read` that sleeps: `left` is `len - ret`, and `buf` holds the `ret` characters
stored so far. -/
structure Call where
  left : ℕ
  buf : List UInt8

structure State where
  stdinBuffer : ℕ → UInt8
  pRpos : ℤ
  pWpos : ℤ
  kern : Kern Unit
  calls : ℕ → Option Call
  /-- The characters that readers have taken, in order: no function reads it. -/
  taken : List (ℕ × UInt8)
  /-- What the calls of `dev_stdin_read` have returned: no function reads it. -/
  returned : List (ℕ × List UInt8)

namespace State

variable (s : State)

/-- The wake-up of `dev_stdin_write`. -/
def wakeup : Option (Kern Unit) :=
  if s.kern.queues () ≠ [] then s.kern.wakeupQueue () WT_KBD else some s.kern

/-- `dev_stdin_write`. -/
def devStdinWrite (c : UInt8) : Option State :=
  if c ≠ 0 then do
    let i ← slot s.pWpos
    let pWpos := if offT (s.pWpos - s.pRpos) < STDIN_BUFSIZE then offT (s.pWpos + 1) else s.pWpos
    let kern ← s.wakeup
    return { s with stdinBuffer := update s.stdinBuffer i c, pWpos, kern }
  else some s

/-- The end of `dev_stdin_read`. -/
def finish (p : ℕ) (buf : List UInt8) : State :=
  { s with calls := update s.calls p none, returned := s.returned ++ [(p, buf)] }

/-- `wait_current_set`, before `schedule()`. -/
def sleep (p : ℕ) (call : Call) : State :=
  { s with
    kern := s.kern.waitCurrentSet () p WT_KBD
    calls := update s.calls p (some call) }

/-- A character goes to the reader `p`. -/
def take (p : ℕ) (c : UInt8) : State :=
  { s with pRpos := offT (s.pRpos + 1), taken := s.taken ++ [(p, c)] }

/-- The loop of `dev_stdin_read`. -/
def readLoop (p : ℕ) : ℕ → List UInt8 → State → Option State
  | 0, buf, s => some (s.finish p buf)
  | left + 1, buf, s =>
    if s.pRpos < s.pWpos then do
      let i ← slot s.pRpos
      readLoop p left (buf ++ [s.stdinBuffer i]) (s.take p (s.stdinBuffer i))
    else some (s.sleep p ⟨left + 1, buf⟩)

/-- `dev_stdin_read`. -/
def devStdinRead (p len : ℕ) : Option State := readLoop p len [] s

/-- The rest of a call of `dev_stdin_read`, after `schedule()`. -/
def wake (p : ℕ) : Option State := do
  let call ← s.calls p
  let wait ← s.kern.wait p
  let s := { s with
    kern := (s.kern.waitCurrentDel () p).dropWait p
    calls := update s.calls p none }
  if wait.wakeupFlags = WT_KBD then readLoop p call.left call.buf s else some (s.finish p call.buf)

end State

/-- `doKill` and `tick` are what else wakes a reader. -/
inductive Act where
  | key (c : UInt8)
  | read (p len : ℕ)
  | resume (p : ℕ)
  | kill (p : ℕ)
  | tick

/-- One step; what a process cannot do now changes nothing. -/
def step (s : State) : Act → Option State
  | .key c => s.devStdinWrite c
  | .read p len =>
    if (s.kern.procs p).state = .runnable ∧ s.kern.wait p = none then s.devStdinRead p len else some s
  | .resume p =>
    if (s.kern.procs p).state = .runnable ∧ s.kern.wait p ≠ none then s.wake p else some s
  | .kill p => (s.kern.doKill p).map fun kern => { s with kern }
  | .tick => s.kern.tick.map fun kern => { s with kern }

/-- `stdin_device_init`, where nobody waits. -/
def boot : State := ⟨fun _ => 0, 0, 0, Kern.boot Unit, fun _ => none, [], []⟩

/-- The accepted characters: one that is not NUL, while fewer than `STDIN_BUFSIZE` are unread. -/
def accept (s : State) (acc : List UInt8) : Act → List UInt8
  | .key c => if c ≠ 0 ∧ acc.length - s.taken.length < STDIN_BUFSIZE then acc ++ [c] else acc
  | _ => acc

/-- A run, and what it accepts. -/
def run : List Act → State → List UInt8 → Option (State × List UInt8)
  | [], s, acc => some (s, acc)
  | a :: acts, s, acc => do
    let s' ← step s a
    run acts s' (accept s acc a)

/-- The characters in the ring that no reader has taken. -/
def State.unread (s : State) : List UInt8 :=
  (List.range (s.pWpos - s.pRpos).toNat).map fun i => s.stdinBuffer ((s.pRpos.toNat + i) % STDIN_BUFSIZE)

/-- What the calls of `p` have returned. -/
def State.returnedTo (s : State) (p : ℕ) : List UInt8 :=
  (s.returned.filter fun r => r.1 = p).flatMap Prod.snd

/-- What is stored in the buffer of a call of `p` that has not returned. -/
def State.pending (s : State) (p : ℕ) : List UInt8 := ((s.calls p).map Call.buf).getD []

/-- What `p` has taken. -/
def State.takenBy (s : State) (p : ℕ) : List UInt8 := (s.taken.filter fun r => r.1 = p).map Prod.snd

/-! ## The invariant -/

variable {s s' : State} {acc : List UInt8} {p : ℕ} {buf : List UInt8}

/-- `held p` are the characters that `p` has taken and no call has returned. -/
structure Held (s : State) (acc : List UInt8) (held : ℕ → List UInt8) : Prop where
  kern : Waits.Inv s.kern
  rpos : s.pRpos = s.taken.length
  wpos : s.pWpos = acc.length
  le : s.taken.length ≤ acc.length
  room : acc.length ≤ s.taken.length + STDIN_BUFSIZE
  few : acc.length < 2 ^ 31
  order : s.taken.map Prod.snd = acc.take s.taken.length
  ring : ∀ i (hi : i < acc.length), s.taken.length ≤ i → s.stdinBuffer (i % STDIN_BUFSIZE) = acc[i]
  calls : ∀ p, s.calls p = none ↔ s.kern.wait p = none
  heard : ∀ p, s.returnedTo p ++ held p = s.takenBy p

/-- Between the steps, each reader holds what is in its buffer. -/
def Inv (s : State) (acc : List UInt8) : Prop := Held s acc s.pending

theorem offT_of_lt {n : ℕ} (hn : n < 2 ^ 31) : offT n = n := by
  unfold offT
  exact Int.bmod_eq_of_le (by omega) (by omega)

theorem slot_natCast (n : ℕ) : slot n = some (n % STDIN_BUFSIZE) := by
  have hmod : (n : ℤ).tmod STDIN_BUFSIZE = ((n % STDIN_BUFSIZE : ℕ) : ℤ) := by
    rw [Int.tmod_eq_emod_of_nonneg (Int.natCast_nonneg n), Int.natCast_emod]
  unfold slot
  rw [hmod, if_pos (Int.natCast_nonneg _), Int.toNat_natCast]

/-- The readers see the accepted characters that they have not taken. -/
theorem Held.unread {held : ℕ → List UInt8} (h : Held s acc held) :
    s.unread = acc.drop s.taken.length := by
  have hle := h.le
  unfold State.unread
  rw [h.rpos, h.wpos]
  refine List.ext_getElem (by rw [List.length_map, List.length_range, List.length_drop]; omega)
    fun i hi hi' => ?_
  rw [List.length_drop] at hi'
  rw [List.getElem_map, List.getElem_range, List.getElem_drop, Int.toNat_natCast]
  exact h.ring _ (by omega) (by omega)

/-- A reader takes the oldest character that is unread. -/
theorem Held.take (h : Held s acc (update s.pending p buf)) (hlt : s.taken.length < acc.length) :
    Held (s.take p acc[s.taken.length]) acc
      (update s.pending p (buf ++ [acc[s.taken.length]])) := by
  have hfew := h.few
  have hle := h.le
  have hroom := h.room
  refine ⟨h.kern, ?_, h.wpos, ?_, ?_, h.few, ?_, fun i hi hlen => ?_, h.calls, fun r => ?_⟩
  · show offT (s.pRpos + 1) = ((s.taken ++ [_]).length : ℤ)
    rw [h.rpos, List.length_append, List.length_singleton]
    exact offT_of_lt (n := s.taken.length + 1) (by omega)
  · show (s.taken ++ [_]).length ≤ _
    rw [List.length_append, List.length_singleton]
    omega
  · show _ ≤ (s.taken ++ [_]).length + _
    rw [List.length_append]
    omega
  · show (s.taken ++ [_]).map Prod.snd = acc.take (s.taken ++ [_]).length
    rw [List.map_append, h.order, List.length_append, List.length_singleton,
      List.take_succ_eq_append_getElem hlt]
    rfl
  · replace hlen : (s.taken ++ [_]).length ≤ i := hlen
    rw [List.length_append] at hlen
    exact h.ring i hi (by omega)
  · have hheard := h.heard r
    show s.returnedTo r ++ _ = ((s.taken ++ [_]).filter _).map Prod.snd
    rw [List.filter_append, List.map_append]
    by_cases hr : r = p
    · subst hr
      rw [update_self] at hheard ⊢
      rw [← List.append_assoc, hheard]
      simp [State.takenBy]
    · rw [update_of_ne hr] at hheard ⊢
      rw [hheard]
      simp [State.takenBy, Ne.symm hr]

theorem Held.finish (h : Held s acc (update s.pending p buf)) (hwait : s.kern.wait p = none) :
    Inv (s.finish p buf) acc := by
  refine ⟨h.kern, h.rpos, h.wpos, h.le, h.room, h.few, h.order, h.ring, fun r => ?_, fun r => ?_⟩
  · show update s.calls p none r = none ↔ _
    by_cases hr : r = p
    · subst hr
      rw [update_self]
      exact ⟨fun _ => hwait, fun _ => rfl⟩
    · rw [update_of_ne hr]
      exact h.calls r
  · have hheard := h.heard r
    show ((s.returned ++ [(p, buf)]).filter _).flatMap _ ++
      ((update s.calls p none r).map Call.buf).getD [] = s.takenBy r
    rw [← hheard, List.filter_append, List.flatMap_append]
    by_cases hr : r = p
    · subst hr
      rw [update_self, update_self]
      simp [State.returnedTo]
    · rw [update_of_ne hr, update_of_ne hr]
      simp [State.returnedTo, State.pending, Ne.symm hr]

theorem Held.sleep {left : ℕ} (h : Held s acc (update s.pending p buf))
    (hwait : s.kern.wait p = none) : Inv (s.sleep p ⟨left, buf⟩) acc := by
  refine ⟨h.kern.enqueue hwait () (by decide), h.rpos, h.wpos, h.le, h.room, h.few, h.order, h.ring,
    fun r => ?_, fun r => ?_⟩
  · show update s.calls p _ r = none ↔ update s.kern.wait p _ r = none
    by_cases hr : r = p
    · subst hr
      rw [update_self, update_self]
      exact ⟨nofun, nofun⟩
    · rw [update_of_ne hr, update_of_ne hr]
      exact h.calls r
  · have hheard := h.heard r
    show s.returnedTo r ++ ((update s.calls p _ r).map Call.buf).getD [] = s.takenBy r
    rw [← hheard]
    by_cases hr : r = p
    · subst hr
      rw [update_self, update_self]
      rfl
    · rw [update_of_ne hr, update_of_ne hr]
      rfl

/-- The loop takes characters until the buffer is full or there is none. -/
theorem Held.readLoop_spec {left : ℕ} (h : Held s acc (update s.pending p buf))
    (hwait : s.kern.wait p = none) : ∃ s', State.readLoop p left buf s = some s' ∧ Inv s' acc := by
  induction left generalizing s buf with
  | zero => exact ⟨_, rfl, h.finish hwait⟩
  | succ left ih =>
    unfold State.readLoop
    split
    · rename_i hlt
      rw [h.rpos, h.wpos] at hlt
      have hlt' : s.taken.length < acc.length := by omega
      rw [h.rpos, slot_natCast, Option.bind_eq_bind, Option.bind_some, h.ring _ hlt' (Nat.le_refl _)]
      exact ih (h.take hlt') hwait
    · exact ⟨_, rfl, h.sleep hwait⟩

/-- The frame of the call is on the processor again. -/
theorem Inv.resumed (h : Inv s acc) {w : Waits.WaitT Unit} {call : Call} (hw : s.kern.wait p = some w)
    (hcall : s.calls p = some call)
    (hs' : s' = { s with
      kern := (s.kern.waitCurrentDel () p).dropWait p, calls := update s.calls p none }) :
    Held s' acc (update s'.pending p call.buf) ∧ s'.kern.wait p = none := by
  subst hs'
  refine ⟨⟨h.kern.dequeue hw, h.rpos, h.wpos, h.le, h.room, h.few, h.order, h.ring, fun r => ?_,
    fun r => ?_⟩, update_self ..⟩
  · show update s.calls p none r = none ↔ update s.kern.wait p none r = none
    by_cases hr : r = p
    · subst hr
      rw [update_self, update_self]
      exact ⟨fun _ => rfl, fun _ => rfl⟩
    · rw [update_of_ne hr, update_of_ne hr]
      exact h.calls r
  · refine Eq.trans ?_ (h.heard r)
    by_cases hr : r = p
    · subst hr
      rw [update_self]
      unfold State.pending
      rw [hcall]
      rfl
    · rw [update_of_ne hr]
      unfold State.pending
      dsimp only
      rw [update_of_ne hr]
      rfl

theorem Inv.wake_spec (h : Inv s acc) (hwait : s.kern.wait p ≠ none) :
    ∃ s', s.wake p = some s' ∧ Inv s' acc := by
  obtain ⟨w, hw⟩ := Option.ne_none_iff_exists'.mp hwait
  obtain ⟨call, hcall⟩ := Option.ne_none_iff_exists'.mp (mt (h.calls p).mp hwait)
  obtain ⟨hheld, hnone⟩ := h.resumed hw hcall rfl
  unfold State.wake
  simp only [Option.bind_eq_bind, hcall, hw, Option.bind_some]
  split
  · exact hheld.readLoop_spec hnone
  · exact ⟨_, rfl, hheld.finish hnone⟩

/-- The characters that are unread stay as they are unless one is written over the oldest of them. -/
def Spares (s : State) (a : Act) : Prop :=
  ∀ c, a = .key c → c ≠ 0 → s.pWpos - s.pRpos < STDIN_BUFSIZE ∨
    s.stdinBuffer (s.pRpos.toNat % STDIN_BUFSIZE) = c

theorem Inv.wakeup_spec (h : Inv s acc) :
    ∃ kern, s.wakeup = some kern ∧ Waits.Inv kern ∧ ∀ r, kern.wait r = none ↔ s.kern.wait r = none := by
  unfold State.wakeup
  split
  · obtain ⟨kern, hwake, hkern, hwoke⟩ := h.kern.wakeupQueue_spec () WT_KBD
    refine ⟨kern, hwake, hkern, fun r => ?_⟩
    by_cases hr : r ∈ s.kern.queues ()
    · rw [(hwoke.woken r hr).1, h.kern.queued () r hr]
      exact ⟨nofun, nofun⟩
    · rw [(hwoke.frame r hr).1]
  · exact ⟨_, rfl, h.kern, fun _ => Iff.rfl⟩

/-- The slot at the write position is one of the oldest character that is unread, or of none. -/
theorem slot_apart {n m i : ℕ} (hle : n ≤ i) (hlt : i < m) (hroom : m ≤ n + STDIN_BUFSIZE)
    (heq : i % STDIN_BUFSIZE = m % STDIN_BUFSIZE) : i = n ∧ m = n + STDIN_BUFSIZE := by
  unfold STDIN_BUFSIZE at *
  omega

theorem Inv.write_spec (h : Inv s acc) {c : UInt8} (hfew : acc.length + 1 < 2 ^ 31)
    (hspares : Spares s (.key c)) :
    ∃ s', s.devStdinWrite c = some s' ∧ Inv s' (accept s acc (.key c)) := by
  have hle := h.le
  have hroom := h.room
  unfold State.devStdinWrite accept
  dsimp only
  by_cases hc : c = 0
  · rw [if_neg (not_not.mpr hc), if_neg (fun hand => hand.1 hc)]
    exact ⟨s, rfl, h⟩
  · obtain ⟨kern, hwake, hkern, hwait⟩ := h.wakeup_spec
    have hdiff : offT (s.pWpos - s.pRpos) = ((acc.length - s.taken.length : ℕ) : ℤ) := by
      rw [h.wpos, h.rpos, ← Int.natCast_sub hle]
      exact offT_of_lt (by omega)
    have hspares := hspares c rfl hc
    rw [h.wpos, h.rpos, Int.toNat_natCast] at hspares
    rw [if_pos hc, hdiff, h.wpos, slot_natCast, hwake]
    refine ⟨_, rfl, ?_⟩
    by_cases hfull : acc.length - s.taken.length < STDIN_BUFSIZE
    · have hspace : ((acc.length - s.taken.length : ℕ) : ℤ) < STDIN_BUFSIZE := by exact_mod_cast hfull
      have hacc : c ≠ 0 ∧ acc.length - s.taken.length < STDIN_BUFSIZE := ⟨hc, hfull⟩
      rw [if_pos hspace, if_pos hacc]
      refine ⟨hkern, h.rpos, ?_, ?_, ?_, ?_, ?_, fun i hi hlen => ?_, fun r => ?_, h.heard⟩
      · dsimp only
        rw [List.length_append, List.length_singleton, ← offT_of_lt hfew, Int.natCast_succ]
      · show s.taken.length ≤ _
        rw [List.length_append]
        omega
      · show _ ≤ s.taken.length + _
        rw [List.length_append, List.length_singleton]
        omega
      · rw [List.length_append, List.length_singleton]
        exact hfew
      · show s.taken.map Prod.snd = (acc ++ [c]).take s.taken.length
        rw [List.take_append_of_le_length hle, h.order]
      · show update s.stdinBuffer _ c _ = _
        replace hlen : s.taken.length ≤ i := hlen
        rw [List.length_append, List.length_singleton] at hi
        by_cases hlast : i = acc.length
        · subst hlast
          rw [update_self, List.getElem_append_right (Nat.le_refl _)]
          simp
        · have hi' : i < acc.length := by omega
          have hne : i % STDIN_BUFSIZE ≠ acc.length % STDIN_BUFSIZE := fun heq => by
            obtain ⟨-, hm⟩ := slot_apart hlen hi' hroom heq
            omega
          rw [update_of_ne hne, List.getElem_append_left hi']
          exact h.ring i hi' hlen
      · exact (h.calls r).trans (hwait r).symm
    · have hspace : ¬ ((acc.length - s.taken.length : ℕ) : ℤ) < STDIN_BUFSIZE := by exact_mod_cast hfull
      have hacc : ¬ (c ≠ 0 ∧ acc.length - s.taken.length < STDIN_BUFSIZE) := fun hand => hfull hand.2
      rw [if_neg hspace, if_neg hacc]
      have hold := hspares.resolve_left (by omega)
      refine ⟨hkern, h.rpos, rfl, h.le, h.room, h.few, h.order, fun i hi hlen => ?_,
        fun r => (h.calls r).trans (hwait r).symm, h.heard⟩
      show update s.stdinBuffer _ c _ = _
      by_cases heq : i % STDIN_BUFSIZE = acc.length % STDIN_BUFSIZE
      · -- the character is written over an equal one
        obtain ⟨rfl, -⟩ := slot_apart hlen hi hroom heq
        rw [heq, update_self, ← hold]
        exact h.ring _ hi hlen
      · rw [update_of_ne heq]
        exact h.ring i hi hlen

/-! ## Runs -/

def Act.isKey : Act → Bool
  | .key _ => true
  | _ => false

/-- Every character of the run spares those that are unread when it arrives. -/
def Spared : List Act → State → Prop
  | [], _ => True
  | a :: acts, s => Spares s a ∧ ∀ s', step s a = some s' → Spared acts s'

theorem accept_length (s : State) (acc : List UInt8) (a : Act) :
    (accept s acc a).length ≤ acc.length + if a.isKey then 1 else 0 := by
  unfold accept
  cases a with
  | key c =>
    dsimp only
    split
    · rw [List.length_append]
      rfl
    · exact Nat.le_add_right ..
  | _ => exact Nat.le_refl _

theorem Inv.setKern (h : Inv s acc) {kern : Kern Unit} (hkern : Waits.Inv kern)
    (hwait : kern.wait = s.kern.wait) : Inv { s with kern } acc :=
  ⟨hkern, h.rpos, h.wpos, h.le, h.room, h.few, h.order, h.ring,
    fun r => (h.calls r).trans (by rw [hwait]), h.heard⟩

/-- No assertion fails, and what is unread stays in order. -/
theorem Inv.step_spec (h : Inv s acc) {a : Act}
    (hfew : acc.length + (if a.isKey then 1 else 0) < 2 ^ 31) (hspares : Spares s a) :
    ∃ s', step s a = some s' ∧ Inv s' (accept s acc a) := by
  cases a with
  | key c => exact h.write_spec hfew hspares
  | read p len =>
    unfold step
    dsimp only
    split
    · rename_i hrun
      have hbuf : s.pending p = [] := by
        unfold State.pending
        rw [(h.calls p).mpr hrun.2]
        rfl
      have hheld : Held s acc (update s.pending p []) := by
        rw [← hbuf, update_eq_self]
        exact h
      exact hheld.readLoop_spec hrun.2
    · exact ⟨s, rfl, h⟩
  | resume p =>
    unfold step
    dsimp only
    split
    · rename_i hrun
      exact h.wake_spec hrun.2
    · exact ⟨s, rfl, h⟩
  | kill p =>
    obtain ⟨kern, hkill, hkern, hkilled⟩ := h.kern.kill_spec p
    unfold step
    dsimp only
    rw [hkill]
    exact ⟨_, rfl, h.setKern hkern hkilled.roused.wait⟩
  | tick =>
    obtain ⟨kern, htick, hkern, hticked⟩ := h.kern.tick_spec
    unfold step
    dsimp only
    rw [htick]
    exact ⟨_, rfl, h.setKern hkern hticked.roused.wait⟩

theorem Inv.run_spec {acts : List Act} (h : Inv s acc) (hfew : acc.length + acts.countP Act.isKey < 2 ^ 31)
    (hspared : Spared acts s) : ∃ s' acc', run acts s acc = some (s', acc') ∧ Inv s' acc' := by
  induction acts generalizing s acc with
  | nil => exact ⟨s, acc, rfl, h⟩
  | cons a acts ih =>
    rw [List.countP_cons] at hfew
    obtain ⟨s₁, hstep, h₁⟩ := h.step_spec (by omega) hspared.1
    have hlen := accept_length s acc a
    obtain ⟨s', acc', hrun, h'⟩ := ih h₁ (by omega) (hspared.2 s₁ hstep)
    refine ⟨s', acc', ?_, h'⟩
    unfold run
    rw [hstep]
    exact hrun

theorem boot_inv : Inv boot [] :=
  ⟨(Waits.Kern.boot_quiet Unit).inv, rfl, rfl, Nat.le_refl _, Nat.zero_le _, by decide, rfl, nofun,
    fun _ => ⟨fun _ => rfl, fun _ => rfl⟩, fun _ => rfl⟩

/-- Characters that all fit in the buffer spare each other. -/
theorem Inv.spared_of_le {acts : List Act} (h : Inv s acc)
    (hle : acc.length + acts.countP Act.isKey ≤ STDIN_BUFSIZE) : Spared acts s := by
  induction acts generalizing s acc with
  | nil => trivial
  | cons a acts ih =>
    rw [List.countP_cons] at hle
    have hfew := h.few
    have hspares : Spares s a := fun c ha _ => by
      rw [ha, if_pos (show (Act.key c).isKey = true from rfl)] at hle
      rw [h.wpos, h.rpos]
      exact .inl (by omega)
    refine ⟨hspares, fun s' hstep => ?_⟩
    have hlen := accept_length s acc a
    have hroom : acc.length + (if a.isKey then 1 else 0) < 2 ^ 31 := by
      unfold STDIN_BUFSIZE at hle
      omega
    obtain ⟨s₁, hstep₁, h₁⟩ := h.step_spec hroom hspares
    obtain rfl := Option.some.inj (hstep.symm.trans hstep₁)
    exact ih h₁ (by omega)

/-- **The readers are given the accepted characters in order**, whatever interrupts and readers do, if
no character that finds the buffer full is written over another one. -/
theorem delivered_in_order (acts : List Act) (hfew : acts.countP Act.isKey < 2 ^ 31)
    (hspared : Spared acts boot) :
    ∃ s acc, run acts boot [] = some (s, acc) ∧ s.taken.map Prod.snd ++ s.unread = acc ∧
      ∀ p, s.returnedTo p ++ s.pending p = s.takenBy p := by
  obtain ⟨s, acc, hrun, h⟩ := boot_inv.run_spec (by rw [List.length_nil, Nat.zero_add]; exact hfew) hspared
  refine ⟨s, acc, hrun, ?_, h.heard⟩
  rw [h.unread, h.order, List.take_append_drop]

/-- A reader that waits for two characters. -/
theorem delivered_in_order_two :
    ∃ s acc, run [.read 0 2, .key 97, .resume 0, .key 98, .resume 0] boot [] = some (s, acc) ∧
      s.taken.map Prod.snd ++ s.unread = acc ∧ ∀ p, s.returnedTo p ++ s.pending p = s.takenBy p :=
  delivered_in_order _ (by decide) (boot_inv.spared_of_le (by decide))

/-- Characters that come while nobody waits. -/
theorem Inv.keys_spec {c : UInt8} (hc : c ≠ 0) (n : ℕ) (h : Inv s acc) (hqueue : s.kern.queues () = [])
    (hle : acc.length + n ≤ STDIN_BUFSIZE) :
    ∃ s', run (List.replicate n (.key c)) s acc = some (s', acc ++ List.replicate n c) ∧
      Inv s' (acc ++ List.replicate n c) ∧ s'.kern = s.kern ∧ s'.taken = s.taken ∧
      s'.returned = s.returned := by
  induction n generalizing s acc with
  | zero =>
    rw [List.replicate_zero, List.replicate_zero, List.append_nil]
    exact ⟨s, rfl, h, rfl, rfl, rfl⟩
  | succ n ih =>
    have hkern : s.wakeup = some s.kern := if_neg (not_not.mpr hqueue)
    have hspace : acc.length - s.taken.length < STDIN_BUFSIZE := by omega
    obtain ⟨s₁, hstep, h₁⟩ := h.write_spec (c := c) (by unfold STDIN_BUFSIZE at hle; omega)
      fun _ _ _ => .inl (by rw [h.wpos, h.rpos]; omega)
    have hacc : accept s acc (.key c) = acc ++ [c] := if_pos ⟨hc, hspace⟩
    obtain ⟨hkern₁, htaken₁, hret₁⟩ :
        s₁.kern = s.kern ∧ s₁.taken = s.taken ∧ s₁.returned = s.returned := by
      unfold State.devStdinWrite at hstep
      rw [if_pos hc, h.wpos, slot_natCast, hkern] at hstep
      obtain rfl := Option.some.inj hstep
      exact ⟨rfl, rfl, rfl⟩
    rw [hacc] at h₁
    obtain ⟨s', hrun, h', hkern', htaken', hret'⟩ := ih h₁ (by rw [hkern₁]; exact hqueue)
      (by rw [List.length_append, List.length_singleton]; omega)
    rw [List.append_assoc, List.singleton_append, ← List.replicate_succ] at hrun h'
    refine ⟨s', ?_, h', hkern'.trans hkern₁, htaken'.trans htaken₁, hret'.trans hret₁⟩
    rw [List.replicate_succ]
    unfold run
    rw [show step s (.key c) = some s₁ from hstep, hacc]
    exact hrun

theorem run_append (l l' : List Act) (s : State) (acc : List UInt8) :
    run (l ++ l') s acc = (run l s acc).bind fun r => run l' r.1 r.2 := by
  induction l generalizing s acc with
  | nil => rfl
  | cons a l ih =>
    show (step s a).bind (fun s' => run (l ++ l') s' (accept s acc a)) =
      ((step s a).bind fun s' => run l s' (accept s acc a)).bind _
    cases step s a with
    | none => rfl
    | some s₁ => exact ih s₁ _

/-- A character that finds the buffer full is written over the oldest one that is unread. -/
theorem devStdinWrite_full {c : UInt8} {m : ℕ} (hc : c ≠ 0) (hrpos : s.pRpos = m)
    (hwpos : s.pWpos = (m + STDIN_BUFSIZE : ℕ)) (hwake : s.wakeup = some s.kern) :
    s.devStdinWrite c =
      some { s with stdinBuffer := update s.stdinBuffer (m % STDIN_BUFSIZE) c } := by
  have hdiff : offT (s.pWpos - s.pRpos) = (STDIN_BUFSIZE : ℕ) := by
    have hsub : s.pWpos - s.pRpos = (STDIN_BUFSIZE : ℕ) := by
      rw [hwpos, hrpos]
      omega
    rw [hsub]
    exact offT_of_lt (by decide)
  have hslot : slot s.pWpos = some (m % STDIN_BUFSIZE) := by
    rw [hwpos, slot_natCast, Nat.add_mod_right]
  unfold State.devStdinWrite
  rw [if_pos hc, hdiff, if_neg (lt_irrefl _), hslot, hwake]
  rfl

theorem devStdinRead_one {m : ℕ} (hrpos : s.pRpos = m) (hlt : s.pRpos < s.pWpos) :
    s.devStdinRead p 1 = some ((s.take p (s.stdinBuffer (m % STDIN_BUFSIZE))).finish p
      [s.stdinBuffer (m % STDIN_BUFSIZE)]) := by
  unfold State.devStdinRead State.readLoop
  rw [if_pos hlt, hrpos, slot_natCast]
  rfl

/-- One more character than the buffer holds is read in place of the first. -/
theorem full_buffer_overwritten :
    ∃ s, run (List.replicate STDIN_BUFSIZE (.key 97) ++ [.key 98, .read 0 1]) boot [] =
        some (s, List.replicate STDIN_BUFSIZE 97) ∧ s.returned = [(0, [98])] := by
  obtain ⟨s, hrun, h, hkern, htaken, hret⟩ := boot_inv.keys_spec (c := 97) (by decide) STDIN_BUFSIZE rfl
    (Nat.le_of_eq (Nat.zero_add _))
  rw [List.nil_append] at hrun h
  have hlen := List.length_replicate (n := STDIN_BUFSIZE) (a := (97 : UInt8))
  generalize List.replicate STDIN_BUFSIZE (97 : UInt8) = acc at *
  replace hkern : s.kern = Kern.boot Unit := hkern
  replace htaken : s.taken = [] := htaken
  replace hret : s.returned = [] := hret
  have hrpos : s.pRpos = (0 : ℕ) := by rw [h.rpos, htaken, List.length_nil]
  have hwpos : s.pWpos = (0 + STDIN_BUFSIZE : ℕ) := by rw [h.wpos, hlen, Nat.zero_add]
  have hkey := devStdinWrite_full (c := 98) (by decide) hrpos hwpos
    (if_neg (by rw [hkern]; exact not_not.mpr rfl))
  obtain ⟨s₁, hs₁⟩ : ∃ s₁ : State, s₁ =
      { s with stdinBuffer := update s.stdinBuffer (0 % STDIN_BUFSIZE) 98 } := ⟨_, rfl⟩
  rw [← hs₁] at hkey
  have hbuf : s₁.stdinBuffer (0 % STDIN_BUFSIZE) = 98 := by
    rw [hs₁]
    exact update_self (0 % STDIN_BUFSIZE) 98 s.stdinBuffer
  have hread := devStdinRead_one (s := s₁) (p := 0) (m := 0) (by rw [hs₁]; exact hrpos)
    (by rw [hs₁]; dsimp only; rw [hrpos, hwpos]; decide)
  rw [hbuf] at hread
  have hacc : accept s acc (.key 98) = acc := if_neg fun hand => by
    have hlt := hand.2
    rw [hlen, htaken] at hlt
    exact absurd hlt (by decide)
  have hrunnable : (s₁.kern.procs 0).state = .runnable ∧ s₁.kern.wait 0 = none := by
    rw [hs₁, show _ = Kern.boot Unit from hkern]
    exact ⟨rfl, rfl⟩
  have hstep : step s₁ (.read 0 1) = some ((s₁.take 0 98).finish 0 [98]) := by
    unfold step
    dsimp only
    rw [if_pos hrunnable, hread]
  have hlast : run [.key 98, .read 0 1] s acc = some ((s₁.take 0 98).finish 0 [98], acc) := by
    show (s.devStdinWrite 98).bind (fun s' =>
      (step s' (.read 0 1)).bind fun s'' => some (s'', accept s acc (.key 98))) = _
    rw [hkey, Option.bind_some, hstep, hacc]
    rfl
  refine ⟨_, by rw [run_append, hrun]; exact hlast, ?_⟩
  show s₁.returned ++ _ = _
  rw [hs₁, show _ = [] from hret]
  rfl

end Ucore.Stdin
