import Ucore.Sched.Mlfq

/-!
# The invariant of the run queues

A process is on a run queue exactly when it waits for the processor.  The calls of the scheduler
break this for a moment: a woken process is runnable before it is in a queue, and `schedule` puts
`current` into a queue while it still runs.  `Inv off s` says that it holds with the exception of the
processes `off`, which are on no queue whatever their state is; between the calls these are `current`
alone.

Principal result: `run_queue_invariant` — in every state that is reached the queues are as they should
be, `schedule` and the wake-ups use them as they should, and no assertion about them fails.
-/

namespace Ucore.Mlfq

open Ksem (ProcState WT_INTERRUPTED)
open Function (update update_of_ne update_self)

namespace Sched

variable {s s' : Sched} {off : ℕ → Prop} {p q : ℕ} {i j : Fin 4} {x : Proc}

/-- What holds of queues, processes and timers, apart from the processes `off`. -/
structure Inv (off : ℕ → Prop) (s : Sched) : Prop where
  queued : ∀ p i, p ∈ (s.rqs i).runList → ¬ off p ∧ p ≠ s.idleproc ∧ s.live p = true ∧
    (s.procs p).state = .runnable ∧ (s.procs p).rq = some i ∧
    1 ≤ (s.procs p).timeSlice ∧ (s.procs p).timeSlice ≤ (s.rqs i).maxTimeSlice
  ready : ∀ p, s.live p = true → ¬ off p → p ≠ s.idleproc → (s.procs p).state = .runnable →
    ∃ i, p ∈ (s.rqs i).runList
  nodup : ∀ i, (s.rqs i).runList.Nodup
  count : ∀ i, (s.rqs i).procNum = (s.rqs i).runList.length
  max : ∀ i, (s.rqs i).maxTimeSlice = 8 * 2 ^ i.val
  slice : ∀ p, s.live p = true → 0 ≤ (s.procs p).timeSlice
  awake : ∀ p, s.live p = true → (s.procs p).state = .runnable → (s.procs p).waitState = 0
  current : s.live s.current = true
  idle : s.live s.idleproc = true ∧ (s.procs s.idleproc).state ≠ .zombie ∧
    (s.procs s.idleproc).state ≠ .uninit
  timers : s.timers.Inv
  owner : ∀ i ∈ s.timers.list, ∀ p, s.timers.proc i = some p → s.live p = true

/-- The invariant between the calls. -/
abbrev Settled (s : Sched) : Prop := Inv (fun p => p = s.current) s

/-! ## One field at a time -/

@[simp] theorem setProc_rqs : (s.setProc p x).rqs = s.rqs := rfl

@[simp] theorem setProc_live : (s.setProc p x).live = s.live := rfl

@[simp] theorem setProc_current : (s.setProc p x).current = s.current := rfl

@[simp] theorem setProc_idleproc : (s.setProc p x).idleproc = s.idleproc := rfl

@[simp] theorem setProc_timers : (s.setProc p x).timers = s.timers := rfl

@[simp] theorem setProc_self : (s.setProc p x).procs p = x := update_self ..

theorem setProc_of_ne (h : q ≠ p) : (s.setProc p x).procs q = s.procs q :=
  update_of_ne h ..

theorem linked_iff : s.linked p = true ↔ ∃ i, p ∈ (s.rqs i).runList := by
  simp [linked]

theorem not_linked (h : ∀ i, p ∉ (s.rqs i).runList) : s.linked p = false := by
  simpa [linked] using h

/-- A process that is off the queues by right. -/
theorem Inv.notMem (h : Inv off s)
    (hp : off p ∨ p = s.idleproc ∨ s.live p = false ∨ (s.procs p).state ≠ .runnable) (i : Fin 4) :
    p ∉ (s.rqs i).runList := by
  intro hmem
  obtain ⟨hoff, hidle, hlive, hrun, -⟩ := h.queued p i hmem
  rcases hp with hp | hp | hp | hp
  · exact hoff hp
  · exact hidle hp
  · rw [hlive] at hp
    cases hp
  · exact hp hrun

theorem Inv.weaken {off' : ℕ → Prop} (h : Inv off s) (hsub : ∀ p, off p → off' p)
    (hnew : ∀ p, off' p → ∀ i, p ∉ (s.rqs i).runList) : Inv off' s :=
  { h with
    queued := fun p i hmem => ⟨fun hoff => hnew p hoff i hmem, (h.queued p i hmem).2⟩
    ready := fun p hlive hoff => h.ready p hlive fun hp => hoff (hsub p hp) }

/-- A process on no queue gets new fields. -/
theorem Inv.setProc (h : Inv off s) (hout : ∀ i, p ∉ (s.rqs i).runList) (hslice : 0 ≤ x.timeSlice)
    (hawake : x.state = .runnable → x.waitState = 0)
    (hready : x.state = .runnable → off p ∨ p = s.idleproc)
    (hidle : p = s.idleproc → x.state ≠ .zombie ∧ x.state ≠ .uninit) : Inv off (s.setProc p x) := by
  have hne : ∀ q i, q ∈ (s.rqs i).runList → q ≠ p := fun q i hq heq => hout i (heq ▸ hq)
  refine ⟨fun q i hq => ?_, fun q hlive hoff hqi hrun => ?_, h.nodup, h.count, h.max,
    fun q hlive => ?_, fun q hlive hrun => ?_, h.current, ⟨h.idle.1, ?_⟩, h.timers, h.owner⟩
  · rw [setProc_of_ne (hne q i hq)]
    exact h.queued q i hq
  · by_cases hqp : q = p
    · subst hqp
      rw [setProc_self] at hrun
      rcases hready hrun with hp | hp
      · exact absurd hp hoff
      · exact absurd hp hqi
    · rw [setProc_of_ne hqp] at hrun
      exact h.ready q hlive hoff hqi hrun
  · by_cases hqp : q = p
    · subst hqp
      rw [setProc_self]
      exact hslice
    · rw [setProc_of_ne hqp]
      exact h.slice q hlive
  · by_cases hqp : q = p
    · subst hqp
      rw [setProc_self] at hrun ⊢
      exact hawake hrun
    · rw [setProc_of_ne hqp] at hrun ⊢
      exact h.awake q hlive hrun
  · show ((s.setProc p x).procs s.idleproc).state ≠ _ ∧ ((s.setProc p x).procs s.idleproc).state ≠ _
    by_cases hip : s.idleproc = p
    · rw [hip, setProc_self]
      exact hidle hip.symm
    · rw [setProc_of_ne hip]
      exact h.idle.2

/-! ## The queues -/

/-- What a call leaves alone. -/
structure Frame (s s' : Sched) : Prop where
  live : s'.live = s.live
  current : s'.current = s.current
  idleproc : s'.idleproc = s.idleproc
  timers : s'.timers = s.timers

theorem Frame.refl (s : Sched) : Frame s s := ⟨rfl, rfl, rfl, rfl⟩

theorem Frame.trans {s'' : Sched} (h : Frame s s') (h' : Frame s' s'') : Frame s s'' :=
  ⟨h'.live.trans h.live, h'.current.trans h.current, h'.idleproc.trans h.idleproc,
    h'.timers.trans h.timers⟩

/-- The lists of processes of the run queues. -/
def lists (s : Sched) (i : Fin 4) : List ℕ := (s.rqs i).runList

theorem one_le_max : ∀ i : Fin 4, (1 : Int) ≤ 8 * 2 ^ i.val := by decide

/-- The process `p` was put at the end of its queue. -/
structure Enqueued (s s' : Sched) (p : ℕ) : Prop extends Frame s s' where
  lists : s'.lists = update s.lists (target (s.procs p))
    (s.lists (target (s.procs p)) ++ [p])
  other : ∀ q, q ≠ p → s'.procs q = s.procs q

/-- **`MLFQ_enqueue`** of a runnable process that is on no queue. -/
theorem Inv.enqueue_spec (h : Inv off s) (hoff : off p) (hlive : s.live p = true)
    (hidle : p ≠ s.idleproc) (hrun : (s.procs p).state = .runnable) :
    ∃ s', s.mlfqEnqueue p = .ok s' ∧ Inv (fun q => off q ∧ q ≠ p) s' ∧ Enqueued s s' p := by
  have hout : ∀ i, p ∉ (s.rqs i).runList := h.notMem (Or.inl hoff)
  have hlinked := not_linked hout
  unfold mlfqEnqueue rrEnqueue
  rw [nextRq_eq, hlinked]
  simp only [Bool.false_eq_true, if_false]
  generalize htarget : target (s.procs p) = n
  refine ⟨_, rfl, ?_, ?_⟩
  · have hpos : 1 ≤ (s.rqs n).maxTimeSlice := by
      rw [h.max]
      exact one_le_max n
    have hslice := h.slice p hlive
    have hnew : ∀ m, (update s.rqs n
        { s.rqs n with
          runList := (s.rqs n).runList ++ [p]
          procNum := (s.rqs n).procNum + 1 } m).maxTimeSlice = (s.rqs m).maxTimeSlice := by
      intro m
      by_cases hm : m = n
      · subst hm
        rw [update_self]
      · rw [update_of_ne hm]
    have hmem : ∀ q m, q ∈ (update s.rqs n
        { s.rqs n with
          runList := (s.rqs n).runList ++ [p]
          procNum := (s.rqs n).procNum + 1 } m).runList ↔
        q ∈ (s.rqs m).runList ∨ q = p ∧ m = n := by
      intro q m
      by_cases hm : m = n
      · subst hm
        rw [update_self]
        simp
      · rw [update_of_ne hm]
        simp [hm]
    refine ⟨fun q m hq => ?_, fun q hqlive hqoff hqi hqrun => ?_, fun m => ?_, fun m => ?_,
      fun m => (hnew m).trans (h.max m), fun q hqlive => ?_, fun q hqlive hqrun => ?_, h.current,
      ⟨h.idle.1, ?_⟩, h.timers, h.owner⟩
    · rw [hnew]
      rcases (hmem q m).mp hq with hq | ⟨rfl, rfl⟩
      · have hqp : q ≠ p := fun heq => hout m (heq ▸ hq)
        obtain ⟨hqoff, hrest⟩ := h.queued q m hq
        simp only [update_of_ne hqp]
        exact ⟨fun hno => hqoff hno.1, hrest⟩
      · simp only [update_self]
        refine ⟨fun hno => hno.2 rfl, hidle, hlive, hrun, trivial, ?_, ?_⟩
        · split <;> omega
        · split <;> omega
    · by_cases hqp : q = p
      · exact ⟨n, (hmem q n).mpr (Or.inr ⟨hqp, rfl⟩)⟩
      · simp only [update_of_ne hqp] at hqrun
        obtain ⟨m, hm⟩ := h.ready q hqlive (fun hno => hqoff ⟨hno, hqp⟩) hqi hqrun
        exact ⟨m, (hmem q m).mpr (Or.inl hm)⟩
    · by_cases hm : m = n
      · subst hm
        simp only [update_self]
        exact List.nodup_append.mpr ⟨h.nodup m, List.nodup_singleton p,
          fun a ha b hb => by
            cases List.mem_singleton.mp hb
            exact fun heq => hout m (heq ▸ ha)⟩
      · simp only [update_of_ne hm]
        exact h.nodup m
    · by_cases hm : m = n
      · subst hm
        simp only [update_self, List.length_append, List.length_singleton]
        rw [h.count]
      · simp only [update_of_ne hm]
        exact h.count m
    · by_cases hqp : q = p
      · subst hqp
        simp only [update_self]
        split <;> omega
      · simp only [update_of_ne hqp]
        exact h.slice q hqlive
    · by_cases hqp : q = p
      · subst hqp
        simp only [update_self] at hqrun ⊢
        exact h.awake q hqlive hqrun
      · simp only [update_of_ne hqp] at hqrun ⊢
        exact h.awake q hqlive hqrun
    · simp only [update_of_ne hidle.symm]
      exact h.idle.2
  · refine ⟨⟨rfl, rfl, rfl, rfl⟩, ?_, fun q hq => update_of_ne hq ..⟩
    rw [htarget]
    funext m
    unfold lists
    by_cases hm : m = n
    · subst hm
      simp only [update_self]
    · simp only [update_of_ne hm]

/-- The head of the first queue that is not empty. -/
def firstOf (l : Fin 4 → List ℕ) : Option ℕ := (List.finRange 4).findSome? fun i => (l i).head?

/-- The process `p`, the head of its queue, was taken out. -/
structure Dequeued (s s' : Sched) (p : ℕ) : Prop extends Frame s s' where
  lists : ∀ i, s'.lists i = (s.lists i).erase p
  procs : s'.procs = s.procs

/-- **`MLFQ_dequeue`** of a process on a queue. -/
theorem Inv.dequeue_spec (h : Inv off s) (hp : p ∈ (s.rqs i).runList) :
    ∃ s', s.mlfqDequeue p = .ok s' ∧ Inv (fun q => off q ∨ q = p) s' ∧ Dequeued s s' p := by
  obtain ⟨hpoff, hpidle, hplive, hprun, hprq, -⟩ := h.queued p i hp
  have hlinked : s.linked p = true := linked_iff.mpr ⟨i, hp⟩
  have hother : ∀ j, j ≠ i → p ∉ (s.rqs j).runList := by
    intro j hji hj
    have hrq := (h.queued p j hj).2.2.2.2.1
    rw [hprq] at hrq
    exact hji (Option.some.inj hrq).symm
  refine ⟨s.rrUnlink i p, ?_, ?_, ⟨⟨rfl, rfl, rfl, rfl⟩, fun j => rfl, rfl⟩⟩
  · simp [mlfqDequeue, rrDequeue, hlinked, hprq]
  · refine ⟨fun q m hq => ?_, fun q hqlive hqoff hqi hqrun => ?_, fun m => (h.nodup m).erase p,
      fun m => ?_, h.max, h.slice, h.awake, h.current, h.idle, h.timers, h.owner⟩
    · have hmem := ((h.nodup m).mem_erase_iff).mp hq
      obtain ⟨hqoff, hrest⟩ := h.queued q m hmem.2
      exact ⟨fun hno => hno.elim hqoff hmem.1, hrest⟩
    · obtain ⟨m, hm⟩ := h.ready q hqlive (fun hno => hqoff (Or.inl hno)) hqi hqrun
      exact ⟨m, ((h.nodup m).mem_erase_iff).mpr ⟨fun heq => hqoff (Or.inr heq), hm⟩⟩
    · show (if m = i then (s.rqs m).procNum - 1 else (s.rqs m).procNum) =
        ((s.rqs m).runList.erase p).length
      by_cases hm : m = i
      · subst hm
        rw [if_pos rfl, List.length_erase_of_mem hp, h.count]
      · rw [if_neg hm, List.erase_of_not_mem (hother m hm), h.count]

/-! ## `wakeup_proc` -/

/-- What `wakeup_proc` did: nothing to a runnable process; `current` is runnable again; another
process is at the end of its queue. -/
inductive Woken (s : Sched) (p : ℕ) : Sched → Prop where
  | already : (s.procs p).state = .runnable → Woken s p s
  | current : (s.procs p).state ≠ .runnable → p = s.current ∨ p = s.idleproc →
      Woken s p (s.setProc p { s.procs p with state := .runnable, waitState := 0 })
  | queued {s' : Sched} : (s.procs p).state ≠ .runnable → p ≠ s.current → p ≠ s.idleproc →
      Enqueued (s.setProc p { s.procs p with state := .runnable, waitState := 0 }) s' p →
      Woken s p s'

theorem Woken.frame (h : Woken s p s') : Frame s s' := by
  cases h with
  | already _ => exact .refl s
  | current _ _ => exact ⟨rfl, rfl, rfl, rfl⟩
  | queued _ _ _ henq => exact ⟨henq.live, henq.current, henq.idleproc, henq.timers⟩

/-- Processes came into the queues, each at the queue `target` of its fields, and none left. -/
structure Moved (s s' : Sched) : Prop where
  stay : ∀ p j, p ∈ s.lists j → p ∈ s'.lists j
  place : ∀ p j, p ∈ s'.lists j → p ∈ s.lists j ∨ j = target (s.procs p) ∧ ∀ i, p ∉ s.lists i
  keep : ∀ p, (∀ i, p ∉ s'.lists i) → target (s'.procs p) = target (s.procs p)

theorem Moved.refl (s : Sched) : Moved s s := ⟨fun _ _ => id, fun _ _ => Or.inl, fun _ _ => rfl⟩

theorem Moved.trans {s'' : Sched} (h : Moved s s') (h' : Moved s' s'') : Moved s s'' := by
  refine ⟨fun p j hp => h'.stay p j (h.stay p j hp), fun p j hp => ?_, fun p hp => ?_⟩
  · rcases h'.place p j hp with hp | ⟨hj, hout⟩
    · exact h.place p j hp
    · right
      exact ⟨hj.trans (h.keep p hout), fun i hi => hout i (h.stay p i hi)⟩
  · have hout : ∀ i, p ∉ s'.lists i := fun i hi => hp i (h'.stay p i hi)
    exact (h'.keep p hp).trans (h.keep p hout)

theorem mem_update_append {l : Fin 4 → List ℕ} :
    q ∈ update l i (l i ++ [p]) j ↔ q ∈ l j ∨ q = p ∧ j = i := by
  by_cases hj : j = i
  · subst hj
    simp
  · simp [hj]

theorem Woken.moved (h : Woken s p s') (hout : (s.procs p).state ≠ .runnable → ∀ i, p ∉ s.lists i) :
    Moved s s' := by
  cases h with
  | already _ => exact .refl s
  | current hrun _ =>
    refine ⟨fun _ _ => id, fun _ _ => Or.inl, fun q _ => ?_⟩
    by_cases hqp : q = p
    · subst hqp
      rw [setProc_self]
      rfl
    · rw [setProc_of_ne hqp]
  | queued hrun _ _ henq =>
    have hlists := henq.lists
    rw [setProc_self] at hlists
    have hmem : ∀ q j, q ∈ s'.lists j ↔ q ∈ s.lists j ∨ q = p ∧ j = target (s.procs p) := by
      intro q j
      rw [hlists]
      exact mem_update_append
    refine ⟨fun q j hq => (hmem q j).mpr (Or.inl hq), fun q j hq => ?_, fun q hq => ?_⟩
    · rcases (hmem q j).mp hq with hq | ⟨rfl, hj⟩
      · exact Or.inl hq
      · exact Or.inr ⟨hj, hout hrun⟩
    · have hqp : q ≠ p := fun heq => hq _ ((hmem q _).mpr (Or.inr ⟨heq, rfl⟩))
      rw [henq.other q hqp, setProc_of_ne hqp]

/-- **`wakeup_proc`** fails its assertion, or wakes the process. -/
theorem Inv.wakeup_spec (h : Settled s) (hlive : s.live p = true) :
    s.wakeupProc p = .error .zombie ∨ ∃ s', s.wakeupProc p = .ok s' ∧ Settled s' ∧ Woken s p s' := by
  unfold wakeupProc
  by_cases hzombie : (s.procs p).state = .zombie
  · rw [if_pos hzombie]
    exact Or.inl rfl
  right
  rw [if_neg hzombie]
  by_cases hrun : (s.procs p).state = .runnable
  · rw [if_neg (not_not.mpr hrun)]
    exact ⟨s, rfl, h, .already hrun⟩
  rw [if_pos hrun]
  have hout := h.notMem (p := p) (Or.inr (Or.inr (Or.inr hrun)))
  have hslice := h.slice p hlive
  -- the process is runnable, and still on no queue
  have h₁ : Inv (fun q => q = s.current ∨ q = p)
      (s.setProc p { s.procs p with state := .runnable, waitState := 0 }) := by
    refine (h.weaken (fun q hq => Or.inl hq) ?_).setProc hout hslice (fun _ => rfl)
      (fun _ => Or.inl (Or.inr rfl)) fun _ => ⟨nofun, nofun⟩
    rintro q (hq | rfl) i
    · exact h.notMem (Or.inl hq) i
    · exact hout i
  by_cases hcur : p = s.current
  · simp only [setProc_current, ne_eq, hcur, not_true_eq_false, if_false]
    refine ⟨_, rfl, ?_, ?_⟩
    · rw [← hcur]
      refine h₁.weaken ?_ fun q hq i => h₁.notMem (Or.inl (Or.inl hq)) i
      rintro q (hq | hq)
      · exact hq
      · exact hq.trans hcur
    · rw [← hcur]
      exact .current hrun (Or.inl hcur)
  simp only [setProc_current, ne_eq, hcur, not_false_eq_true, if_true]
  unfold schedClassEnqueue
  by_cases hidle : p = s.idleproc
  · simp only [setProc_idleproc, ne_eq, hidle, not_true_eq_false, if_false]
    rw [← hidle]
    refine ⟨_, rfl, ?_, .current hrun (Or.inr hidle)⟩
    refine { h₁ with
      queued := fun q i hq => ⟨fun hno => ?_, (h₁.queued q i hq).2⟩
      ready := fun q hqlive hqoff hqi => h₁.ready q hqlive ?_ hqi }
    · exact (h₁.queued q i hq).1 (Or.inl hno)
    · rintro (hq | hq)
      · exact hqoff hq
      · exact hqi (hq.trans hidle)
  · simp only [setProc_idleproc, ne_eq, hidle, not_false_eq_true, if_true]
    obtain ⟨s', hrun', hinv, henq⟩ := h₁.enqueue_spec (p := p) (Or.inr rfl) hlive hidle (by simp)
    refine ⟨s', hrun', ?_, .queued hrun hcur hidle henq⟩
    have hcur' : s'.current = s.current := henq.current
    refine { hinv with
      queued := fun q i hq => ⟨fun hno => ?_, (hinv.queued q i hq).2⟩
      ready := fun q hqlive hqoff hqi => hinv.ready q hqlive ?_ hqi }
    · have hno : q = s.current := hno.trans hcur'
      exact (hinv.queued q i hq).1 ⟨Or.inl hno, fun hqp => hcur (hqp.symm.trans hno)⟩
    · rintro ⟨hq | hq, hqp⟩
      · exact hqoff (hq.trans hcur'.symm)
      · exact hqp hq

/-! ## `schedule` -/

/-- The queues once `current` has gone back to one of them, if it still wants to run. -/
def requeued (s : Sched) : Fin 4 → List ℕ :=
  if (s.procs s.current).state = .runnable ∧ s.current ≠ s.idleproc then
    update s.lists (target (s.procs s.current))
      (s.lists (target (s.procs s.current)) ++ [s.current])
  else s.lists

/-- A process that needs no exception, since it is not runnable or is `idleproc`. -/
theorem Inv.drop (h : Inv (fun q => q = p) s)
    (hp : (s.procs p).state ≠ .runnable ∨ p = s.idleproc) : Inv (fun _ => False) s :=
  { h with
    queued := fun q i hq => ⟨id, (h.queued q i hq).2⟩
    ready := fun q hlive _ hqi hrun => by
      refine h.ready q hlive (fun hqp => ?_) hqi hrun
      subst hqp
      exact hp.elim (fun hno => hno hrun) hqi }

theorem Inv.putBack_spec (h : Settled s) :
    ∃ s', s.putBack = .ok s' ∧ Inv (fun _ => False) s' ∧ Frame s s' ∧ s'.lists = s.requeued := by
  have hout := h.notMem (p := s.current) (Or.inl rfl)
  have hidle : s.current = s.idleproc → (s.procs s.current).state ≠ .zombie ∧
      (s.procs s.current).state ≠ .uninit := fun heq => by
    rw [heq]
    exact h.idle.2
  have h₁ : Settled (s.setProc s.current { s.procs s.current with needResched := false }) :=
    h.setProc hout (h.slice _ h.current) (h.awake _ h.current) (fun _ => Or.inl rfl) hidle
  have hstate : ((s.setProc s.current { s.procs s.current with needResched := false }).procs
      s.current).state = (s.procs s.current).state := by rw [setProc_self]
  unfold putBack requeued
  simp only [setProc_current, hstate]
  by_cases hrun : (s.procs s.current).state = .runnable
  · rw [if_pos hrun]
    unfold schedClassEnqueue
    rw [setProc_idleproc]
    by_cases hcur : s.current = s.idleproc
    · rw [if_neg (not_not.mpr hcur), if_neg fun hno => hno.2 hcur]
      exact ⟨_, rfl, Inv.drop (p := s.current) h₁ (Or.inr hcur), ⟨rfl, rfl, rfl, rfl⟩, rfl⟩
    · rw [if_pos hcur, if_pos ⟨hrun, hcur⟩]
      obtain ⟨s', henq, hinv, hto⟩ := h₁.enqueue_spec (p := s.current) rfl h.current hcur
        (hstate.trans hrun)
      refine ⟨s', henq, ?_, ⟨hto.live, hto.current, hto.idleproc, hto.timers⟩, ?_⟩
      · exact hinv.weaken (fun q hq => hq.2 hq.1) nofun
      · rw [hto.lists, setProc_self]
        rfl
  · rw [if_neg hrun, if_neg fun hno => hrun hno.1]
    refine ⟨_, rfl, Inv.drop (p := s.current) h₁ (Or.inl ?_), ⟨rfl, rfl, rfl, rfl⟩, rfl⟩
    rw [hstate]
    exact hrun

/-- The processor goes to a process on no queue. -/
theorem Inv.switchTo (h : Inv (fun q => q = p) s) (hlive : s.live p = true) :
    Settled (s.switchTo p) := by
  have hout := h.notMem (p := p) (Or.inl rfl)
  have hidle : p = s.idleproc → (s.procs p).state ≠ .zombie ∧ (s.procs p).state ≠ .uninit :=
    fun heq => by
      rw [heq]
      exact h.idle.2
  have h₁ := h.setProc (x := { s.procs p with runs := (s.procs p).runs + 1 }) hout
    (h.slice p hlive) (h.awake p hlive) (fun _ => Or.inl rfl) hidle
  exact { h₁ with current := hlive }

theorem firstOf_mem {l : Fin 4 → List ℕ} (h : firstOf l = some p) : ∃ i, p ∈ l i := by
  obtain ⟨i, -, hi⟩ := List.exists_of_findSome?_eq_some h
  exact ⟨i, List.mem_of_mem_head? hi⟩

theorem firstOf_none {l : Fin 4 → List ℕ} (h : firstOf l = none) (i : Fin 4) : l i = [] := by
  have hi := List.findSome?_eq_none_iff.mp h i (List.mem_finRange i)
  exact List.head?_eq_none_iff.mp hi

/-- **`schedule`** runs the head of the first queue that is not empty, or `idleproc`. -/
theorem Inv.schedule_spec (h : Settled s) :
    ∃ s', s.schedule = .ok s' ∧ Settled s' ∧
      s'.current = (firstOf s.requeued).getD s.idleproc ∧
      (∀ i, s'.lists i = (s.requeued i).erase s'.current) ∧
      s'.live = s.live ∧ s'.idleproc = s.idleproc ∧ s'.timers = s.timers := by
  obtain ⟨s₁, hput, h₁, hframe, hlists⟩ := h.putBack_spec
  have hpick : s₁.mlfqPickNext = firstOf s.requeued := by
    rw [← hlists]
    rfl
  unfold schedule
  rw [hput]
  show ∃ s', s₁.pickNext = .ok s' ∧ _
  unfold pickNext
  rw [hpick]
  cases hfirst : firstOf s.requeued with
  | none =>
    have hempty : ∀ i, s.requeued i = [] := firstOf_none hfirst
    have hidle : Inv (fun q => q = s₁.idleproc) s₁ := by
      refine h₁.weaken nofun ?_
      rintro q rfl i
      exact h₁.notMem (Or.inr (Or.inl rfl)) i
    refine ⟨_, rfl, hidle.switchTo h₁.idle.1, hframe.idleproc, fun i => ?_, hframe.live,
      hframe.idleproc, hframe.timers⟩
    have hi : s₁.lists i = [] := by rw [hlists, hempty]
    show s₁.lists i = _
    rw [hi, hempty]
    rfl
  | some next =>
    obtain ⟨i, hi⟩ := firstOf_mem hfirst
    rw [← hlists] at hi
    obtain ⟨s₂, hdeq, h₂, hout⟩ := h₁.dequeue_spec hi
    have hlive : s₂.live next = true := by
      rw [hout.live]
      exact (h₁.queued next i hi).2.2.1
    have h₂' : Inv (fun q => q = next) s₂ :=
      h₂.weaken (fun q hq => hq.elim False.elim id) fun q hq j => h₂.notMem (Or.inl (Or.inr hq)) j
    refine ⟨s₂.switchTo next, ?_, h₂'.switchTo hlive, rfl, fun j => ?_,
      hout.live.trans hframe.live, hout.idleproc.trans hframe.idleproc,
      hout.timers.trans hframe.timers⟩
    · show (s₁.mlfqDequeue next).bind _ = _
      rw [hdeq]
      rfl
    · show s₂.lists j = _
      rw [hout.lists, hlists]
      rfl

/-! ## The other steps -/

/-- Only the clock and `current`: a woken process may be a zombie or in a wait that nothing may
interrupt, which two assertions outside the queues catch. -/
theorem Inv.timerWakes_spec : ∀ (ps : List ℕ) (s : Sched), Settled s →
    (∀ p ∈ ps, s.live p = true) →
    timerWakes ps s = .error .zombie ∨ timerWakes ps s = .error .waitState ∨
      ∃ s', timerWakes ps s = .ok s' ∧ Settled s' ∧ Frame s s' ∧ Moved s s' := by
  intro ps
  induction ps with
  | nil => exact fun s h _ => Or.inr (Or.inr ⟨s, rfl, h, .refl s, .refl s⟩)
  | cons p rest ih =>
    intro s h hlive
    unfold timerWakes timerWake
    by_cases hwait : (s.procs p).waitState ≠ 0 ∧ (s.procs p).waitState &&& WT_INTERRUPTED = 0
    · rw [if_pos hwait]
      exact Or.inr (Or.inl rfl)
    rw [if_neg hwait]
    rcases h.wakeup_spec (hlive p List.mem_cons_self) with herr | ⟨s₁, hrun, h₁, hwoken⟩
    · rw [herr]
      exact Or.inl rfl
    · rw [hrun]
      have hframe := hwoken.frame
      have hmoved := hwoken.moved fun hno => h.notMem (Or.inr (Or.inr (Or.inr hno)))
      have hlive₁ : ∀ q ∈ rest, s₁.live q = true := fun q hq => by
        rw [hframe.live]
        exact hlive q (List.mem_cons_of_mem p hq)
      rcases ih s₁ h₁ hlive₁ with herr | herr | ⟨s', hrest, h', hframe', hmoved'⟩
      · exact Or.inl herr
      · exact Or.inr (Or.inl herr)
      · exact Or.inr (Or.inr ⟨s', hrest, h', hframe.trans hframe', hmoved.trans hmoved'⟩)

theorem Inv.setCurrent (h : Settled s) (hslice : 0 ≤ x.timeSlice)
    (hawake : x.state = .runnable → x.waitState = 0)
    (hidle : s.current = s.idleproc → x.state ≠ .zombie ∧ x.state ≠ .uninit) :
    Settled (s.setProc s.current x) :=
  h.setProc (h.notMem (Or.inl rfl)) hslice hawake (fun _ => Or.inl rfl) hidle

theorem Inv.idleState (h : Inv off s) (hp : p = s.idleproc) :
    (s.procs p).state ≠ .zombie ∧ (s.procs p).state ≠ .uninit := by
  rw [hp]
  exact h.idle.2

/-- `sched_class_proc_tick` of `current`. -/
theorem Inv.procTick (h : Settled s) : Settled (s.schedClassProcTick s.current) := by
  have hslice := h.slice _ h.current
  have hawake := h.awake _ h.current
  unfold schedClassProcTick rrProcTick
  split
  · refine h.setCurrent ?_ ?_ ?_
    · split <;> split <;>
        first | omega | (show 0 ≤ (s.procs s.current).timeSlice - 1; omega)
    · split <;> split <;> exact hawake
    · intro hidle
      have := h.idleState hidle
      split <;> split <;> exact this
  · exact h.setCurrent hslice hawake h.idleState

theorem lists_procTick (p : ℕ) : (s.schedClassProcTick p).lists = s.lists := by
  unfold schedClassProcTick rrProcTick
  split <;> rfl

theorem Inv.setTimers {t : Timers} (h : Inv off s) (ht : t.Inv)
    (howner : ∀ i ∈ t.list, ∀ p, t.proc i = some p → s.live p = true) :
    Inv off { s with timers := t } :=
  { h with timers := ht, owner := howner }

/-- **`run_timer_list`**. -/
theorem Inv.tick_spec (h : Settled s) :
    s.runTimerList = .error .zombie ∨ s.runTimerList = .error .waitState ∨
      ∃ s', s.runTimerList = .ok s' ∧ Settled s' ∧ ∀ p j, p ∈ s'.lists j →
        p ∈ s.lists j ∨ j = target (s.procs p) ∧ ∀ i, p ∉ s.lists i := by
  obtain ⟨woken, t, hrun, hmem, -, hwoken⟩ := h.timers.run_refines
  obtain ⟨t', hrun', ht, hproc, -⟩ := h.timers.run_spec
  cases hrun.symm.trans hrun'
  have h₁ : Settled { s with timers := t } := by
    refine h.setTimers ht fun i hi p hp => ?_
    rw [hproc] at hp
    exact h.owner i ((hmem i).mp hi).1 p hp
  have hlive : ∀ p ∈ s.timers.due, s.live p = true := by
    intro p hp
    rw [hwoken] at hp
    obtain ⟨i, hi, hip⟩ := List.mem_filterMap.mp hp
    exact h.owner i (List.mem_filter.mp hi).1 p hip
  unfold runTimerList
  rw [hrun]
  rcases Inv.timerWakes_spec _ _ h₁ hlive with herr | herr | ⟨s', hrest, h', -, hmoved⟩
  · left
    simp only [herr]
    rfl
  · right; left
    simp only [herr]
    rfl
  · right; right
    simp only [hrest]
    refine ⟨_, rfl, h'.procTick, fun p j hp => ?_⟩
    rw [lists_procTick] at hp
    exact hmoved.place p j hp

/-- `do_fork` with a new `proc_struct`; its assertions hold. -/
theorem Inv.fork_spec {c : ℕ} (h : Settled s) (hc : s.live c = false)
    (hrun : (s.procs s.current).state = .runnable) :
    ∃ s', s.doFork c = .ok s' ∧ Settled s' ∧ s'.lists = s.lists := by
  have hslice := h.slice _ h.current
  have hwait := h.awake _ h.current hrun
  have hout := h.notMem (p := c) (Or.inr (Or.inr (Or.inl hc)))
  have hne : s.current ≠ c := fun heq => by
    have := h.current
    rw [heq, hc] at this
    cases this
  have hci : c ≠ s.idleproc := fun heq => by
    have := h.idle.1
    rw [← heq, hc] at this
    cases this
  have hhalf : 0 ≤ (s.procs s.current).timeSlice.tdiv 2 ∧
      (s.procs s.current).timeSlice.tdiv 2 ≤ (s.procs s.current).timeSlice := by
    rw [Int.tdiv_eq_ediv_of_nonneg hslice]
    omega
  unfold doFork
  dsimp only
  rw [if_neg (by rw [hwait]; simp; exact hslice)]
  refine ⟨_, rfl, ?_, rfl⟩
  generalize (s.procs s.current).timeSlice.tdiv 2 = half at hhalf ⊢
  -- the new `proc_struct` is not runnable yet
  have h₁ : Settled (s.setProc c { allocProc with timeSlice := half }) :=
    h.setProc hout hhalf.1 nofun nofun fun heq => absurd heq hci
  have h₂ : Settled
      { s.setProc c { allocProc with timeSlice := half } with
        live := update s.live c true } := by
    have hlive : ∀ q, q ≠ c → update s.live c true q = s.live q :=
      fun q hq => update_of_ne hq ..
    refine { h₁ with queued := fun q i hq => ?_, ready := fun q hq hoff hqi hqrun => ?_, slice := fun q hq => ?_,
                     awake := fun q hq hqrun => ?_, current := ?_, idle := ⟨?_, h₁.idle.2⟩,
                     owner := fun i hi q hq => ?_ }
    · obtain ⟨ha, hb, hlv, hd⟩ := h₁.queued q i hq
      exact ⟨ha, hb, by
        show update s.live c true q = true
        rw [hlive q fun heq => hout i (heq ▸ hq)]
        exact hlv, hd⟩
    · by_cases hqc : q = c
      · subst hqc
        simp [allocProc] at hqrun
      · refine h₁.ready q ?_ hoff hqi hqrun
        exact (hlive q hqc).symm.trans hq
    · by_cases hqc : q = c
      · subst hqc
        show 0 ≤ ((s.setProc q _).procs q).timeSlice
        rw [setProc_self]
        exact hhalf.1
      · refine h₁.slice q ?_
        exact (hlive q hqc).symm.trans hq
    · by_cases hqc : q = c
      · subst hqc
        simp [allocProc] at hqrun
      · refine h₁.awake q ?_ hqrun
        exact (hlive q hqc).symm.trans hq
    · show update s.live c true s.current = true
      rw [hlive _ hne]
      exact h.current
    · show update s.live c true s.idleproc = true
      rw [hlive _ hci.symm]
      exact h.idle.1
    · show update s.live c true q = true
      have hlv := h.owner i hi q hq
      by_cases hqc : q = c
      · rw [hqc, update_self]
      · rw [hlive q hqc]
        exact hlv
  exact h₂.setCurrent (by show 0 ≤ _ - half; omega) (fun _ => hwait) h.idleState

theorem Inv.free_spec (h : Settled s) (henabled : s.Enabled (.free p)) : Settled (s.free p) := by
  obtain ⟨hp, hcur, hstate, htimers⟩ := henabled
  have hidle : p ≠ s.idleproc := by
    rintro rfl
    rcases hstate with hst | hst
    · exact h.idle.2.1 hst
    · exact h.idle.2.2 hst
  have hlive : ∀ q, q ≠ p → update s.live p false q = s.live q :=
    fun q hq => update_of_ne hq ..
  have hof : ∀ q, update s.live p false q = true → s.live q = true := by
    intro q hq
    by_cases hqp : q = p
    · rw [hqp, update_self] at hq
      cases hq
    · rw [← hlive q hqp]
      exact hq
  refine { h with queued := fun q i hq => ?_, ready := fun q hq => h.ready q (hof q hq),
                  slice := fun q hq => h.slice q (hof q hq), awake := fun q hq => h.awake q (hof q hq),
                  current := ?_, idle := ⟨?_, h.idle.2⟩, owner := fun i hi q hq => ?_ }
  · obtain ⟨ha, hb, hlv, hrun, hd⟩ := h.queued q i hq
    refine ⟨ha, hb, ?_, hrun, hd⟩
    show update s.live p false q = true
    rw [hlive q, hlv]
    rintro rfl
    rw [hrun] at hstate
    rcases hstate with hst | hst <;> cases hst
  · show update s.live p false s.current = true
    rw [hlive _ (Ne.symm hcur)]
    exact h.current
  · show update s.live p false s.idleproc = true
    rw [hlive _ (Ne.symm hidle)]
    exact h.idle.1
  · show update s.live p false q = true
    rw [hlive q fun hqp => htimers i hi (hqp ▸ hq)]
    exact h.owner i hi q hq

theorem Inv.addTimer_spec {i : ℕ} {expires : UInt32} (h : Settled s) (hout : i ∉ s.timers.list)
    (hexpires : expires ≠ 0) : ∃ s', s.addTimer i expires = .ok s' ∧ Settled s' ∧ s'.lists = s.lists := by
  obtain ⟨hinit, -⟩ := h.timers.init hout s.current expires
  obtain ⟨t, hadd, ht, hproc, -⟩ := hinit.add_spec (i := i) hout
    (by
      show update s.timers.expires i expires i ≠ 0
      rw [update_self]
      exact hexpires)
    (by
      show update s.timers.proc i (some s.current) i ≠ none
      rw [update_self]
      nofun)
  obtain ⟨t', hadd', -, -, hmem⟩ := h.timers.add_refines (p := s.current) hout hexpires
  cases hadd.symm.trans hadd'
  unfold Sched.addTimer
  rw [hadd]
  refine ⟨_, rfl, h.setTimers ht fun j hj p hp => ?_, rfl⟩
  rw [hproc] at hp
  have hp : update s.timers.proc i (some s.current) j = some p := hp
  by_cases hji : j = i
  · rw [hji, update_self] at hp
    cases hp
    exact h.current
  · rw [update_of_ne hji] at hp
    exact h.owner j (((hmem j hji).1).mp hj) p hp

theorem Inv.delTimer_spec (h : Settled s) (i : ℕ) : Settled (s.delTimer i) := by
  obtain ⟨ht, hproc, -⟩ := h.timers.del_spec i
  refine h.setTimers ht fun j hj p hp => ?_
  rw [hproc] at hp
  refine h.owner j ?_ p hp
  by_cases hi : i ∈ s.timers.list
  · rw [(h.timers.deleted hi).list] at hj
    exact List.mem_of_mem_erase hj
  · rwa [show s.timers.delTimer i = s.timers from if_neg hi] at hj

/-! ## Every reachable state -/

/-- What is new in a queue is in the queue `target` of its fields. -/
def Placed (s s' : Sched) : Prop :=
  ∀ p j, p ∈ s'.lists j → p ∈ s.lists j ∨ j = target (s.procs p) ∧ ∀ i, p ∉ s.lists i

theorem Placed.of_lists (h : s'.lists = s.lists) : Placed s s' := fun p j hp => by
  rw [h] at hp
  exact Or.inl hp

theorem Inv.schedule_placed (h : Settled s)
    (hlists : ∀ i, s'.lists i = (s.requeued i).erase s'.current) : Placed s s' := by
  intro p j hp
  rw [hlists] at hp
  have hp := List.mem_of_mem_erase hp
  unfold requeued at hp
  split at hp
  · rcases mem_update_append.mp hp with hp | ⟨rfl, hj⟩
    · exact Or.inl hp
    · exact Or.inr ⟨hj, h.notMem (Or.inl rfl)⟩
  · exact Or.inl hp

/-- One step; the assertions that may fail are not about queues. -/
theorem Inv.step_spec (h : Settled s) {a : Action} (henabled : s.Enabled a) :
    (s.step a = .error .zombie ∨ s.step a = .error .waitState) ∨
      ∃ s', s.step a = .ok s' ∧ Settled s' ∧ Placed s s' := by
  cases a with
  | wakeup p =>
    rcases h.wakeup_spec henabled with herr | ⟨s', hrun, hinv, hwoken⟩
    · exact Or.inl (Or.inl herr)
    · have hmoved := hwoken.moved fun hno => h.notMem (Or.inr (Or.inr (Or.inr hno)))
      exact Or.inr ⟨s', hrun, hinv, hmoved.place⟩
  | schedule =>
    obtain ⟨s', hrun, hinv, -, hlists, -⟩ := h.schedule_spec
    exact Or.inr ⟨s', hrun, hinv, h.schedule_placed hlists⟩
  | tick =>
    rcases h.tick_spec with herr | herr | hok
    · exact Or.inl (Or.inl herr)
    · exact Or.inl (Or.inr herr)
    · exact Or.inr hok
  | fork c =>
    obtain ⟨s', hrun, hinv, hlists⟩ := h.fork_spec henabled.1 henabled.2
    exact Or.inr ⟨s', hrun, hinv, .of_lists hlists⟩
  | yield =>
    right
    refine ⟨_, rfl, ?_, .of_lists rfl⟩
    exact h.setCurrent (h.slice _ h.current) (h.awake _ h.current) h.idleState
  | block waitState =>
    right
    refine ⟨_, rfl, ?_, .of_lists rfl⟩
    exact h.setCurrent (h.slice _ h.current) nofun fun _ => ⟨nofun, nofun⟩
  | exit =>
    right
    refine ⟨_, rfl, ?_, .of_lists rfl⟩
    exact h.setCurrent (h.slice _ h.current) nofun fun heq => absurd heq henabled.2
  | free p => exact Or.inr ⟨_, rfl, h.free_spec henabled, .of_lists rfl⟩
  | addTimer i expires =>
    obtain ⟨s', hrun, hinv, hlists⟩ := h.addTimer_spec henabled.1 henabled.2
    exact Or.inr ⟨s', hrun, hinv, .of_lists hlists⟩
  | delTimer i => exact Or.inr ⟨_, rfl, h.delTimer_spec i, .of_lists rfl⟩

end Sched

open Sched

theorem boot_settled (idle : ℕ) (procs : ℕ → Proc) (expires : ℕ → UInt32) (proc : ℕ → Option ℕ) :
    Settled (boot idle procs expires proc) := by
  have hlive : ∀ p, (boot idle procs expires proc).live p = true → p = idle := by
    intro p hp
    by_contra hne
    have hp : update (fun _ => false) idle true p = true := hp
    rw [update_of_ne hne] at hp
    cases hp
  have hself : (boot idle procs expires proc).procs idle =
      { Sched.allocProc with state := .runnable, needResched := true } := update_self ..
  have hidle : (boot idle procs expires proc).live idle = true := by simp [boot]
  refine ⟨fun p i hp => absurd hp List.not_mem_nil, fun p hp hoff => absurd (hlive p hp) hoff,
    fun _ => List.nodup_nil, fun _ => rfl, fun _ => rfl, fun p hp => ?_, fun p hp _ => ?_,
    hidle, ⟨hidle, ?_⟩, Timers.schedInit_inv _ _,
    fun i hi => absurd hi List.not_mem_nil⟩
  · rw [hlive p hp, hself]
    exact le_refl 0
  · rw [hlive p hp, hself]
    rfl
  · show ((boot idle procs expires proc).procs idle).state ≠ _ ∧
      ((boot idle procs expires proc).procs idle).state ≠ _
    rw [hself]
    exact ⟨nofun, nofun⟩

theorem Reachable.settled {s : Sched} (h : Reachable s) : Settled s := by
  induction h with
  | boot idle procs expires proc => exact boot_settled idle procs expires proc
  | step a _ henabled hstep ih =>
    rcases ih.step_spec henabled with (herr | herr) | ⟨s', hok, hinv, -⟩
    · rw [hstep] at herr
      cases herr
    · rw [hstep] at herr
      cases herr
    · rw [hstep] at hok
      cases hok
      exact hinv

/-- The run queues of a state, and what the calls of the scheduler do to them. -/
structure RunQueueInvariant (s : Sched) : Prop where
  /-- on exactly one queue iff runnable -/
  queued : ∀ p, s.live p = true → p ≠ s.current → p ≠ s.idleproc →
    ((s.procs p).state = .runnable ↔ ∃! i, p ∈ (s.rqs i).runList)
  named : ∀ p i, p ∈ (s.rqs i).runList → (s.procs p).rq = some i
  once : ∀ i, (s.rqs i).runList.Nodup
  off : ∀ p i, p = s.current ∨ p = s.idleproc ∨ (s.procs p).state ≠ .runnable ∨ s.live p = false →
    p ∉ (s.rqs i).runList
  procNum : ∀ i, (s.rqs i).procNum = (s.rqs i).runList.length
  timeSlice : ∀ p i, p ∈ (s.rqs i).runList →
    1 ≤ (s.procs p).timeSlice ∧ (s.procs p).timeSlice ≤ (s.rqs i).maxTimeSlice
  /-- `schedule` runs the head of the first queue that is not empty, or `idleproc` -/
  schedule : ∃ s', s.schedule = .ok s' ∧ s'.current = (firstOf s.requeued).getD s.idleproc ∧
    ∀ i, s'.lists i = (s.requeued i).erase s'.current
  /-- one queue further down with no time slice left, else the first queue -/
  target : ∀ a s', s.Enabled a → s.step a = .ok s' → Placed s s'
  asserts : ∀ a, s.Enabled a → s.step a ≠ .error .runLink ∧ s.step a ≠ .error .rq

/-- **The run queues**, in every state that is reached from boot. -/
theorem run_queue_invariant {s : Sched} (h : Reachable s) : RunQueueInvariant s := by
  have hinv := h.settled
  refine ⟨fun p hlive hcur hidle => ⟨fun hrun => ?_, ?_⟩, fun p i hp => ?_, hinv.nodup,
    fun p i hp => ?_, hinv.count, fun p i hp => ?_, ?_, fun a s' henabled hok => ?_,
    fun a henabled => ?_⟩
  · obtain ⟨i, hi⟩ := hinv.ready p hlive hcur hidle hrun
    refine ⟨i, hi, fun j hj => ?_⟩
    have hrqi := (hinv.queued p i hi).2.2.2.2.1
    have hrqj := (hinv.queued p j hj).2.2.2.2.1
    exact Option.some.inj (hrqj.symm.trans hrqi)
  · rintro ⟨i, hi, -⟩
    exact (hinv.queued p i hi).2.2.2.1
  · exact (hinv.queued p i hp).2.2.2.2.1
  · rcases hp with hp | hp | hp | hp
    · exact hinv.notMem (Or.inl hp) i
    · exact hinv.notMem (Or.inr (Or.inl hp)) i
    · exact hinv.notMem (Or.inr (Or.inr (Or.inr hp))) i
    · exact hinv.notMem (Or.inr (Or.inr (Or.inl hp))) i
  · exact (hinv.queued p i hp).2.2.2.2.2
  · obtain ⟨s', hok, -, hcur, hlists, -⟩ := hinv.schedule_spec
    exact ⟨s', hok, hcur, hlists⟩
  · rcases hinv.step_spec henabled with (herr | herr) | ⟨t, hok', -, hplaced⟩
    · rw [hok] at herr
      cases herr
    · rw [hok] at herr
      cases herr
    · rw [hok] at hok'
      cases hok'
      exact hplaced
  · rcases hinv.step_spec henabled with (herr | herr) | ⟨t, hok, -⟩
    · rw [herr]
      exact ⟨nofun, nofun⟩
    · rw [herr]
      exact ⟨nofun, nofun⟩
    · rw [hok]
      exact ⟨nofun, nofun⟩

theorem Reachable.run : ∀ {as : List Action} {s s' : Sched}, Reachable s → s.run as = some s' → Reachable s'
  | [], s, s', h, hrun => by
    cases hrun
    exact h
  | a :: as, s, s', h, hrun => by
    unfold Sched.run at hrun
    split at hrun
    · rename_i henabled
      obtain ⟨t, hstep, hrun⟩ := Option.bind_eq_some_iff.mp hrun
      cases hok : s.step a with
      | error => rw [hok] at hstep; cases hstep
      | ok u =>
        rw [hok] at hstep
        cases hstep
        exact (h.step a henabled hok).run hrun
    · cases hrun

/-- The first of two processes uses up its slice, and waits in the second queue while the other one runs. -/
theorem run_queue_invariant_demoted : ∃ s, Reachable s ∧
    (s.current, (s.rqs 0).runList, (s.rqs 1).runList) = (2, [], [1]) ∧ RunQueueInvariant s := by
  have hrun : ((boot 0 (fun _ => Sched.allocProc) (fun _ => 0) fun _ => none).run
      ([.fork 1, .fork 2, .wakeup 1, .wakeup 2, .schedule] ++ List.replicate 8 .tick ++ [.schedule])).map
        (fun s => (s.current, (s.rqs 0).runList, (s.rqs 1).runList)) = some (2, [], [1]) := by decide +kernel
  obtain ⟨s, hs, heq⟩ := Option.map_eq_some_iff.mp hrun
  have h := (Reachable.boot _ _ _ _).run hs
  exact ⟨s, h, heq, run_queue_invariant h⟩

end Ucore.Mlfq
