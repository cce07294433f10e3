import Ucore.Pipe.PipeInv

/-!
# Pipes: no lost wake-up

A process is in the reader queue only while the pipe is empty and open, and in the writer queue only while it
is full and open: every change to the pipe empties the queue that waits for it.

* `Waited` — the invariant, and what a read, a write and a close do to it;
* `no_lost_wakeup` — the result for every run.
-/

namespace Ucore.Pipes

open Waits (Kern)

variable {s s' : Pipe} {e : Event} {p n w ret : ℕ} {q : Queue} {buf : List UInt8}

/-- A queue that somebody is in is one with a reason to wait. -/
structure Waited (s : Pipe) : Prop where
  reader : s.kern.queues .reader ≠ [] → s.isEmpty = true ∧ s.isclosed = false
  writer : s.kern.queues .writer ≠ [] → s.isFull = true ∧ s.isclosed = false

/-- `pipe_state_wakeup` empties the queue. -/
theorem wakeup_queues (h : Waits.Inv s.kern) (hwake : s.wakeup q = some s') :
    ∃ k, s' = { s with kern := k } ∧ k.queues = Function.update s.kern.queues q [] ∧ Waits.Inv k := by
  unfold Pipe.wakeup at hwake
  split at hwake
  · obtain ⟨k, hall, hinv, hwoke⟩ := h.wakeupQueue_spec q WT_PIPE
    rw [hall] at hwake
    cases hwake
    exact ⟨k, rfl, hwoke.queues, hinv⟩
  · rename_i hnil
    cases hwake
    refine ⟨s.kern, rfl, ?_, h⟩
    rw [← not_not.mp hnil, Function.update_eq_self]

theorem wait_other (k : Kern Queue) {q' : Queue} (h : q' ≠ q) :
    (k.waitCurrentSet q p WT_PIPE).queues q' = k.queues q' := Function.update_of_ne h ..

/-- The loop of a write ends because there is nothing left, or because the ring is full. -/
theorem writeLoop_full_or (s : Pipe) (l : List UInt8) :
    (s.writeLoop l).1 = l.length ∨ (s.writeLoop l).2.isFull = true := by
  induction l generalizing s with
  | nil => exact Or.inl rfl
  | cons b rest ih =>
    by_cases hfull : s.isFull = true
    · rw [writeLoop_full hfull]
      exact Or.inr hfull
    · rw [writeLoop_push hfull]
      rcases ih (s.push b) with hall | hend
      · exact Or.inl (congrArg (· + 1) hall)
      · exact Or.inr hend

/-- To a full ring nothing is appended. -/
theorem writeLoop_none (h : s.isFull = true) (l : List UInt8) : (s.writeLoop l).1 = 0 := by
  cases l with
  | nil => rfl
  | cons b rest => rw [writeLoop_full h]

/-- Whoever leaves a queue leaves no reason behind. -/
theorem Waited.leave (h : Waited s) {k : Kern Queue} (hk : ∀ q, k.queues q ≠ [] → s.kern.queues q ≠ []) :
    Waited { s with kern := k } :=
  ⟨fun hne => h.reader (hk .reader hne), fun hne => h.writer (hk .writer hne)⟩

/-- A read: the pipe is left alone, or it is not full any more and no writer waits. -/
theorem Waited.read (h : Waited s) (hinv : Waits.Inv s.kern) (hrun : s.read p n = some (e, s')) : Waited s' := by
  unfold Pipe.read at hrun
  obtain ⟨t, hlock, hrun⟩ := Option.bind_eq_some_iff.mp hrun
  unfold Pipe.lockState at hlock
  split at hlock
  · cases hlock
    dsimp only at hrun
    split at hrun
    · rename_i hempty
      split at hrun
      · cases hrun
        exact ⟨h.reader, h.writer⟩
      · -- the reader goes to sleep: the pipe is empty and open
        rename_i hopen
        cases hrun
        refine ⟨fun _ => ⟨hempty, Bool.eq_false_iff.mpr hopen⟩, fun hne => h.writer ?_⟩
        rw [← wait_other s.kern (q := .reader) (by decide)]
        exact hne
    · rename_i hdata
      have hreader : s.kern.queues .reader = [] := by
        by_contra hne
        exact hdata (h.reader hne).1
      obtain ⟨t, hwake, hrun⟩ := Option.map_eq_some_iff.mp hrun
      cases hrun
      have hspec := readLoop_spec { s with sem := s.sem - 1 } n
      generalize Pipe.readLoop { s with sem := s.sem - 1 } n = r at hspec hwake
      obtain ⟨data, u⟩ := r
      obtain ⟨rpos, rfl⟩ : ∃ rpos, u = { s with sem := s.sem - 1, rpos := rpos } := ⟨_, hspec.rest⟩
      dsimp only at hwake
      split at hwake
      · obtain ⟨k, rfl, hqueues, -⟩ :=
          wakeup_queues (s := { s with sem := s.sem - 1, rpos := rpos }) hinv hwake
        refine ⟨fun hne => absurd ?_ hne, fun hne => absurd ?_ hne⟩
        · show k.queues .reader = []
          rw [hqueues, Function.update_of_ne (by decide)]
          exact hreader
        · show k.queues .writer = []
          rw [hqueues, Function.update_self]
      · -- nothing has been read
        rename_i hnil
        cases hwake
        refine ⟨fun hne => absurd hreader hne, fun hne => ?_⟩
        have hlen := hspec.len
        rw [not_not.mp hnil] at hlen
        refine ⟨?_, (h.writer hne).2⟩
        have hfull := isFull_iff.mp (h.writer hne).1
        exact isFull_iff.mpr (hfull.trans hlen.ge)
  · cases hlock

/-- A write: the pipe is left alone, or it is not empty any more and no reader waits. -/
theorem Waited.write (h : Waited s) (hinv : Waits.Inv s.kern) (hrun : s.write p w buf ret = some (e, s')) :
    Waited s' := by
  unfold Pipe.write at hrun
  obtain ⟨t, hlock, hrun⟩ := Option.bind_eq_some_iff.mp hrun
  unfold Pipe.lockState at hlock
  split at hlock
  · cases hlock
    dsimp only at hrun
    split at hrun
    · cases hrun
      exact ⟨h.reader, h.writer⟩
    · rename_i hopen
      have hspec := writeLoop_spec { s with sem := s.sem - 1 } (buf.drop ret)
      have hended := writeLoop_full_or { s with sem := s.sem - 1 } (buf.drop ret)
      have hnone := fun hfull => writeLoop_none (s := { s with sem := s.sem - 1 }) hfull (buf.drop ret)
      generalize Pipe.writeLoop { s with sem := s.sem - 1 } (buf.drop ret) = r at hspec hended hnone hrun
      obtain ⟨c, u⟩ := r
      obtain ⟨b, wpos, rfl⟩ : ∃ b wpos, u = { s with sem := s.sem - 1, buf := b, wpos := wpos } :=
        ⟨_, _, hspec.rest⟩
      -- writers wait only for a full pipe, and to a full pipe nothing is appended
      have hwriter : c ≠ 0 → s.kern.queues .writer = [] := by
        intro hc
        by_contra hne
        exact hc (hnone (h.writer hne).1)
      dsimp only at hrun
      split at hrun
      · -- the writer goes to sleep: the pipe is full and open
        rename_i hless
        obtain ⟨t, hwake, hrun⟩ := Option.map_eq_some_iff.mp hrun
        cases hrun
        obtain ⟨k, rfl, hqueues, -⟩ :=
          wakeup_queues (s := { s with sem := s.sem - 1, buf := b, wpos := wpos }) hinv hwake
        refine ⟨fun hne => absurd ?_ hne, fun _ => ⟨?_, Bool.eq_false_iff.mpr hopen⟩⟩
        · show (k.waitCurrentSet .writer p WT_PIPE).queues .reader = []
          rw [wait_other k (by decide), hqueues, Function.update_self]
        · refine hended.resolve_left fun hall => ?_
          have hc : c = (buf.drop ret).length := hall
          rw [List.length_drop] at hc
          omega
      · obtain ⟨t, hwake, hrun⟩ := Option.map_eq_some_iff.mp hrun
        cases hrun
        split at hwake
        · rename_i hc
          obtain ⟨k, rfl, hqueues, -⟩ :=
            wakeup_queues (s := { s with sem := s.sem - 1, buf := b, wpos := wpos }) hinv hwake
          refine ⟨fun hne => absurd ?_ hne, fun hne => absurd ?_ hne⟩
          · show k.queues .reader = []
            rw [hqueues, Function.update_self]
          · show k.queues .writer = []
            rw [hqueues, Function.update_of_ne (by decide)]
            exact hwriter hc
        · -- nothing has been appended
          rename_i hc
          cases hwake
          have hlen := hspec.len
          rw [not_not.mp hc] at hlen
          refine ⟨fun hne => ⟨?_, (h.reader hne).2⟩, fun hne => ⟨?_, (h.writer hne).2⟩⟩
          · have hzero := isEmpty_iff.mp (h.reader hne).1
            exact isEmpty_iff.mpr (hlen.trans hzero)
          · have hfull := isFull_iff.mp (h.writer hne).1
            exact isFull_iff.mpr (hfull.trans hlen.ge)
  · cases hlock

theorem Waited.close (h : Waits.Inv s.kern) (hrun : s.close = some (e, s')) : Waited s' := by
  unfold Pipe.close at hrun
  obtain ⟨t, hreader, hrun⟩ := Option.bind_eq_some_iff.mp hrun
  obtain ⟨u, hwriter, hrun⟩ := Option.map_eq_some_iff.mp hrun
  cases hrun
  obtain ⟨k, rfl, hqueues, hinv⟩ := wakeup_queues (s := { s with isclosed := true }) h hreader
  obtain ⟨k', rfl, hqueues', -⟩ := wakeup_queues (s := { s with isclosed := true, kern := k }) hinv hwriter
  refine ⟨fun hne => absurd ?_ hne, fun hne => absurd ?_ hne⟩
  · show k'.queues .reader = []
    rw [hqueues', Function.update_of_ne (by decide), hqueues, Function.update_self]
  · show k'.queues .writer = []
    rw [hqueues', Function.update_self]

/-- Whoever runs again leaves its queue first. -/
theorem Waited.awake (h : Waited s) (q : Queue) (p : ℕ) :
    Waited { s with kern := (s.kern.waitCurrentDel q p).dropWait p } := by
  refine h.leave fun q' hne hnil => hne ?_
  show Function.update s.kern.queues q ((s.kern.queues q).erase p) q' = []
  by_cases hq : q' = q
  · rw [hq] at hnil ⊢
    rw [Function.update_self, hnil, List.erase_nil]
  · rw [Function.update_of_ne hq]
    exact hnil

theorem Waited.resume (h : Waited s) (hinv : Inv s) (hrun : s.resume p = some (e, s')) : Waited s' := by
  unfold Pipe.resume at hrun
  split at hrun
  · rename_i n f hc hw
    obtain ⟨f, q⟩ := f
    have hq := hinv.procs.waits p _ hw
    rw [hc] at hq
    cases hq
    dsimp only at hrun
    split at hrun
    · exact (h.awake .reader p).read (hinv.procs.unwait hw).kern hrun
    · cases hrun
      have hawake := h.awake .reader p
      exact ⟨hawake.reader, hawake.writer⟩
  · rename_i x buf ret f hc hw
    obtain ⟨f, q⟩ := f
    have hq := hinv.procs.waits p _ hw
    rw [hc] at hq
    cases hq
    dsimp only at hrun
    split at hrun
    · exact (h.awake .writer p).write (hinv.procs.unwait hw).kern hrun
    · cases hrun
      have hawake := h.awake .writer p
      exact ⟨hawake.reader, hawake.writer⟩
  · cases hrun

theorem Waited.step (h : Waited s) (hinv : Inv s) {op : Op} (hstep : s.step op = some (e, s')) : Waited s' := by
  cases op with
  | read p n => exact h.read hinv.procs.kern hstep
  | write p buf =>
    have hbegun : Waited { s with writes := s.writes + 1 } := ⟨h.reader, h.writer⟩
    exact hbegun.write hinv.procs.kern hstep
  | resume p => exact h.resume hinv hstep
  | close => exact .close hinv.procs.kern hstep
  | kill p =>
    obtain ⟨k, hkill, heq⟩ := Option.map_eq_some_iff.mp hstep
    cases heq
    obtain ⟨k', hkill', -, hkilled⟩ := hinv.procs.kern.kill_spec p
    rw [hkill] at hkill'
    cases hkill'
    refine h.leave fun q hne => ?_
    rw [← hkilled.roused.queues]
    exact hne

theorem Run.waited {s₀ : Pipe} {tr : List Event} (hinv₀ : Inv s₀) (h₀ : Waited s₀) (h : Run s₀ tr s) : Waited s := by
  induction h with
  | nil => exact h₀
  | cons op hrun henabled hstep ih => exact ih.step (hrun.inv hinv₀) hstep

theorem create_waited {k : Kern Queue} (hk : Waits.Quiet k) (buf : ℕ → UInt8) : Waited (pipeStateCreate k buf) := by
  have hnil : ∀ q, k.queues q = [] := by
    intro q
    refine List.eq_nil_iff_forall_not_mem.mpr fun p hp => ?_
    have hwait := hk.inv.queued q p hp
    rw [hk.wait p] at hwait
    cases hwait
  exact ⟨fun hne => absurd (hnil .reader) hne, fun hne => absurd (hnil .writer) hne⟩

/-- Asleep in a queue of the pipe. -/
def Pipe.Asleep (s : Pipe) (q : Queue) (p : ℕ) : Prop :=
  (s.kern.procs p).state = .sleeping ∧ p ∈ s.kern.queues q

/-- **No wake-up is lost.**  Whoever sleeps in `pipe_state_read` is asleep in the reader queue, and then the pipe is
empty and not closed; whoever sleeps in `pipe_state_write` is asleep in the writer queue, and then it is full and not
closed. -/
theorem no_lost_wakeup {k : Kern Queue} (hk : Waits.Quiet k) (buf : ℕ → UInt8) {tr : List Event}
    (hrun : Run (pipeStateCreate k buf) tr s) :
    (∀ p, s.Asleep .reader p → s.isEmpty = true ∧ s.isclosed = false) ∧
    (∀ p, s.Asleep .writer p → s.isFull = true ∧ s.isclosed = false) ∧
    ∀ p q, (s.call p).queue = some q → (s.kern.procs p).state = .sleeping → s.Asleep q p := by
  have hinv := hrun.inv (create_inv hk buf)
  have hwaited := hrun.waited (create_inv hk buf) (create_waited hk buf)
  refine ⟨fun p hp => hwaited.reader (List.ne_nil_of_mem hp.2), fun p hp => hwaited.writer (List.ne_nil_of_mem hp.2),
    fun p q hq hsleep => ⟨hsleep, ?_⟩⟩
  cases hw : s.kern.wait p with
  | none => exact absurd (hinv.procs.queued p q hq hw) nofun
  | some x =>
    have hsame := hinv.procs.waits p x hw
    rw [hq] at hsame
    cases hsame
    rcases hinv.procs.kern.blocked p x hw with hrunnable | hasleep
    · rw [hsleep] at hrunnable
      cases hrunnable
    · exact hasleep.2

/-- Process 1 reads from the new pipe and sleeps. -/
theorem no_lost_wakeup_reader : ∃ s, Run (pipeStateCreate (Kern.boot Queue) fun _ => 0) [.waits 1] s ∧
    s.Asleep .reader 1 ∧ s.isEmpty = true ∧ s.isclosed = false := by
  have h := (@Run.nil (pipeStateCreate (Kern.boot Queue) fun _ => 0)).cons (.read 1 2) ⟨rfl, rfl⟩ rfl
  have hasleep := (no_lost_wakeup (Kern.boot_quiet Queue) _ h).2.2 1 .reader rfl rfl
  exact ⟨_, h, hasleep, (no_lost_wakeup (Kern.boot_quiet Queue) _ h).1 1 hasleep⟩

end Ucore.Pipes
