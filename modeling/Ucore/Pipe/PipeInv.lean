import Ucore.Lib.Ring
import Ucore.Pipe.PipeState

/-!
# Pipes: what a step does

* `readLoop_spec`, `writeLoop_spec` — the two loops on the bytes in the ring;
* `Inv.step_spec` — everything that a step can do (`Does`);
* `Inv.does` — every step keeps the invariant.
-/

namespace Ucore.Pipes

open Ksem (WT_INTERRUPTED)
open Waits (Kern)

/-! ## The ring -/

/-- The number of bytes in the ring. -/
def Pipe.len (s : Pipe) : ℕ := (s.wpos - s.rpos).toNat

/-- The counters have not wrapped. -/
def Pipe.Unwrapped (s : Pipe) : Prop := s.wpos.toNat = s.rpos.toNat + s.len

variable {s s' : Pipe}

theorem len_eq (s : Pipe) : s.len = (2 ^ 32 - s.rpos.toNat + s.wpos.toNat) % 2 ^ 32 := by
  unfold Pipe.len
  rw [UInt32.toNat_sub]

theorem isEmpty_iff : s.isEmpty = true ↔ s.len = 0 := by
  have hr := s.rpos.toNat_lt
  have hw := s.wpos.toNat_lt
  unfold Pipe.isEmpty
  rw [decide_eq_true_iff, len_eq, ← UInt32.toNat_inj]
  omega

theorem isFull_iff : s.isFull = true ↔ PIPE_BUFSIZE ≤ s.len := by
  unfold Pipe.isFull Pipe.len
  rw [decide_eq_true_iff]

/-- A byte is taken. -/
theorem len_pop (h : s.len ≠ 0) : Pipe.len { s with rpos := s.rpos + 1 } + 1 = s.len := by
  have hr := s.rpos.toNat_lt
  have hw := s.wpos.toNat_lt
  have hone : (s.rpos + 1).toNat = (s.rpos.toNat + 1) % 2 ^ 32 := UInt32.toNat_add ..
  rw [len_eq] at h ⊢
  rw [len_eq, show ({ s with rpos := s.rpos + 1 } : Pipe).rpos = s.rpos + 1 from rfl, hone]
  show (2 ^ 32 - (s.rpos.toNat + 1) % 2 ^ 32 + s.wpos.toNat) % 2 ^ 32 + 1 = _
  omega

theorem unwrapped_pop (h : s.Unwrapped) (hlen : s.len ≠ 0) : Pipe.Unwrapped { s with rpos := s.rpos + 1 } := by
  have hw := s.wpos.toNat_lt
  have hpop := len_pop hlen
  unfold Pipe.Unwrapped at h ⊢
  have hone : (s.rpos + 1).toNat = s.rpos.toNat + 1 := by
    have hadd : (s.rpos + 1).toNat = (s.rpos.toNat + 1) % 2 ^ 32 := UInt32.toNat_add ..
    rw [hadd, Nat.mod_eq_of_lt (by omega)]
  show s.wpos.toNat = (s.rpos + 1).toNat + _
  omega

/-- The pipe after a byte has been appended. -/
def Pipe.push (s : Pipe) (b : UInt8) : Pipe :=
  { s with buf := Function.update s.buf (slot s.wpos) b, wpos := s.wpos + 1 }

theorem len_push (h : s.len < PIPE_BUFSIZE) (b : UInt8) : (s.push b).len = s.len + 1 := by
  have hr := s.rpos.toNat_lt
  have hw := s.wpos.toNat_lt
  have hone : (s.wpos + 1).toNat = (s.wpos.toNat + 1) % 2 ^ 32 := UInt32.toNat_add ..
  have hsize : PIPE_BUFSIZE = 4040 := rfl
  rw [len_eq] at h ⊢
  rw [len_eq]
  show (2 ^ 32 - s.rpos.toNat + (s.wpos + 1).toNat) % 2 ^ 32 = _
  rw [hone]
  omega

theorem unwrapped_push (h : s.Unwrapped) (hlen : s.len < PIPE_BUFSIZE) (hnext : s.wpos.toNat + 1 < 2 ^ 32)
    (b : UInt8) :
    (s.push b).Unwrapped ∧ (s.push b).wpos.toNat = s.wpos.toNat + 1 := by
  have hpush := len_push hlen b
  have hone : (s.push b).wpos.toNat = s.wpos.toNat + 1 := by
    have hadd : (s.push b).wpos.toNat = (s.wpos.toNat + 1) % 2 ^ 32 := UInt32.toNat_add ..
    rw [hadd, Nat.mod_eq_of_lt hnext]
  unfold Pipe.Unwrapped at h ⊢
  refine ⟨?_, hone⟩
  rw [hone, hpush, h]
  rfl

/-- The slot of the unread byte `i`. -/
def Pipe.slotOf (s : Pipe) (i : ℕ) : ℕ := slot (s.rpos + UInt32.ofNat i)

/-- The unread bytes have different slots. -/
def Pipe.Apart (s : Pipe) : Prop := ∀ i j, i < s.len → j < s.len → s.slotOf i = s.slotOf j → i = j

/-- The unread bytes, as reads would find them. -/
def Pipe.unread (s : Pipe) : List UInt8 := (List.range s.len).map fun i => s.buf (s.slotOf i)

theorem slotOf_zero (s : Pipe) : s.slotOf 0 = slot s.rpos := by
  show slot (s.rpos + 0) = slot s.rpos
  rw [UInt32.add_zero]

theorem slotOf_len (s : Pipe) : s.slotOf s.len = slot s.wpos := by
  unfold Pipe.slotOf Pipe.len
  rw [UInt32.ofNat_toNat, UInt32.add_comm, UInt32.sub_add_cancel]

theorem slotOf_pop (s : Pipe) (i : ℕ) : Pipe.slotOf { s with rpos := s.rpos + 1 } i = s.slotOf (i + 1) := by
  show slot (s.rpos + 1 + UInt32.ofNat i) = slot (s.rpos + UInt32.ofNat (i + 1))
  rw [UInt32.ofNat_add, UInt32.add_assoc, UInt32.add_comm 1]
  rfl

/-- A shorter window from the same position. -/
theorem Apart.shorter (h : s'.Apart) (hrpos : s'.rpos = s.rpos) (hlen : s.len ≤ s'.len) : s.Apart := by
  intro i j hi hj heq
  unfold Pipe.slotOf at heq
  rw [← hrpos] at heq
  exact h i j (hi.trans_le hlen) (hj.trans_le hlen) heq

theorem Apart.pop (h : s.Apart) (hlen : s.len ≠ 0) : Pipe.Apart { s with rpos := s.rpos + 1 } := by
  have hpop := len_pop hlen
  intro i j hi hj heq
  rw [slotOf_pop, slotOf_pop] at heq
  have hsucc := h (i + 1) (j + 1) (by omega) (by omega) heq
  omega

theorem unread_pop (hlen : s.len ≠ 0) :
    s.unread = s.buf (slot s.rpos) :: Pipe.unread { s with rpos := s.rpos + 1 } := by
  have hpop := len_pop hlen
  unfold Pipe.unread
  rw [← hpop, List.range_succ_eq_map, List.map_cons, List.map_map, slotOf_zero]
  refine congrArg _ (List.map_congr_left fun i _ => ?_)
  show s.buf (s.slotOf (i + 1)) = s.buf (Pipe.slotOf { s with rpos := s.rpos + 1 } i)
  rw [slotOf_pop]

/-- The byte is put into the slot of no other unread byte. -/
theorem unread_push (hlen : s.len < PIPE_BUFSIZE) (b : UInt8) (h : (s.push b).Apart) :
    (s.push b).unread = s.unread ++ [b] := by
  have hpush := len_push hlen b
  have hslot : ∀ i, (s.push b).slotOf i = s.slotOf i := fun _ => rfl
  have hbuf : (s.push b).buf = Function.update s.buf (s.slotOf s.len) b := by
    rw [slotOf_len]
    rfl
  unfold Pipe.unread
  rw [hpush, List.range_succ, List.map_append, List.map_singleton, hslot, hbuf, Function.update_self]
  refine congrArg (· ++ [b]) (List.map_congr_left fun i hi => ?_)
  have hilen := List.mem_range.mp hi
  rw [hslot]
  refine Function.update_of_ne (fun heq => ?_) ..
  have hi := h i s.len (by omega) (by omega) heq
  omega

theorem slotOf_eq (s : Pipe) (i : ℕ) : s.slotOf i = (s.rpos.toNat + i) % 2 ^ 32 % PIPE_BUFSIZE := by
  unfold Pipe.slotOf slot
  rw [UInt32.toNat_add, UInt32.toNat_ofNat', Nat.add_mod_mod]

/-- Before the counters wrap, slots are positions modulo the size. -/
theorem Unwrapped.apart (h : s.Unwrapped) (hlen : s.len ≤ PIPE_BUFSIZE) : s.Apart := by
  have hw := s.wpos.toNat_lt
  unfold Pipe.Unwrapped at h
  have hpos : ∀ i, i < s.len → (s.rpos.toNat + i) % 2 ^ 32 = s.rpos.toNat + i := fun i hi =>
    Nat.mod_eq_of_lt (by omega)
  intro i j hi hj heq
  rw [slotOf_eq, slotOf_eq, hpos i hi, hpos j hj] at heq
  exact Ring.slot_inj (hi.trans_le hlen) (hj.trans_le hlen) heq

/-- What the loop of `pipe_state_read` does. -/
structure Took (s : Pipe) (n : ℕ) (r : List UInt8 × Pipe) : Prop where
  rest : r.2 = { s with rpos := r.2.rpos }
  count : r.1.length = min n s.len
  len : r.2.len + r.1.length = s.len
  unwrapped : s.Unwrapped → r.2.Unwrapped
  unread : s.unread = r.1 ++ r.2.unread
  apart : s.Apart → r.2.Apart

theorem Took.nothing (h : s.len = 0) (n : ℕ) : Took s n ([], s) :=
  ⟨rfl, by rw [h, Nat.min_zero]; rfl, rfl, fun h => h, rfl, fun h => h⟩

theorem readLoop_spec (s : Pipe) (n : ℕ) : Took s n (s.readLoop n) := by
  induction n generalizing s with
  | zero =>
    unfold Pipe.readLoop
    exact ⟨rfl, by rw [Nat.zero_min]; rfl, rfl, fun h => h, rfl, fun h => h⟩
  | succ n ih =>
    unfold Pipe.readLoop
    by_cases hempty : s.isEmpty = true
    · have hlen := isEmpty_iff.mp hempty
      rw [if_pos hempty]
      exact .nothing hlen (n + 1)
    · have hlen : s.len ≠ 0 := fun hzero => hempty (isEmpty_iff.mpr hzero)
      have hpop := len_pop hlen
      have htook := ih { s with rpos := s.rpos + 1 }
      rw [if_neg hempty]
      refine ⟨htook.rest, ?_, ?_, fun h => htook.unwrapped (unwrapped_pop h hlen), ?_,
        fun h => htook.apart (Apart.pop h hlen)⟩
      · rw [List.length_cons, htook.count]
        omega
      · rw [List.length_cons, ← Nat.add_assoc, htook.len, hpop]
      · rw [unread_pop hlen, htook.unread]
        rfl

/-- What the loop of `pipe_state_write` does. -/
structure Wrote (s : Pipe) (l : List UInt8) (r : ℕ × Pipe) : Prop where
  rest : r.2 = { s with buf := r.2.buf, wpos := r.2.wpos }
  count : r.1 ≤ l.length
  len : r.2.len = s.len + r.1
  bound : s.len ≤ PIPE_BUFSIZE → r.2.len ≤ PIPE_BUFSIZE
  unwrapped : s.Unwrapped → s.wpos.toNat + r.1 < 2 ^ 32 →
    r.2.Unwrapped ∧ r.2.wpos.toNat = s.wpos.toNat + r.1
  unread : r.2.Apart → r.2.unread = s.unread ++ l.take r.1

theorem Wrote.nothing (s : Pipe) (l : List UInt8) : Wrote s l (0, s) := by
  refine ⟨rfl, Nat.zero_le _, rfl, fun h => h, fun h _ => ⟨h, rfl⟩, fun _ => ?_⟩
  rw [List.take_zero, List.append_nil]

theorem writeLoop_push (h : ¬ s.isFull = true) (b : UInt8) (rest : List UInt8) :
    s.writeLoop (b :: rest) = (((s.push b).writeLoop rest).1 + 1, ((s.push b).writeLoop rest).2) := if_neg h

theorem writeLoop_full (h : s.isFull = true) (b : UInt8) (rest : List UInt8) : s.writeLoop (b :: rest) = (0, s) :=
    if_pos h

theorem writeLoop_spec (s : Pipe) (l : List UInt8) : Wrote s l (s.writeLoop l) := by
  induction l generalizing s with
  | nil =>
    unfold Pipe.writeLoop
    exact .nothing s []
  | cons b rest ih =>
    by_cases hfull : s.isFull = true
    · rw [writeLoop_full hfull]
      exact .nothing s _
    · have hlen : s.len < PIPE_BUFSIZE := Nat.not_le.mp fun hle => hfull (isFull_iff.mpr hle)
      have hpush := len_push hlen b
      have hwrote := ih (s.push b)
      rw [writeLoop_push hfull]
      refine ⟨hwrote.rest, Nat.succ_le_succ hwrote.count, ?_, fun _ => ?_, fun h hnext => ?_, fun h => ?_⟩
      · rw [hwrote.len, hpush]
        omega
      · exact hwrote.bound (by rw [hpush]; exact hlen)
      · dsimp only at hnext ⊢
        obtain ⟨hun, hone⟩ := unwrapped_push h hlen (by omega) b
        obtain ⟨hun', hpos⟩ := hwrote.unwrapped hun (by omega)
        exact ⟨hun', by omega⟩
      · have hrpos : ((s.push b).writeLoop rest).2.rpos = (s.push b).rpos := by
          rw [hwrote.rest]
        have hpushed : (s.push b).Apart := Apart.shorter h hrpos (by rw [hwrote.len]; exact Nat.le_add_right _ _)
        rw [hwrote.unread h, unread_push hlen b hpushed, List.append_assoc]
        rfl

/-! ## Processes -/

/-- The queue in which a call waits. -/
def Call.queue : Call → Option Queue
  | .idle => none
  | .reading _ => some .reader
  | .writing _ _ _ => some .writer

/-- Where the processes wait; `who` is the one that runs, in a call. -/
structure Procs (who : Option ℕ) (k : Kern Queue) (call : ℕ → Call) : Prop where
  kern : Waits.Inv k
  waits : ∀ p w, k.wait p = some w → (call p).queue = some w.queue
  queued : ∀ p q, (call p).queue = some q → k.wait p = none → who = some p
  awake : ∀ p, who = some p → k.wait p = none

section Procs

variable {who : Option ℕ} {k k' : Kern Queue} {call : ℕ → Call} {p : ℕ} {c : Call} {q : Queue}

theorem Procs.begin (h : Procs none k call) (hcall : call p = .idle) : Procs (some p) k call := by
  refine ⟨h.kern, h.waits, fun r q hr hw => absurd (h.queued r q hr hw) nofun, fun r hr => ?_⟩
  cases hr
  cases hw : k.wait p with
  | none => rfl
  | some w =>
    have hq := h.waits p w hw
    rw [hcall] at hq
    cases hq

/-- A process that slept in a queue runs again. -/
theorem Procs.unwait (h : Procs none k call) {f : UInt32} (hw : k.wait p = some ⟨f, q⟩) :
    Procs (some p) ((k.waitCurrentDel q p).dropWait p) call := by
  have hwait : ((k.waitCurrentDel q p).dropWait p).wait = Function.update k.wait p none := rfl
  refine ⟨h.kern.dequeue hw, fun r w hr => ?_, fun r x hr hnone => ?_, fun r hr => ?_⟩
  · rw [hwait] at hr
    by_cases hrp : r = p
    · rw [hrp, Function.update_self] at hr
      cases hr
    · rw [Function.update_of_ne hrp] at hr
      exact h.waits r w hr
  · by_cases hrp : r = p
    · rw [hrp]
    · rw [hwait, Function.update_of_ne hrp] at hnone
      exact absurd (h.queued r x hr hnone) nofun
  · cases hr
    rw [hwait, Function.update_self]

/-- A whole queue is woken. -/
theorem Procs.wake (h : Procs who k call) (q : Queue) (f : UInt32) :
    ∃ k', k.wakeupQueue q f = some k' ∧ Procs who k' call := by
  obtain ⟨k', hwake, hinv, hwoke⟩ := h.kern.wakeupQueue_spec q f
  -- a woken process keeps its wait, with a mark
  have hmark : ∀ r w', k'.wait r = some w' → ∃ w, k.wait r = some w ∧ w'.queue = w.queue := by
    intro r w' hw'
    by_cases hr : r ∈ k.queues q
    · rw [(hwoke.woken r hr).1] at hw'
      cases hw'
      exact ⟨_, h.kern.queued q r hr, rfl⟩
    · rw [(hwoke.frame r hr).1] at hw'
      exact ⟨w', hw', rfl⟩
  have hnone : ∀ r, k'.wait r = none ↔ k.wait r = none := by
    intro r
    by_cases hr : r ∈ k.queues q
    · rw [(hwoke.woken r hr).1, h.kern.queued q r hr]
      exact ⟨nofun, nofun⟩
    · rw [(hwoke.frame r hr).1]
  refine ⟨k', hwake, hinv, fun r w' hw' => ?_, fun r x hr hw => ?_, fun r hr => ?_⟩
  · obtain ⟨w, hw, hqueue⟩ := hmark r w' hw'
    rw [hqueue]
    exact h.waits r w hw
  · exact h.queued r x hr ((hnone r).mp hw)
  · exact (hnone r).mpr (h.awake r hr)

theorem Procs.finish (h : Procs (some p) k call) : Procs none k (Function.update call p .idle) := by
  refine ⟨h.kern, fun r w hw => ?_, fun r x hr hw => ?_, nofun⟩
  · have hrp : r ≠ p := by
      rintro rfl
      rw [h.awake r rfl] at hw
      cases hw
    rw [Function.update_of_ne hrp]
    exact h.waits r w hw
  · by_cases hrp : r = p
    · rw [hrp, Function.update_self] at hr
      cases hr
    · rw [Function.update_of_ne hrp] at hr
      exact absurd (Option.some.inj (h.queued r x hr hw)).symm hrp

theorem Procs.sleep (h : Procs (some p) k call) (hc : c.queue = some q) :
    Procs none (k.waitCurrentSet q p WT_PIPE) (Function.update call p c) := by
  have hwait : (k.waitCurrentSet q p WT_PIPE).wait = Function.update k.wait p (some ⟨WT_INTERRUPTED, q⟩) := rfl
  refine ⟨h.kern.enqueue (h.awake p rfl) q (by decide), fun r w hw => ?_, fun r x hr hw => ?_, nofun⟩
  · rw [hwait] at hw
    by_cases hrp : r = p
    · rw [hrp, Function.update_self] at hw
      cases hw
      rw [hrp, Function.update_self]
      exact hc
    · rw [Function.update_of_ne hrp] at hw ⊢
      exact h.waits r w hw
  · rw [hwait] at hw
    by_cases hrp : r = p
    · rw [hrp, Function.update_self] at hw
      cases hw
    · rw [Function.update_of_ne hrp] at hr hw
      exact absurd (Option.some.inj (h.queued r x hr hw)).symm hrp

theorem Procs.killed (h : Procs none k call) (hinv : Waits.Inv k') (hkilled : Waits.Killed k p k') :
    Procs none k' call := by
  refine ⟨hinv, fun r w hw => ?_, fun r x hr hw => ?_, nofun⟩
  · rw [hkilled.roused.wait] at hw
    exact h.waits r w hw
  · rw [hkilled.roused.wait] at hw
    exact h.queued r x hr hw

end Procs

/-! ## Steps -/

/-- A write begins, or goes on. -/
def Begun (s : Pipe) (p w : ℕ) (buf : List UInt8) (ret writes : ℕ) : Prop :=
  s.call p = .idle ∧ w = s.writes ∧ ret = 0 ∧ writes = s.writes + 1 ∨
    s.call p = .writing w buf ret ∧ writes = s.writes

/-- A read begins, or goes on. -/
def Reads (s : Pipe) (p n : ℕ) : Prop := s.call p = .idle ∨ s.call p = .reading n

/-- Everything that a step can do. -/
inductive Does (s : Pipe) : Event → Pipe → Prop
  | killed (p : ℕ) (k : Kern Queue) (hprocs : Procs none k s.call) : Does s (.killed p) { s with kern := k }
  | closed (k : Kern Queue) (hprocs : Procs none k s.call) : Does s .closed { s with kern := k, isclosed := true }
  | waits (p n : ℕ) (k : Kern Queue) (hreads : Reads s p n)
      (hprocs : Procs none k (Function.update s.call p (.reading n))) :
      Does s (.waits p) { s with sem := 1, kern := k, call := Function.update s.call p (.reading n) }
  | gaveUp (p n : ℕ) (k : Kern Queue) (hreads : Reads s p n)
      (hprocs : Procs none k (Function.update s.call p .idle)) :
      Does s (.gaveUp p n) { s with kern := k, call := Function.update s.call p .idle }
  | took (p n : ℕ) (data : List UInt8) (rpos : UInt32) (k : Kern Queue) (hreads : Reads s p n)
      (htook : Took s n (data, { s with rpos := rpos }))
      (hnothing : 0 < n → data = [] → s.len = 0 ∧ s.isclosed = true)
      (hprocs : Procs none k (Function.update s.call p .idle)) :
      Does s (.took p n data)
        { s with
          rpos := rpos
          sem := 1
          kern := k
          call := Function.update s.call p .idle }
  | put (p w : ℕ) (buf : List UInt8) (ret c : ℕ) (b : ℕ → UInt8) (wpos : UInt32) (k : Kern Queue) (writes : ℕ)
      (hbegun : Begun s p w buf ret writes) (hopen : s.isclosed = false)
      (hwrote : Wrote s (buf.drop ret) (c, { s with buf := b, wpos := wpos })) (hless : ret + c < buf.length)
      (hprocs : Procs none k (Function.update s.call p (.writing w buf (ret + c)))) :
      Does s (.put w ((buf.drop ret).take c))
        { s with
          buf := b
          wpos := wpos
          sem := 1
          kern := k
          call := Function.update s.call p (.writing w buf (ret + c))
          writes := writes }
  | wrote (p w : ℕ) (buf : List UInt8) (ret c : ℕ) (b : ℕ → UInt8) (wpos : UInt32) (k : Kern Queue) (writes : ℕ)
      (hbegun : Begun s p w buf ret writes) (hopen : s.isclosed = false ∨ c = 0)
      (hwrote : Wrote s (buf.drop ret) (c, { s with buf := b, wpos := wpos })) (hle : ret + c ≤ buf.length)
      (hprocs : Procs none k (Function.update s.call p .idle)) :
      Does s (.wrote w buf ((buf.drop ret).take c) (ret + c))
        { s with
          buf := b
          wpos := wpos
          sem := 1
          kern := k
          call := Function.update s.call p .idle
          writes := writes }

/-- What holds between two steps. -/
structure Inv (s : Pipe) : Prop where
  procs : Procs none s.kern s.call
  sem : s.sem = 1
  len : s.len ≤ PIPE_BUFSIZE
  ret : ∀ p w buf ret, s.call p = .writing w buf ret → ret ≤ buf.length

section Spec

variable {p n w ret writes : ℕ} {buf : List UInt8} {k : Kern Queue} {e : Event}

/-- `pipe_state_wakeup`. -/
theorem Procs.wakeup {who : Option ℕ} (h : Procs who s.kern s.call) (q : Queue) :
    ∃ k, s.wakeup q = some { s with kern := k } ∧ Procs who k s.call := by
  unfold Pipe.wakeup
  by_cases hq : s.kern.queues q ≠ []
  · obtain ⟨k, hwake, hprocs⟩ := h.wake q WT_PIPE
    rw [if_pos hq, hwake]
    exact ⟨k, rfl, hprocs⟩
  · rw [if_neg hq]
    exact ⟨s.kern, rfl, h⟩

/-- A wake-up that is made only if there is a reason. -/
theorem Procs.wakeup_if {who : Option ℕ} (h : Procs who s.kern s.call) (q : Queue) (b : Prop) [Decidable b] :
    ∃ k, (if b then s.wakeup q else some s) = some { s with kern := k } ∧ Procs who k s.call := by
  by_cases hb : b
  · rw [if_pos hb]
    exact h.wakeup q
  · rw [if_neg hb]
    exact ⟨s.kern, rfl, h⟩

/-- The semaphore is free, and is held only within a step. -/
theorem lockState_of_free (h : s.sem = 1) : s.lockState = some { s with sem := 0 } := by
  unfold Pipe.lockState
  rw [h]
  rfl

theorem read_spec {s₁ : Pipe} (hs : s₁ = { s with kern := k }) (h : Procs (some p) k s.call) (hsem : s.sem = 1)
    (hreads : Reads s p n) : ∃ e s', s₁.read p n = some (e, s') ∧ Does s e s' := by
  subst hs
  have hlock : Pipe.lockState { s with kern := k } = some { s with kern := k, sem := 0 } := lockState_of_free hsem
  unfold Pipe.read
  rw [hlock]
  dsimp only [Option.bind]
  by_cases hempty : Pipe.isEmpty { s with kern := k, sem := 0 } = true
  · rw [if_pos hempty]
    have hlen : s.len = 0 := isEmpty_iff.mp hempty
    by_cases hclosed : s.isclosed = true
    · rw [if_pos hclosed]
      refine ⟨_, _, rfl, ?_⟩
      exact Does.took p n [] s.rpos k hreads (.nothing hlen n) (fun _ _ => ⟨hlen, hclosed⟩) h.finish
    · rw [if_neg hclosed]
      refine ⟨_, _, rfl, ?_⟩
      exact Does.waits p n _ hreads (h.sleep rfl)
  · rw [if_neg hempty]
    have hlen : s.len ≠ 0 := fun hzero => hempty (isEmpty_iff.mpr hzero)
    have hspec := readLoop_spec { s with kern := k, sem := 0 } n
    generalize Pipe.readLoop { s with kern := k, sem := 0 } n = r at hspec ⊢
    obtain ⟨data, t⟩ := r
    obtain ⟨rpos, rfl⟩ : ∃ rpos, t = { s with kern := k, sem := 0, rpos := rpos } := ⟨_, hspec.rest⟩
    have htook : Took s n (data, { s with rpos := rpos }) :=
      ⟨rfl, hspec.count, hspec.len, hspec.unwrapped, hspec.unread, hspec.apart⟩
    obtain ⟨k', hwake, hprocs⟩ :=
      Procs.wakeup_if (s := { s with kern := k, sem := 0, rpos := rpos }) h .writer (data ≠ [])
    dsimp only
    rw [hwake]
    refine ⟨_, _, rfl, .took p n data rpos k' hreads htook (fun hn hdata => ?_) hprocs.finish⟩
    have hcount := htook.count
    rw [hdata, List.length_nil] at hcount
    omega

theorem write_spec {s₁ : Pipe} (hs : s₁ = { s with kern := k, writes := writes }) (h : Procs (some p) k s.call)
    (hsem : s.sem = 1) (hbegun : Begun s p w buf ret writes) (hret : ret ≤ buf.length) :
    ∃ e s', s₁.write p w buf ret = some (e, s') ∧ Does s e s' := by
  subst hs
  have hlock : Pipe.lockState { s with kern := k, writes := writes } =
      some { s with kern := k, writes := writes, sem := 0 } := lockState_of_free hsem
  unfold Pipe.write
  rw [hlock]
  dsimp only [Option.bind]
  by_cases hclosed : s.isclosed = true
  · rw [if_pos hclosed]
    have hdoes := Does.wrote p w buf ret 0 s.buf s.wpos k writes hbegun (Or.inr rfl) (.nothing s _) hret h.finish
    rw [List.take_zero, Nat.add_zero] at hdoes
    exact ⟨_, _, rfl, hdoes⟩
  · rw [if_neg hclosed]
    have hopen : s.isclosed = false := Bool.eq_false_iff.mpr hclosed
    have hspec := writeLoop_spec { s with kern := k, writes := writes, sem := 0 } (buf.drop ret)
    generalize Pipe.writeLoop { s with kern := k, writes := writes, sem := 0 } (buf.drop ret) = r at hspec ⊢
    obtain ⟨c, t⟩ := r
    obtain ⟨b, wpos, rfl⟩ : ∃ b wpos, t = { s with kern := k, writes := writes, sem := 0, buf := b, wpos := wpos } :=
      ⟨_, _, hspec.rest⟩
    have hwrote : Wrote s (buf.drop ret) (c, { s with buf := b, wpos := wpos }) :=
      ⟨rfl, hspec.count, hspec.len, hspec.bound, hspec.unwrapped, hspec.unread⟩
    have hcount : ret + c ≤ buf.length := by
      have hle := hwrote.count
      rw [List.length_drop] at hle
      omega
    dsimp only
    by_cases hless : ret + c < buf.length
    · obtain ⟨k', hwake, hprocs⟩ :=
        Procs.wakeup (s := { s with kern := k, writes := writes, sem := 0, buf := b, wpos := wpos }) h .reader
      rw [if_pos hless, hwake]
      exact ⟨_, _, rfl, .put p w buf ret c b wpos _ writes hbegun hopen hwrote hless (hprocs.sleep rfl)⟩
    · obtain ⟨k', hwake, hprocs⟩ := Procs.wakeup_if
        (s := { s with kern := k, writes := writes, sem := 0, buf := b, wpos := wpos }) h .reader (c ≠ 0)
      rw [if_neg hless, hwake]
      exact ⟨_, _, rfl, .wrote p w buf ret c b wpos _ writes hbegun (Or.inl hopen) hwrote hcount hprocs.finish⟩

theorem Inv.close_spec (h : Inv s) : ∃ e s', s.close = some (e, s') ∧ Does s e s' := by
  have hprocs : 
      Procs none ({ s with isclosed := true } : Pipe).kern ({ s with isclosed := true } : Pipe).call := h.procs
  obtain ⟨k₁, hreader, hprocs₁⟩ := hprocs.wakeup .reader
  obtain ⟨k₂, hwriter, hprocs₂⟩ := Procs.wakeup (s := { s with isclosed := true, kern := k₁ }) hprocs₁ .writer
  unfold Pipe.close
  rw [hreader]
  dsimp only [Option.bind]
  rw [hwriter]
  exact ⟨_, _, rfl, .closed k₂ hprocs₂⟩

theorem Inv.resume_spec (h : Inv s) (hcall : s.call p ≠ .idle) : ∃ e s', s.resume p = some (e, s') ∧ Does s e s' := by
  unfold Pipe.resume
  cases hc : s.call p with
  | idle => exact absurd hc hcall
  | reading n =>
    cases hw : s.kern.wait p with
    | none => exact absurd (h.procs.queued p .reader (by rw [hc]; rfl) hw) nofun
    | some w =>
      obtain ⟨f, q⟩ := w
      have hq := h.procs.waits p _ hw
      rw [hc] at hq
      cases hq
      have hun := h.procs.unwait hw
      dsimp only
      by_cases hflag : f = WT_PIPE
      · rw [if_pos hflag]
        exact read_spec rfl hun h.sem (Or.inr hc)
      · rw [if_neg hflag]
        exact ⟨_, _, rfl, .gaveUp p n _ (Or.inr hc) hun.finish⟩
  | writing x buf ret =>
    cases hw : s.kern.wait p with
    | none => exact absurd (h.procs.queued p .writer (by rw [hc]; rfl) hw) nofun
    | some w =>
      obtain ⟨f, q⟩ := w
      have hq := h.procs.waits p _ hw
      rw [hc] at hq
      cases hq
      have hun := h.procs.unwait hw
      dsimp only
      by_cases hflag : f = WT_PIPE
      · rw [if_pos hflag]
        exact write_spec rfl hun h.sem (Or.inr ⟨hc, rfl⟩) (h.ret p x buf ret hc)
      · rw [if_neg hflag]
        have hdoes := Does.wrote p x buf ret 0 s.buf s.wpos _ s.writes (Or.inr ⟨hc, rfl⟩) (Or.inr rfl)
          (.nothing s _) (h.ret p x buf ret hc) hun.finish
        rw [List.take_zero, Nat.add_zero, ← h.sem] at hdoes
        exact ⟨_, _, rfl, hdoes⟩

/-- **No step fails, or waits for the semaphore.** -/
theorem Inv.step_spec (h : Inv s) {op : Op} (henabled : s.Enabled op) :
    ∃ e s', s.step op = some (e, s') ∧ Does s e s' := by
  cases op with
  | read p n => exact read_spec rfl (h.procs.begin henabled.2) h.sem (Or.inl henabled.2)
  | write p buf =>
    exact write_spec rfl (h.procs.begin henabled.2) h.sem (Or.inl ⟨henabled.2, rfl, rfl, rfl⟩) (Nat.zero_le _)
  | resume p => exact h.resume_spec henabled.2
  | close => exact h.close_spec
  | kill p =>
    obtain ⟨k, hkill, hinv, hkilled⟩ := h.procs.kern.kill_spec p
    unfold Pipe.step
    dsimp only
    rw [hkill]
    exact ⟨_, _, rfl, .killed p k (h.procs.killed hinv hkilled)⟩

end Spec

/-- **Every step keeps the invariant.** -/
theorem Inv.does {e : Event} (h : Inv s) (hdoes : Does s e s') : Inv s' := by
  -- a process with a new call that is no write
  have hother : ∀ p c, (∀ w buf ret, c ≠ .writing w buf ret) → ∀ q w buf ret,
      Function.update s.call p c q = .writing w buf ret → ret ≤ buf.length := by
    intro p c hc q w buf ret hq
    by_cases hqp : q = p
    · rw [hqp, Function.update_self] at hq
      exact absurd hq (hc w buf ret)
    · rw [Function.update_of_ne hqp] at hq
      exact h.ret q w buf ret hq
  cases hdoes with
  | killed p k hprocs => exact ⟨hprocs, h.sem, h.len, h.ret⟩
  | closed k hprocs => exact ⟨hprocs, h.sem, h.len, h.ret⟩
  | waits p n k hreads hprocs => exact ⟨hprocs, rfl, h.len, hother p _ nofun⟩
  | gaveUp p n k hreads hprocs => exact ⟨hprocs, h.sem, h.len, hother p _ nofun⟩
  | took p n data rpos k hreads htook hnothing hprocs =>
    refine ⟨hprocs, rfl, ?_, hother p _ nofun⟩
    have hlen : Pipe.len { s with rpos := rpos } + data.length = s.len := htook.len
    show Pipe.len { s with rpos := rpos } ≤ PIPE_BUFSIZE
    exact Nat.le_trans (by omega) h.len
  | put p w buf ret c b wpos k writes hbegun hopen hwrote hless hprocs =>
    refine ⟨hprocs, rfl, hwrote.bound h.len, fun q w' buf' ret' hq => ?_⟩
    replace hq : Function.update s.call p (.writing w buf (ret + c)) q = .writing w' buf' ret' := hq
    by_cases hqp : q = p
    · rw [hqp, Function.update_self] at hq
      cases hq
      exact hless.le
    · rw [Function.update_of_ne hqp] at hq
      exact h.ret q w' buf' ret' hq
  | wrote p w buf ret c b wpos k writes hbegun hopen hwrote hle hprocs =>
    exact ⟨hprocs, rfl, hwrote.bound h.len, hother p _ nofun⟩

theorem create_len (k : Kern Queue) (buf : ℕ → UInt8) : (pipeStateCreate k buf).len = 0 := by
  show (0 - 0 : UInt32).toNat = 0
  decide

theorem create_inv {k : Kern Queue} (hk : Waits.Quiet k) (buf : ℕ → UInt8) : Inv (pipeStateCreate k buf) := by
  refine ⟨⟨hk.inv, fun p w hw => ?_, nofun, nofun⟩, rfl, by rw [create_len]; exact Nat.zero_le _, nofun⟩
  exact absurd ((hk.wait p).symm.trans hw) nofun

theorem Inv.does_of_step {e : Event} (h : Inv s) {op : Op} (henabled : s.Enabled op)
    (hstep : s.step op = some (e, s')) : Does s e s' := by
  obtain ⟨e', s'', hstep', hdoes⟩ := h.step_spec henabled
  rw [hstep] at hstep'
  cases hstep'
  exact hdoes

theorem Run.inv {s₀ : Pipe} {tr : List Event} (h₀ : Inv s₀) (h : Run s₀ tr s) : Inv s := by
  induction h with
  | nil => exact h₀
  | cons op _ henabled hstep ih => exact ih.does (ih.does_of_step henabled hstep)

end Ucore.Pipes
