import Ucore.Pipe.PipeFifo

/-!
# Pipes: counters that wrap

The ring has 4040 slots, which does not divide the range of a counter.

* `apart_iff` — where two unread bytes have one slot;
* `pipe_slots` — in every run; `pipe_overwrites` is one that loses a byte.
-/

namespace Ucore.Pipes

open Waits (Kern)

/-- The unread bytes do not cross the end of the range of a counter, or are no more than what the size of the ring
leaves over of it. -/
def Pipe.Clear (s : Pipe) : Prop := s.rpos.toNat + s.len ≤ 2 ^ 32 ∨ s.len ≤ 2 ^ 32 % PIPE_BUFSIZE

variable {s s' : Pipe} {tr : List Event} {e : Event}

/-- **Where slots collide.** -/
theorem apart_iff (h : s.len ≤ PIPE_BUFSIZE) : s.Apart ↔ s.Clear := by
  have hdistinct : s.Apart ↔ Ring.Distinct (2 ^ 32) PIPE_BUFSIZE s.rpos.toNat s.len := by
    unfold Pipe.Apart Ring.Distinct
    simp only [slotOf_eq]
  rw [hdistinct]
  exact Ring.slots_distinct_iff s.rpos.toNat_lt h (by decide) (by decide)

/-- Steps that all end with a clear ring. -/
inductive ClearRun (s₀ : Pipe) : List Event → Pipe → Prop
  | nil : ClearRun s₀ [] s₀
  | cons {tr : List Event} {s s' : Pipe} {e : Event} (op : Op) (hrun : ClearRun s₀ tr s) (henabled : s.Enabled op)
      (hstep : s.step op = some (e, s')) (hclear : s'.Clear) : ClearRun s₀ (e :: tr) s'

theorem ClearRun.run {s₀ : Pipe} (h : ClearRun s₀ tr s) : Run s₀ tr s := by
  induction h with
  | nil => exact .nil
  | cons op _ henabled hstep _ ih => exact ih.cons op henabled hstep

theorem Run.apart_iff_clear {s₀ : Pipe} (h₀ : Inv s₀) (h : Run s₀ tr s) : s.Apart ↔ s.Clear :=
  apart_iff (h.inv h₀).len

/-- No byte is lost, repeated or changed. -/
theorem ClearRun.unread {s₀ : Pipe} (h₀ : Inv s₀) (hempty : s₀.len = 0) (h : ClearRun s₀ tr s) :
    s.Apart ∧ appended tr = removed tr ++ s.unread := by
  induction h with
  | nil =>
    refine ⟨fun i _ hi => absurd hi (by omega), ?_⟩
    unfold Pipe.unread
    rw [hempty]
    rfl
  | @cons tr s s' e op hrun henabled hstep hclear ih =>
    have hinv := hrun.run.inv h₀
    have hdoes := hinv.does_of_step henabled hstep
    have hapart : s'.Apart := (apart_iff (hinv.does hdoes).len).mpr hclear
    refine ⟨hapart, ?_⟩
    show appended tr ++ e.puts = removed tr ++ e.takes ++ s'.unread
    rw [ih.2, List.append_assoc, hdoes.unread hapart, List.append_assoc]

/-- **Ring positions collide only around the end of the range.**  After any run the unread bytes have slots of their
own exactly if they do not cross the end of the range of a counter, or are at most 2896; in a run that
always ends a step so, reads find what writes have appended. -/
theorem pipe_slots {k : Kern Queue} (hk : Waits.Quiet k) (buf : ℕ → UInt8) :
    (∀ tr s, Run (pipeStateCreate k buf) tr s → (s.Apart ↔ s.Clear)) ∧
      ∀ tr s, ClearRun (pipeStateCreate k buf) tr s → s.Apart ∧ appended tr = removed tr ++ s.unread :=
  ⟨fun _ _ hrun => hrun.apart_iff_clear (create_inv hk buf),
    fun _ _ hrun => hrun.unread (create_inv hk buf) (create_len k buf)⟩

/-- Three bytes are written, and two of them read. -/
theorem pipe_slots_three : ∃ s, ClearRun (pipeStateCreate (Kern.boot Queue) fun _ => 0)
    [.took 1 2 [5, 6], .wrote 0 [5, 6, 7] [5, 6, 7] 3] s ∧ s.Apart ∧ [5, 6, 7] = [5, 6] ++ s.unread := by
  have h₁ := (@ClearRun.nil (pipeStateCreate (Kern.boot Queue) fun _ => 0)).cons (.write 2 [5, 6, 7]) ⟨rfl, rfl⟩ rfl
    (Or.inr (by decide))
  have h₂ := h₁.cons (.read 1 2) ⟨rfl, rfl⟩ rfl (Or.inr (by decide))
  exact ⟨_, h₂, (pipe_slots (Kern.boot_quiet Queue) _).2 _ _ h₂⟩

/-! ## A byte that is lost -/

/-- The state of a pipe through which single zeros have passed: nobody waits, and every slot holds a zero. -/
def zeros (r w : UInt32) (writes : ℕ) : Pipe :=
  ⟨r, w, fun _ => 0, false, 1, Kern.boot Queue, fun _ => .idle, writes⟩

theorem zeros_len (r : UInt32) {n : ℕ} (hn : n < 2 ^ 32) (writes : ℕ) :
    (zeros r (r + UInt32.ofNat n) writes).len = n := by
  show (r + UInt32.ofNat n - r).toNat = n
  rw [UInt32.add_comm, UInt32.add_sub_cancel, UInt32.toNat_ofNat', Nat.mod_eq_of_lt hn]

/-- A single byte is written. -/
theorem zeros_write {r w : UInt32} {writes : ℕ} (hlen : (zeros r w writes).len < PIPE_BUFSIZE) (b : UInt8) :
    (zeros r w writes).step (.write 1 [b]) = some (.wrote writes [b] [b] 1,
      { zeros r (w + 1) (writes + 1) with buf := Function.update (fun _ => 0) (slot w) b }) := by
  have hfull : Pipe.isFull { zeros r w (writes + 1) with sem := 0 } ≠ true := by
    intro hfull
    exact absurd (isFull_iff.mp hfull) (Nat.not_le.mpr hlen)
  have hcall : Function.update (fun _ => Call.idle) 1 Call.idle = fun _ => Call.idle := Function.update_eq_self 1 _
  show Pipe.write (zeros r w (writes + 1)) 1 writes [b] 0 = _
  unfold Pipe.write
  rw [lockState_of_free rfl]
  dsimp only [Option.bind]
  rw [if_neg (by exact Bool.false_ne_true), List.drop_zero, writeLoop_push hfull]
  -- what is left is a computation, up to the call of the process
  show some (Event.wrote writes [b] [b] 1, Pipe.setCall
    { zeros r (w + 1) (writes + 1) with buf := Function.update (fun _ => 0) (slot w) b } 1 .idle) = _
  unfold Pipe.setCall zeros
  rw [hcall]

/-- A single byte is read. -/
theorem zeros_read {r w : UInt32} {writes : ℕ} (hlen : (zeros r w writes).len ≠ 0) :
    (zeros r w writes).step (.read 1 1) = some (.took 1 1 [0], zeros (r + 1) w writes) := by
  have hempty : Pipe.isEmpty { zeros r w writes with sem := 0 } ≠ true := by
    intro hempty
    exact hlen (isEmpty_iff.mp hempty)
  have hcall : Function.update (fun _ => Call.idle) 1 Call.idle = fun _ => Call.idle := Function.update_eq_self 1 _
  show Pipe.read (zeros r w writes) 1 1 = _
  unfold Pipe.read
  rw [lockState_of_free rfl]
  dsimp only [Option.bind]
  rw [if_neg hempty]
  have hloop : Pipe.readLoop { zeros r w writes with sem := 0 } 1 =
    ([0], { zeros (r + 1) w writes with sem := 0 }) := if_neg hempty
  generalize Pipe.readLoop { zeros r w writes with sem := 0 } 1 = taken at hloop ⊢
  subst hloop
  show some (Event.took 1 1 [0], Pipe.setCall (zeros (r + 1) w writes) 1 .idle) = _
  unfold Pipe.setCall zeros
  rw [hcall]

theorem ofNat_succ (n : ℕ) : UInt32.ofNat (n + 1) = UInt32.ofNat n + 1 := UInt32.ofNat_add n 1

variable {s₀ : Pipe}

/-- One more zero is written. -/
theorem zeros_step {r : UInt32} {n writes : ℕ} (hn : n < PIPE_BUFSIZE)
    (h : Run s₀ tr (zeros r (r + UInt32.ofNat n) writes)) :
    ∃ tr', Run s₀ tr' (zeros r (r + UInt32.ofNat (n + 1)) (writes + 1)) := by
  have hn32 : n < 2 ^ 32 := hn.trans (by decide)
  have hstep := zeros_write (b := 0) (by rw [zeros_len r hn32 writes]; exact hn)
  rw [Function.update_eq_self] at hstep
  rw [ofNat_succ, ← UInt32.add_assoc]
  exact ⟨_, h.cons (.write 1 [0]) ⟨rfl, rfl⟩ hstep⟩

/-- Zeros are written until `n` of them are unread. -/
theorem zeros_fill {r : UInt32} {writes : ℕ} (h : Run s₀ tr (zeros r r writes)) (n : ℕ) (hn : n ≤ PIPE_BUFSIZE) :
    ∃ tr', Run s₀ tr' (zeros r (r + UInt32.ofNat n) (writes + n)) := by
  induction n with
  | zero =>
    rw [show UInt32.ofNat 0 = 0 from rfl, UInt32.add_zero]
    exact ⟨tr, h⟩
  | succ n ih =>
    obtain ⟨tr', hrun⟩ := ih (Nat.le_of_succ_le hn)
    exact zeros_step hn hrun

/-- Zeros pass through the pipe, one by one. -/
theorem zeros_pass (n : ℕ) : ∃ tr, Run (zeros 0 0 0) tr (zeros (UInt32.ofNat n) (UInt32.ofNat n) n) := by
  induction n with
  | zero => exact ⟨[], .nil⟩
  | succ n ih =>
    obtain ⟨tr, hrun⟩ := ih
    obtain ⟨tr', hwrote⟩ := zeros_fill hrun 1 (by decide)
    have hlen := zeros_len (UInt32.ofNat n) (show 1 < 2 ^ 32 by decide) (n + 1)
    have hread := zeros_read (by rw [hlen]; exact Nat.one_ne_zero)
    rw [ofNat_succ]
    exact ⟨_, hwrote.cons (.read 1 1) ⟨rfl, rfl⟩ hread⟩

/-- Zeros pass through the pipe until 2896 more bytes would bring the counters to the end of their range.  Then 2896
zeros and a one are written, and the one is put into the slot of the first zero, which is unread. -/
theorem pipe_overwrites : ∃ tr s e s', Run (pipeStateCreate (Kern.boot Queue) fun _ => 0) tr s ∧
    s.step (.write 1 [1]) = some (e, s') ∧ s.len = 2896 ∧ s'.len = 2897 ∧ s'.rpos = s.rpos ∧
    s.buf (slot s.rpos) = 0 ∧ s'.buf (slot s.rpos) = 1 ∧ ¬ s'.Apart := by
  obtain ⟨tr, hpassed⟩ := zeros_pass (2 ^ 32 - 2896)
  obtain ⟨tr', hrun⟩ := zeros_fill hpassed 2896 (by decide)
  have hlen := zeros_len (UInt32.ofNat (2 ^ 32 - 2896)) (show 2896 < 2 ^ 32 by decide) (2 ^ 32 - 2896 + 2896)
  have hless : 2896 < PIPE_BUFSIZE := by decide
  have hstep := zeros_write (b := 1) (by rw [hlen]; exact hless)
  refine ⟨_, _, _, _, hrun, hstep, hlen, ?_, rfl, rfl, ?_, fun hapart => ?_⟩
  · decide
  · decide
  · -- the first and the last unread byte
    have hsame := hapart 0 2896 (by decide) (by decide) (by decide)
    cases hsame

end Ucore.Pipes
