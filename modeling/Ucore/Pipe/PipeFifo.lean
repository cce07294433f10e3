import Ucore.Pipe.PipeInv

/-!
# Pipes: a byte FIFO

* `Fifo.does` — what has been appended is what has been removed, and then what is in the ring;
* `Writes.does` — a write has appended the first bytes of its buffer;
* `pipe_fifo` — in every run whose counters have not wrapped.
-/

namespace Ucore.Pipes

open Waits (Kern)

/-- The bytes that a step appends. -/
def Event.puts : Event → List UInt8
  | .put _ data | .wrote _ _ data _ => data
  | _ => []

/-- The bytes that a step removes. -/
def Event.takes : Event → List UInt8
  | .took _ _ data => data
  | _ => []

/-- The bytes that a step of the write `w` appends. -/
def Event.putsOf (w : ℕ) : Event → List UInt8
  | .put x data | .wrote x _ data _ => if x = w then data else []
  | _ => []

/-- All bytes appended, in order. -/
def appended : List Event → List UInt8
  | [] => []
  | e :: tr => appended tr ++ e.puts

/-- All bytes returned by reads, in the order in which they were removed. -/
def removed : List Event → List UInt8
  | [] => []
  | e :: tr => removed tr ++ e.takes

/-- All bytes appended by one write, in order. -/
def appendedBy (w : ℕ) : List Event → List UInt8
  | [] => []
  | e :: tr => appendedBy w tr ++ e.putsOf w

variable {s s' : Pipe} {tr : List Event} {e : Event}

/-! ## The bytes -/

/-- Reads keep the unread bytes behind those that they take; writes append to the unread bytes, if
all have slots of their own. -/
theorem Does.unread (hdoes : Does s e s') (h : s'.Apart) : s.unread ++ e.puts = e.takes ++ s'.unread := by
  cases hdoes with
  | killed | closed | waits | gaveUp => exact List.append_nil _
  | took p n data rpos k hreads htook =>
    show s.unread ++ [] = data ++ Pipe.unread { s with rpos := rpos }
    rw [List.append_nil]
    exact htook.unread
  | put p w buf ret c b wpos k writes hbegun hopen hwrote => exact (hwrote.unread h).symm
  | wrote p w buf ret c b wpos k writes hbegun hopen hwrote => exact (hwrote.unread h).symm

/-- What a step does with the counters. -/
theorem Does.counters (hdoes : Does s e s') : s'.len + e.takes.length = s.len + e.puts.length ∧
    (s.Unwrapped → s.wpos.toNat + e.puts.length < 2 ^ 32 →
      s'.Unwrapped ∧ s'.wpos.toNat = s.wpos.toNat + e.puts.length) := by
  cases hdoes with
  | killed | closed | waits | gaveUp => exact ⟨rfl, fun h _ => ⟨h, rfl⟩⟩
  | took p n data rpos k hreads htook => exact ⟨htook.len, fun h _ => ⟨htook.unwrapped h, rfl⟩⟩
  | put p w buf ret c b wpos k writes hbegun hopen hwrote =>
    have hputs : (Event.put w ((buf.drop ret).take c)).puts.length = c := List.length_take_of_le hwrote.count
    rw [hputs]
    exact ⟨hwrote.len, hwrote.unwrapped⟩
  | wrote p w buf ret c b wpos k writes hbegun hopen hwrote =>
    have hputs : (Event.wrote w buf ((buf.drop ret).take c) (ret + c)).puts.length = c :=
      List.length_take_of_le hwrote.count
    rw [hputs]
    exact ⟨hwrote.len, hwrote.unwrapped⟩

/-- What has been appended is what has been removed, and then what is in the ring. -/
structure Fifo (tr : List Event) (s : Pipe) : Prop where
  count : (appended tr).length = (removed tr).length + s.len
  data : (appended tr).length < 2 ^ 32 → s.Unwrapped ∧ s.wpos.toNat = (appended tr).length ∧
    appended tr = removed tr ++ s.unread

/-- **Every step keeps the order of the bytes.** -/
theorem Fifo.does (h : Fifo tr s) (hdoes : Does s e s') (hlen : s'.len ≤ PIPE_BUFSIZE) : Fifo (e :: tr) s' := by
  obtain ⟨hbalance, hcounters⟩ := hdoes.counters
  have hcount := h.count
  have happended : (appended (e :: tr)).length = (appended tr).length + e.puts.length := List.length_append
  have hremoved : (removed (e :: tr)).length = (removed tr).length + e.takes.length := List.length_append
  refine ⟨by omega, fun hwrap => ?_⟩
  obtain ⟨hun, hpos, hdata⟩ := h.data (by omega)
  obtain ⟨hun', hpos'⟩ := hcounters hun (by omega)
  refine ⟨hun', by omega, ?_⟩
  show appended tr ++ e.puts = removed tr ++ e.takes ++ s'.unread
  rw [hdata, List.append_assoc, hdoes.unread (Unwrapped.apart hun' hlen), List.append_assoc]

/-! ## Writes -/

/-- The write has returned. -/
def Returned (tr : List Event) (w : ℕ) : Prop := ∃ buf data ret, .wrote w buf data ret ∈ tr

/-- What each write has appended. -/
structure Writes (tr : List Event) (s : Pipe) : Prop where
  fresh : ∀ w, s.writes ≤ w → appendedBy w tr = [] ∧ ¬ Returned tr w
  active : ∀ p w buf ret, s.call p = .writing w buf ret →
    w < s.writes ∧ appendedBy w tr = buf.take ret ∧ ¬ Returned tr w
  single : ∀ p q w buf ret buf' ret', s.call p = .writing w buf ret → s.call q = .writing w buf' ret' → p = q
  done : ∀ w buf data ret, .wrote w buf data ret ∈ tr → ret ≤ buf.length ∧ appendedBy w tr = buf.take ret

theorem appendedBy_cons_of_ne {w : ℕ} (h : e.putsOf w = []) : appendedBy w (e :: tr) = appendedBy w tr := by
  show appendedBy w tr ++ e.putsOf w = _
  rw [h, List.append_nil]

/-- A step that is not part of a write. -/
theorem Writes.same (h : Writes tr s) (hputs : ∀ w, e.putsOf w = [])
    (hwrote : ∀ w buf data ret, e ≠ .wrote w buf data ret)
    (hwrites : s'.writes = s.writes)
    (hcall : ∀ p w buf ret, s'.call p = .writing w buf ret → s.call p = .writing w buf ret) :
    Writes (e :: tr) s' := by
  have hby : ∀ w, appendedBy w (e :: tr) = appendedBy w tr := fun w => appendedBy_cons_of_ne (hputs w)
  have hreturned : ∀ w, Returned (e :: tr) w → Returned tr w := by
    rintro w ⟨buf, data, ret, hmem⟩
    rcases List.mem_cons.mp hmem with heq | hmem
    · exact absurd heq.symm (hwrote w buf data ret)
    · exact ⟨buf, data, ret, hmem⟩
  refine ⟨fun w hw => ?_, fun p w buf ret hp => ?_, fun p q w buf ret buf' ret' hp hq => ?_,
    fun w buf data ret hmem => ?_⟩
  · rw [hwrites] at hw
    rw [hby]
    exact ⟨(h.fresh w hw).1, fun hr => (h.fresh w hw).2 (hreturned w hr)⟩
  · obtain ⟨hlt, happended, hnot⟩ := h.active p w buf ret (hcall p w buf ret hp)
    rw [hby, hwrites]
    exact ⟨hlt, happended, fun hr => hnot (hreturned w hr)⟩
  · exact h.single p q w buf ret buf' ret' (hcall p w buf ret hp) (hcall q w buf' ret' hq)
  · rcases List.mem_cons.mp hmem with heq | hmem
    · exact absurd heq.symm (hwrote w buf data ret)
    · rw [hby]
      exact h.done w buf data ret hmem

/-- A write that begins or goes on has appended the first bytes of its buffer, and no other process has it. -/
theorem Writes.begun (h : Writes tr s) {p w : ℕ} {buf : List UInt8} {ret writes : ℕ}
    (hbegun : Begun s p w buf ret writes) : s.writes ≤ writes ∧ w < writes ∧ appendedBy w tr = buf.take ret ∧
      ¬ Returned tr w ∧ ∀ q buf' ret', s.call q = .writing w buf' ret' → q = p := by
  rcases hbegun with ⟨-, rfl, rfl, rfl⟩ | ⟨hcall, rfl⟩
  · obtain ⟨hnone, hnot⟩ := h.fresh s.writes (Nat.le_refl _)
    refine ⟨Nat.le_succ _, Nat.lt_succ_self _, hnone, hnot, fun q buf' ret' hq => ?_⟩
    exact absurd (h.active q _ buf' ret' hq).1 (Nat.lt_irrefl _)
  · obtain ⟨hlt, happended, hnot⟩ := h.active p w buf ret hcall
    exact ⟨Nat.le_refl _, hlt, happended, hnot, fun q buf' ret' hq => h.single q p w buf' ret' buf ret hq hcall⟩

/-- A step of a write. -/
theorem Writes.write (h : Writes tr s) {p w c ret writes : ℕ} {buf : List UInt8} {call : Call}
    (hbegun : Begun s p w buf ret writes) (hputs : ∀ x, e.putsOf x = if w = x then (buf.drop ret).take c else [])
    (hle : ret + c ≤ buf.length) (hwrites : s'.writes = writes) (hcall : s'.call = Function.update s.call p call)
    (hend : call = .writing w buf (ret + c) ∧ (∀ x buf data ret, e ≠ .wrote x buf data ret) ∨
      call = .idle ∧ ∃ data, e = .wrote w buf data (ret + c)) : Writes (e :: tr) s' := by
  obtain ⟨hgrow, hlt, happended, hnot, halone⟩ := h.begun hbegun
  have hby : appendedBy w (e :: tr) = buf.take (ret + c) := by
    show appendedBy w tr ++ e.putsOf w = _
    rw [hputs, if_pos rfl, happended, List.take_add]
  have hother : ∀ x, x ≠ w → appendedBy x (e :: tr) = appendedBy x tr := by
    intro x hx
    refine appendedBy_cons_of_ne ?_
    rw [hputs, if_neg (Ne.symm hx)]
  -- what a step of another write would be
  have hreturned : ∀ x, x ≠ w → Returned (e :: tr) x → Returned tr x := by
    rintro x hx ⟨buf', data', ret', hmem⟩
    rcases List.mem_cons.mp hmem with heq | hmem
    · rcases hend with ⟨-, hnone⟩ | ⟨-, data, rfl⟩
      · exact absurd heq.symm (hnone x buf' data' ret')
      · cases heq
        exact absurd rfl hx
    · exact ⟨buf', data', ret', hmem⟩
  have hold : ∀ q x buf' ret', s'.call q = .writing x buf' ret' → q ≠ p → s.call q = .writing x buf' ret' ∧
    x ≠ w := by
    intro q x buf' ret' hq hqp
    rw [hcall, Function.update_of_ne hqp] at hq
    refine ⟨hq, ?_⟩
    rintro rfl
    exact hqp (halone q buf' ret' hq)
  have hself : ∀ x buf' ret', s'.call p = .writing x buf' ret' →
      x = w ∧ buf' = buf ∧ ret' = ret + c ∧ ∀ x buf data ret, e ≠ .wrote x buf data ret := by
    intro x buf' ret' hp
    rw [hcall, Function.update_self] at hp
    rcases hend with ⟨hwriting, hnone⟩ | ⟨hidle, -⟩
    · cases hwriting.symm.trans hp
      exact ⟨rfl, rfl, rfl, hnone⟩
    · cases hidle.symm.trans hp
  refine ⟨fun x hx => ?_, fun q x buf' ret' hq => ?_, fun q r x buf' ret' buf'' ret'' hq hr => ?_,
    fun x buf' data' ret' hmem => ?_⟩
  · rw [hwrites] at hx
    have hxw : x ≠ w := fun heq => absurd (heq ▸ hlt) (Nat.not_lt.mpr hx)
    rw [hother x hxw]
    exact ⟨(h.fresh x (hgrow.trans hx)).1, fun hret => (h.fresh x (hgrow.trans hx)).2 (hreturned x hxw hret)⟩
  · rw [hwrites]
    by_cases hqp : q = p
    · rw [hqp] at hq
      obtain ⟨rfl, rfl, rfl, hnone⟩ := hself x buf' ret' hq
      refine ⟨hlt, hby, ?_⟩
      rintro ⟨b, data, r, hmem⟩
      rcases List.mem_cons.mp hmem with heq | hmem
      · exact hnone x b data r heq.symm
      · exact hnot ⟨b, data, r, hmem⟩
    · obtain ⟨hq', hxw⟩ := hold q x buf' ret' hq hqp
      obtain ⟨hxlt, hxby, hxnot⟩ := h.active q x buf' ret' hq'
      rw [hother x hxw]
      exact ⟨hxlt.trans_le hgrow, hxby, fun hret => hxnot (hreturned x hxw hret)⟩
  · by_cases hqp : q = p
    · by_cases hrp : r = p
      · rw [hqp, hrp]
      · rw [hqp] at hq
        exact absurd (hself x buf' ret' hq).1 (hold r x buf'' ret'' hr hrp).2
    · by_cases hrp : r = p
      · rw [hrp] at hr
        exact absurd (hself x buf'' ret'' hr).1 (hold q x buf' ret' hq hqp).2
      · exact h.single q r x buf' ret' buf'' ret'' (hold q x buf' ret' hq hqp).1 (hold r x buf'' ret'' hr hrp).1
  · rcases List.mem_cons.mp hmem with heq | hmem
    · rcases hend with ⟨-, hnone⟩ | ⟨-, data, rfl⟩
      · exact absurd heq.symm (hnone x buf' data' ret')
      · cases heq
        exact ⟨hle, hby⟩
    · have hxw : x ≠ w := by
        rintro rfl
        exact hnot ⟨buf', data', ret', hmem⟩
      rw [hother x hxw]
      exact h.done x buf' data' ret' hmem

/-- **Every write appends the first bytes of its buffer.** -/
theorem Writes.does (h : Writes tr s) (hdoes : Does s e s') : Writes (e :: tr) s' := by
  -- the process of a read is in no write after it
  have hread : ∀ p c, (∀ w buf ret, c ≠ .writing w buf ret) → ∀ q w buf ret,
      Function.update s.call p c q = .writing w buf ret → s.call q = .writing w buf ret := by
    intro p c hc q w buf ret hq
    by_cases hqp : q = p
    · rw [hqp, Function.update_self] at hq
      exact absurd hq (hc w buf ret)
    · rw [Function.update_of_ne hqp] at hq
      exact hq
  cases hdoes with
  | killed | closed => exact h.same (fun _ => rfl) nofun rfl fun _ _ _ _ hp => hp
  | waits p | gaveUp p | took p => exact h.same (fun _ => rfl) nofun rfl (hread p _ nofun)
  | put p w buf ret c b wpos k writes hbegun hopen hwrote hless =>
    exact h.write hbegun (fun _ => rfl) hless.le rfl rfl (Or.inl ⟨rfl, nofun⟩)
  | wrote p w buf ret c b wpos k writes hbegun hopen hwrote hle =>
    exact h.write hbegun (fun _ => rfl) hle rfl rfl (Or.inr ⟨rfl, _, rfl⟩)

/-! ## Closing, and reads of nothing -/

/-- No byte is appended after the pipe has been closed. -/
def Shut (tr : List Event) : Prop := ∀ tr₁ tr₂, tr = tr₁ ++ .closed :: tr₂ → ∀ e ∈ tr₁, e.puts = []

/-- A read of something returns nothing only when the pipe has been closed, and all bytes have been removed. -/
def Dry (tr : List Event) : Prop := ∀ tr₁ tr₂ p n, tr = tr₁ ++ .took p n [] :: tr₂ → 0 < n →
  .closed ∈ tr₂ ∧ (removed tr₂).length = (appended tr₂).length

/-- What holds of a run. -/
structure Kept (tr : List Event) (s : Pipe) : Prop where
  inv : Inv s
  fifo : Fifo tr s
  writes : Writes tr s
  closed : s.isclosed = true ↔ .closed ∈ tr
  shut : Shut tr
  dry : Dry tr

theorem Does.closed_iff (hdoes : Does s e s') : s'.isclosed = true ↔ s.isclosed = true ∨ e = .closed := by
  cases hdoes with
  | closed => exact ⟨fun _ => Or.inr rfl, fun _ => rfl⟩
  | killed | waits | gaveUp | took | put | wrote => exact ⟨Or.inl, fun h => h.resolve_right nofun⟩

/-- A closed pipe takes no bytes. -/
theorem Does.puts_nil (hdoes : Does s e s') (hclosed : s.isclosed = true) : e.puts = [] := by
  cases hdoes with
  | killed | closed | waits | gaveUp | took => rfl
  | put p w buf ret c b wpos k writes hbegun hopen => exact absurd (hclosed.symm.trans hopen) nofun
  | wrote p w buf ret c b wpos k writes hbegun hopen =>
    rcases hopen with hopen | rfl
    · exact absurd (hclosed.symm.trans hopen) nofun
    · rfl

theorem Does.dry {p n : ℕ} (hdoes : Does s (.took p n []) s') (hn : 0 < n) : s.len = 0 ∧ s.isclosed = true := by
  cases hdoes with
  | took _ _ _ _ _ _ _ hnothing => exact hnothing hn rfl

theorem Kept.step (h : Kept tr s) (hdoes : Does s e s') : Kept (e :: tr) s' := by
  refine ⟨h.inv.does hdoes, h.fifo.does hdoes (h.inv.does hdoes).len, h.writes.does hdoes, ?_, fun tr₁ tr₂ heq => ?_,
    fun tr₁ tr₂ p n heq hn => ?_⟩
  · rw [hdoes.closed_iff, h.closed, List.mem_cons, or_comm, eq_comm]
  · cases tr₁ with
    | nil => exact nofun
    | cons e' tr₁ =>
      injection heq with hhead htail
      intro x hx
      rcases List.mem_cons.mp hx with rfl | hx
      · rw [← hhead]
        refine hdoes.puts_nil (h.closed.mpr ?_)
        rw [htail]
        exact List.mem_append_right _ List.mem_cons_self
      · exact h.shut tr₁ tr₂ htail x hx
  · cases tr₁ with
    | nil =>
      injection heq with hhead htail
      subst hhead htail
      obtain ⟨hlen, hclosed⟩ := hdoes.dry hn
      have hcount := h.fifo.count
      rw [hlen, Nat.add_zero] at hcount
      exact ⟨h.closed.mp hclosed, hcount.symm⟩
    | cons e' tr₁ =>
      injection heq with _ htail
      exact h.dry tr₁ tr₂ p n htail hn

theorem create_kept {k : Kern Queue} (hk : Waits.Quiet k) (buf : ℕ → UInt8) : Kept [] (pipeStateCreate k buf) := by
  have hlen := create_len k buf
  refine ⟨create_inv hk buf, ⟨by rw [hlen]; rfl, fun _ => ⟨?_, rfl, ?_⟩⟩,
    ⟨fun w _ => ⟨rfl, nofun⟩, nofun, nofun, nofun⟩,
    ⟨nofun, nofun⟩, fun tr₁ _ heq => ?_, fun tr₁ _ _ _ heq => ?_⟩
  · unfold Pipe.Unwrapped
    rw [hlen]
    rfl
  · unfold Pipe.unread
    rw [hlen]
    rfl
  · cases tr₁ <;> cases heq
  · cases tr₁ <;> cases heq

theorem Run.kept {s₀ : Pipe} (h₀ : Kept [] s₀) (h : Run s₀ tr s) : Kept tr s := by
  induction h with
  | nil => exact h₀
  | cons op _ henabled hstep ih => exact ih.step (ih.inv.does_of_step henabled hstep)

/-- What a run whose counters have not wrapped has kept. -/
structure ByteFifo (tr : List Event) (s : Pipe) : Prop where
  noPanic : ∀ op, s.Enabled op → s.step op ≠ none
  order : removed tr <+: appended tr
  bound : s.rpos.toNat ≤ s.wpos.toNat ∧ s.wpos.toNat - s.rpos.toNat ≤ PIPE_BUFSIZE
  written : ∀ w buf data ret, .wrote w buf data ret ∈ tr → ret ≤ buf.length ∧ appendedBy w tr = buf.take ret
  shut : Shut tr
  dry : Dry tr

/-- **A pipe is a byte FIFO.**  In every run whose counters have not wrapped: what reads have returned is a prefix of
what writes have appended; the ring holds at most `PIPE_BUFSIZE` bytes; each write that has returned has
appended as many of the first bytes of its buffer as it returned; nothing is appended after the close; and a
read of something has returned nothing only from a closed and empty pipe, or when its wait was
interrupted. -/
theorem pipe_fifo {k : Kern Queue} (hk : Waits.Quiet k) (buf : ℕ → UInt8) (hrun : Run (pipeStateCreate k buf) tr s)
    (hwrap : (appended tr).length < 2 ^ 32) : ByteFifo tr s := by
  have h := hrun.kept (create_kept hk buf)
  obtain ⟨hun, -, hdata⟩ := h.fifo.data hwrap
  have hlen := h.inv.len
  unfold Pipe.Unwrapped at hun
  refine ⟨fun op henabled => ?_, ⟨s.unread, hdata.symm⟩, ⟨by omega, by omega⟩, h.writes.done, h.shut, h.dry⟩
  obtain ⟨e, s', hstep, -⟩ := h.inv.step_spec henabled
  rw [hstep]
  exact Option.some_ne_none _

/-- Process 1 reads from the empty pipe and waits; process 2 writes three bytes; process 1 takes two of them; the pipe
is closed, and process 2 can write nothing more. -/
theorem pipe_fifo_closed : ∃ s, Run (pipeStateCreate (Kern.boot Queue) fun _ => 0)
      [.wrote 1 [9] [] 0, .closed, .took 1 2 [5, 6], .wrote 0 [5, 6, 7] [5, 6, 7] 3, .waits 1] s ∧
      ByteFifo [.wrote 1 [9] [] 0, .closed, .took 1 2 [5, 6], .wrote 0 [5, 6, 7] [5, 6, 7] 3, .waits 1] s := by
  have h₁ := (@Run.nil (pipeStateCreate (Kern.boot Queue) fun _ => 0)).cons (.read 1 2) ⟨rfl, rfl⟩ rfl
  have h₂ := h₁.cons (.write 2 [5, 6, 7]) ⟨rfl, rfl⟩ rfl
  have h₃ := h₂.cons (.resume 1) ⟨rfl, nofun⟩ rfl
  have h₄ := h₃.cons .close trivial rfl
  have h₅ := h₄.cons (.write 2 [9]) ⟨rfl, rfl⟩ rfl
  exact ⟨_, h₅, pipe_fifo (Kern.boot_quiet Queue) _ h₅ (by decide)⟩

end Ucore.Pipes
