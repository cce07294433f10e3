import Ucore.Sync.MboxMsg

/-!
# Mailboxes: a message that cannot be copied

`ipc_mbox_recv` puts a message back under the id of its mailbox, without a look at `max_slots` and without a
way to see that the id belongs to a new mailbox.

* `failed_receive_restores` — the mailboxes keep to their slots, and messages go back to where they came
  from, in the runs where every failed copy finds no open mailbox, or its own with a free slot.
* `failed_receive_overfills` — a run in which one does not.
-/

namespace Ucore.Mboxes

open Waits (Kern)

variable {s s' : Sys} {mid mid' : Mid} {tr es : List Event} {e : Event} {p q m n id opening : ℕ} {msg : Msg} {op : Op}

/-- A failed copy finds no open mailbox with the id, or the one that it picked from, with a free slot. -/
def Restorable (s : Sys) : Op → Prop
  | .copy p false => ∀ id msg opening, s.call p = .holding id msg opening → s.getMbox id = true →
    (s.mbox id).opening = opening ∧ (s.mbox id).slots < (s.mbox id).maxSlots
  | _ => True

/-- The message is back in front of the mailbox that it was picked from, which is still open, or has been
discarded because that one was freed. -/
def Restored (tr : List Event) (s : Sys) (p id : ℕ) (msg : Msg) (opening : ℕ) (e : Event) (s' : Sys) : Prop :=
  e = .putBack p msg.num opening opening ∧ (s'.mbox id).state = .opened ∧ (s'.mbox id).opening = opening ∧
      (s'.mbox id).msgs = msg :: (s.mbox id).msgs ∨
    e = .discarded p msg.num opening ∧ ∃ r ns, .freed r id opening ns ∈ tr

/-- No open mailbox has more messages than slots. -/
def Room (s : Sys) : Prop := ∀ m, (s.mbox m).state = .opened → (s.mbox m).slots ≤ (s.mbox m).maxSlots

/-- One mailbox changes. -/
theorem Room.set (h : Room s) {box : Mbox} (hmbox : s'.mbox = Function.update s.mbox m box)
    (hbox : box.state = .opened → box.slots ≤ box.maxSlots) : Room s' := by
  intro m' hm'
  rw [hmbox] at hm' ⊢
  by_cases hm : m' = m
  · rw [hm, Function.update_self] at hm' ⊢
    exact hbox hm'
  · rw [Function.update_of_ne hm] at hm' ⊢
    exact h m' hm'

theorem Room.left (h : Room s) (m : ℕ) : Room (s.left m) := by
  unfold Sys.left
  split
  · exact h.set rfl nofun
  · exact h.set rfl fun hm => h m hm

/-- Only a message put back can overfill a mailbox. -/
theorem Room.does (h : Room s) (hinv : Inv mid s) (hdoes : Does mid s es mid' s')
    (hput : ∀ p n x y, .putBack p n x y ∉ es) : Room s' := by
  cases hdoes with
  | mapped _ p maxSlots i hcall =>
    intro m hm
    show (if m / MBOX_P_PAGE = i then Mbox.fresh else s.mbox m).slots ≤ _
    replace hm : (if m / MBOX_P_PAGE = i then Mbox.fresh else s.mbox m).state = .opened := hm
    split at hm
    · cases hm
    · rename_i hpage
      rw [if_neg hpage]
      show _ ≤ (if m / MBOX_P_PAGE = i then Mbox.fresh else s.mbox m).maxSlots
      rw [if_neg hpage]
      exact h m hm
  | opened _ p m maxSlots rest hcall hfree =>
    have hclosed := (hinv.frees.free m (by simp [hfree])).1
    refine h.set rfl fun _ => ?_
    show (s.mbox m).slots ≤ maxSlots
    rw [(hinv.boxes.closed m hclosed).2.1]
    exact Nat.zero_le _
  | enterSend _ p m | enterRecv _ p m | tooBig _ p m => exact h.set rfl fun hm => h m hm
  | sent _ p m msg timeout savedTicks start _ k hmid hcall hopened hroom => exact h.set rfl fun _ => hroom
  | picked _ p m size msg rest timeout savedTicks start _ k hmid hcall hopened =>
    exact h.set rfl fun _ => (Nat.sub_le _ _).trans (h m hopened)
  | failedSend _ p m => exact h.left m
  | failedRecv _ p m => exact h.left m
  | putBack => exact absurd (List.mem_singleton_self _) (hput _ _ _ _)
  | freed _ p m k₁ k hopened hk₁ hk hsenders hreceivers box free hclosing hclosed =>
    refine h.set rfl fun hbox => ?_
    by_cases hzero : (s.mbox m).inuse = 0
    · rw [(hclosed hzero).1] at hbox
      cases hbox
    · rw [(hclosing hzero).1] at hbox
      cases hbox
  | ticked | killed | plain | slept | arose | mapping | unmapped | unwait | block | lost | delivered | discarded =>
    exact h

/-- A process with a message that it has picked only copies it. -/
theorem Sys.Enabled.copy_of_holding (h : s.Enabled op) (hproc : op.proc = some p)
    (hcall : s.call p = .holding id msg opening) : ∃ ok, op = .copy p ok := by
  have hallows := h.allows hproc
  rw [hcall] at hallows
  cases op with
  | copy q ok =>
    cases hproc
    exact ⟨ok, rfl⟩
  | init | send | recv | free | sleep => cases hallows
  | map | load | prepare =>
    obtain ⟨_, _, hc⟩ := hallows
    cases hc
  | resume | tick | kill => exact hallows.elim

/-- Only a copy puts a message back. -/
theorem Inv.copy_of_putBack (h : Inv .out s) (henabled : s.Enabled op) {x y : ℕ}
    (hstep : s.step op = .ok (.putBack q n x y, s')) : ∃ ok, op = .copy q ok := by
  rcases h.step_spec henabled with ⟨e, s'', hstep', hproc, hsteps⟩ | ⟨hfail, -⟩
  · rw [hstep] at hstep'
    cases hstep'
    have hholding : ∃ id msg opening, s.call q = .holding id msg opening := by
      rcases hsteps with hdoes | ⟨mid, s₁, hfirst, hsecond⟩
      · cases hdoes with
        | plain _ _ _ _ _ _ he => exact he.elim nofun fun ⟨_, hr⟩ => absurd hr nofun
        | putBack _ _ id msg opening k hcall => exact ⟨_, _, _, hcall⟩
      · have hcall : mid = .out ∧ ∃ id msg opening, s₁.call q = .holding id msg opening := by
          cases hsecond with
          | plain _ _ _ _ _ _ he => exact he.elim nofun fun ⟨_, hr⟩ => absurd hr nofun
          | putBack _ _ id msg opening k hcall => exact ⟨rfl, _, _, _, hcall⟩
        obtain ⟨hout, id, msg, opening, hcall⟩ := hcall
        -- a new page: only the process that waited for it has a new call
        have hback : ∀ p, Function.update s.call p .idle q = .holding id msg opening →
          s.call q = .holding id msg opening := by
          intro p hq
          by_cases hqp : q = p
          · rw [hqp, Function.update_self] at hq
            cases hq
          · rw [Function.update_of_ne hqp] at hq
            exact hq
        cases hfirst with
        | mapped _ p => exact ⟨id, msg, opening, hback p hcall⟩
        | unmapped _ p => exact ⟨id, msg, opening, hback p hcall⟩
        | enterSend | enterRecv => cases hout
        | unwait _ p m side f k _ hrun hwait hmid =>
          rw [hout] at hmid
          split at hmid <;> cases hmid
    obtain ⟨id, msg, opening, hcall⟩ := hholding
    exact henabled.copy_of_holding hproc.symm hcall
  · rw [hstep] at hfail
    cases hfail

/-- The end of a receive whose copy fails. -/
theorem Inv.copy_failed (h : Inv .out s) (hcall : s.call p = .holding id msg opening) :
    s.getMbox id = true ∧ (∃ s', s.step (.copy p false) = .ok (.putBack p msg.num opening (s.mbox id).opening, s') ∧
        s'.mbox = Function.update s.mbox id { s.mbox id with
          slots := (s.mbox id).slots + 1
          msgs := msg :: (s.mbox id).msgs }) ∨
      s.getMbox id = false ∧ s.step (.copy p false) = .ok (.discarded p msg.num opening, s.setCall p .idle) := by
  have hstep : s.step (.copy p false) = s.copied p id msg opening false := by
    unfold Sys.step
    dsimp only
    rw [hcall]
  unfold Sys.copied at hstep
  rw [if_neg Bool.false_ne_true] at hstep
  by_cases hget : s.getMbox id = true
  · obtain ⟨k, hadd, -, -⟩ := s.addMsg_spec h.procs.kern (Sys.getMbox_opened hget) msg false
    rw [if_pos hget, hadd] at hstep
    exact Or.inl ⟨hget, _, hstep, rfl⟩
  · rw [if_neg hget] at hstep
    exact Or.inr ⟨Bool.eq_false_iff.mpr hget, hstep⟩

/-! ## Runs -/

theorem Room.steps (h : Room s) (hinv : Inv .out s) (hsteps : Steps s e s') (hput : ∀ p n x y, e ≠ .putBack p n x y) :
    Room s' := by
  have hput' : ∀ p n x y, .putBack p n x y ∉ [e] := fun p n x y he => hput p n x y (List.mem_singleton.mp he).symm
  rcases hsteps with hdoes | ⟨mid, s₁, hfirst, hsecond⟩
  · exact h.does hinv hdoes hput'
  · exact (h.does hinv hfirst nofun).does (hinv.does hfirst) hsecond hput'

theorem Room.step (h : Room s) (hinv : Inv .out s) (hmeets : Restorable s op) (henabled : s.Enabled op)
    (hstep : s.step op = .ok (e, s')) : Room s' := by
  by_cases hput : ∃ q n x y, e = .putBack q n x y
  · obtain ⟨q, n, x, y, rfl⟩ := hput
    obtain ⟨ok, rfl⟩ := hinv.copy_of_putBack henabled hstep
    obtain ⟨-, id, msg, opening, hcall⟩ := henabled
    cases ok with
    | true =>
      unfold Sys.step at hstep
      dsimp only at hstep
      rw [hcall] at hstep
      cases hstep
    | false =>
      rcases hinv.copy_failed hcall with ⟨hget, s'', hstep', hmbox⟩ | ⟨-, hstep'⟩
      · rw [hstep'] at hstep
        cases hstep
        exact h.set hmbox fun _ => (hmeets id msg _ hcall hget).2
      · rw [hstep'] at hstep
        cases hstep
  · exact h.steps hinv (hinv.steps_of_step henabled hstep) fun p n x y he => hput ⟨p, n, x, y, he⟩

theorem RunIf.room {k : Kern (ℕ × Side)} (hk : Waits.Quiet k) (h : RunIf Restorable (Sys.mboxInit k) tr s) :
    Room s := by
  induction h with
  | nil => exact nofun
  | cons op hrun hmeets henabled hstep ih =>
    exact ih.step (hrun.run.inv (mboxInit_inv hk)) hmeets henabled hstep

/-- The messages of a mailbox fit into it. -/
theorem Room.length_le (h : Room s) (hinv : Inv .out s) (m : ℕ) : (s.mbox m).msgs.length ≤ (s.mbox m).maxSlots := by
  cases hstate : (s.mbox m).state with
  | opened =>
    rw [← hinv.boxes.opened m hstate]
    exact h m hstate
  | closing =>
    rw [(hinv.boxes.closing m hstate).1]
    exact Nat.zero_le _
  | closed =>
    rw [(hinv.boxes.closed m hstate).1]
    exact Nat.zero_le _

/-- **A failed receive restores its mailbox.**  In every run whose failed copies find no open mailbox with their
id, or their own with a free slot: no mailbox holds more than `max_slots` messages; and of a process with
a message that it has picked, a failed copy puts the message back in front of its own mailbox, or discards
it because that was freed, and leaves at most `max_slots` messages, exactly if it finds such a state. -/
theorem failed_receive_restores {k : Kern (ℕ × Side)} (hk : Waits.Quiet k)
    (hrun : RunIf Restorable (Sys.mboxInit k) tr s) :
    (∀ m, (s.mbox m).msgs.length ≤ (s.mbox m).maxSlots) ∧
    ∀ p id msg opening, s.call p = .holding id msg opening →
      ((∃ e s', s.step (.copy p false) = .ok (e, s') ∧ Restored tr s p id msg opening e s' ∧
        (s'.mbox id).msgs.length ≤ (s'.mbox id).maxSlots) ↔ Restorable s (.copy p false)) := by
  have hkept := hrun.run.kept (mboxInit_kept hk)
  have hroom := (hrun.room hk).length_le hkept.inv
  refine ⟨hroom, fun p id msg opening hcall => ?_⟩
  rcases hkept.inv.copy_failed hcall with ⟨hget, s', hstep, hmbox⟩ | ⟨hgone, hstep⟩
  · have hopened := Sys.getMbox_opened hget
    have hbox : s'.mbox id = { s.mbox id with
        slots := (s.mbox id).slots + 1
        msgs := msg :: (s.mbox id).msgs } := by
      rw [hmbox, Function.update_self]
    constructor
    · rintro ⟨e, s'', hstep', hrestored, hfits⟩
      rw [hstep] at hstep'
      cases hstep'
      intro id' msg' opening' hcall' _
      cases hcall.symm.trans hcall'
      rcases hrestored with ⟨he, -⟩ | ⟨he, -⟩
      · injection he with _ _ _ hopening
        rw [hbox] at hfits
        refine ⟨hopening, ?_⟩
        rw [hkept.inv.boxes.opened id hopened]
        exact hfits
      · cases he
    · intro hmeets
      obtain ⟨hopening, hslots⟩ := hmeets id msg opening hcall hget
      refine ⟨_, s', hstep, Or.inl ⟨by rw [hopening], ?_, ?_, ?_⟩, ?_⟩
      · rw [hbox]
        exact hopened
      · rw [hbox]
        exact hopening
      · rw [hbox]
      · rw [hkept.inv.boxes.opened id hopened] at hslots
        rw [hbox]
        exact hslots
  · refine ⟨fun _ => ?_, fun _ => ⟨_, _, hstep, Or.inr ⟨rfl, ?_⟩, hroom id⟩⟩
    · intro id' msg' opening' hcall' hget
      cases hcall.symm.trans hcall'
      rw [hgone] at hget
      cases hget
    · exact hkept.inv.freed_of_gone hkept.bound hcall hgone

/-- Process 2 picks the message of process 1 and cannot copy it: it goes back. -/
theorem failed_receive_restores_one : ∃ tr s, RunIf Restorable (Sys.mboxInit (Kern.boot (ℕ × Side))) tr s ∧
    s.call 2 = .holding 0 ⟨0, 1, [7]⟩ 0 ∧ Restorable s (.copy 2 false) ∧
    ∃ e s', s.step (.copy 2 false) = .ok (e, s') ∧ Restored tr s 2 0 ⟨0, 1, [7]⟩ 0 e s' ∧
      (s'.mbox 0).msgs.length ≤ (s'.mbox 0).maxSlots := by
  have h₁ := (@RunIf.nil Restorable (Sys.mboxInit (Kern.boot (ℕ × Side)))).cons (.init 1 1) trivial
    ⟨rfl, rfl, rfl⟩ rfl
  have h₂ := h₁.cons (.map 1 true) trivial ⟨rfl, _, _, rfl⟩ rfl
  have h₃ := h₂.cons (.send 1 0 0) trivial ⟨rfl, rfl⟩ rfl
  have h₄ := h₃.cons (.load 1 (.data [7])) trivial (Sys.enabled_load rfl ⟨_, _, rfl⟩ (by decide)) rfl
  have h₅ := h₄.cons (.recv 2 0 0) trivial ⟨rfl, rfl⟩ rfl
  have h₆ := h₅.cons (.prepare 2 (some 8)) trivial ⟨rfl, ⟨_, _, rfl⟩, nofun⟩ rfl
  refine ⟨_, _, h₆, rfl, ?_, ((failed_receive_restores (Kern.boot_quiet _) h₆).2 2 0 _ 0 rfl).mpr ?_⟩ <;>
  · intro id msg opening hcall _
    cases hcall
    exact ⟨rfl, Nat.one_pos⟩

/-- Process 2 picks the only message, process 1 sends another into the free slot, and process 2 puts its own
back: there are two messages in a mailbox with one slot. -/
theorem failed_receive_overfills : ∃ tr s, Run (Sys.mboxInit (Kern.boot (ℕ × Side))) tr s ∧
    ∃ m, (s.mbox m).maxSlots < (s.mbox m).msgs.length := by
  have h₁ := (@Run.nil (Sys.mboxInit (Kern.boot (ℕ × Side)))).cons (.init 1 1) ⟨rfl, rfl, rfl⟩ rfl
  have h₂ := h₁.cons (.map 1 true) ⟨rfl, _, _, rfl⟩ rfl
  have h₃ := h₂.cons (.send 1 0 0) ⟨rfl, rfl⟩ rfl
  have h₄ := h₃.cons (.load 1 (.data [7])) (Sys.enabled_load rfl ⟨_, _, rfl⟩ (by decide)) rfl
  have h₅ := h₄.cons (.recv 2 0 0) ⟨rfl, rfl⟩ rfl
  have h₆ := h₅.cons (.prepare 2 (some 8)) ⟨rfl, ⟨_, _, rfl⟩, nofun⟩ rfl
  have h₇ := h₆.cons (.send 1 0 0) ⟨rfl, rfl⟩ rfl
  have h₈ := h₇.cons (.load 1 (.data [8])) (Sys.enabled_load rfl ⟨_, _, rfl⟩ (by decide)) rfl
  have h₉ := h₈.cons (.copy 2 false) ⟨rfl, _, _, _, rfl⟩ rfl
  exact ⟨_, _, h₉, 0, Nat.one_lt_two⟩

end Ucore.Mboxes
