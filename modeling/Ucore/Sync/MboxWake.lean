import Ucore.Sync.MboxInv

/-!
# Mailboxes: no lost wake-up

While processes are left in a queue of an open mailbox, what they wait for is promised: there are at most
as many messages (free slots) as receivers (senders) that the mailbox has woken and that have not looked
at it since.

* `Wakes.does` — the count, kept by every action.
* `mailbox_wakes` — in every run.
-/

namespace Ucore.Mboxes

open Occurrence
open Ksem (WT_INTERRUPTED)
open Waits (Kern)

/-- What the processes of a queue wait for: messages, or free slots. -/
def Mbox.offer (b : Mbox) : Side → ℕ
  | .senders => b.maxSlots - b.slots
  | .receivers => b.slots

/-- The processes that the mailbox has woken from a queue, and that have not run since. -/
noncomputable def signalled (k : Kern (ℕ × Side)) (q : ℕ × Side) : ℕ :=
  occ k.wait fun w => w = some ⟨q.2.flag, q⟩

/-- The process that runs was woken from the queue. -/
def credit (mid : Mid) (call : ℕ → Call) (q : ℕ × Side) : ℕ :=
  match mid with
  | .woken p => if (call p).queue = some q then 1 else 0
  | _ => 0

/-- Whatever processes in a queue wait for is promised to others. -/
def Wakes (mid : Mid) (s : Sys) : Prop :=
  ∀ m side, (s.mbox m).state = .opened → s.kern.queues (m, side) ≠ [] →
    (s.mbox m).offer side ≤ signalled s.kern (m, side) + credit mid s.call (m, side)

variable {s s' : Sys} {mid mid' : Mid} {es : List Event} {p m : ℕ} {k : Kern (ℕ × Side)} {side : Side}

theorem Procs.signalled_finite {call : ℕ → Call} {mbox : ℕ → Mbox} (h : Procs mid k call)
    (hc : Counts call mbox) (q : ℕ × Side) : {p | k.wait p = some ⟨q.2.flag, q⟩}.Finite :=
  (hc.finite q.1).subset fun p hp => ⟨q.2, (h.waits p _ hp).1⟩

/-- A queue with a process in it belongs to a mailbox in use. -/
theorem Inv.inuse_of_queue (h : Inv mid s) (hq : s.kern.queues (m, side) ≠ []) : 0 < (s.mbox m).inuse := by
  obtain ⟨p, hp⟩ := List.exists_mem_of_ne_nil _ hq
  have hw := h.procs.kern.queued _ p hp
  exact h.inuse_pos ⟨side, (h.procs.waits p _ hw).1⟩

theorem signalled_congr {k' : Kern (ℕ × Side)} (h : k'.wait = k.wait) (q : ℕ × Side) :
    signalled k' q = signalled k q := by
  unfold signalled
  rw [h]

/-- A process of another queue, or with another mark, is not counted. -/
theorem signalled_update {k' : Kern (ℕ × Side)} {q : ℕ × Side} (hfin : {p | k.wait p = some ⟨q.2.flag, q⟩}.Finite)
    {x : ℕ} {w : Option (Waits.WaitT (ℕ × Side))} (hwait : k'.wait = Function.update k.wait x w) :
    signalled k' q + (if k.wait x = some ⟨q.2.flag, q⟩ then 1 else 0) =
      signalled k q + (if w = some ⟨q.2.flag, q⟩ then 1 else 0) := by
  have hocc := occ_update (P := fun w => w = some (⟨q.2.flag, q⟩ : Waits.WaitT (ℕ × Side))) x w hfin
  unfold signalled
  rw [hwait]
  convert hocc

/-- A wake-up of the mailbox is counted, if there is a process to wake. -/
theorem First.signalled {q : ℕ × Side} {k' : Kern (ℕ × Side)} (hinv : Waits.Inv k)
    (hfin : ∀ q : ℕ × Side, {p | k.wait p = some ⟨q.2.flag, q⟩}.Finite) (h : First k q q.2.flag k') :
    (k.queues q ≠ [] → Mboxes.signalled k' q = Mboxes.signalled k q + 1) ∧
      ∀ q', q' ≠ q → Mboxes.signalled k' q' = Mboxes.signalled k q' := by
  rcases h with ⟨hempty, rfl⟩ | ⟨x, rest, hq, hwoke⟩
  · exact ⟨fun hne => absurd hempty hne, fun _ _ => rfl⟩
  · have hx : x ∈ k.queues q := by simp [hq]
    have hwx := hinv.queued q x hx
    -- a wait in the queue has no mark yet
    have hunmarked : ∀ q' : ℕ × Side, k.wait x ≠ some ⟨q'.2.flag, q'⟩ := by
      intro q' heq
      rw [hwx] at heq
      injection heq with heq
      injection heq with hflag hqq
      exact side_flag_ne q'.2 hflag
    refine ⟨fun _ => ?_, fun q' hne => ?_⟩
    · have hup := signalled_update (hfin q) hwoke.wait
      rw [if_neg (hunmarked q), if_pos rfl] at hup
      exact hup
    · have hup := signalled_update (hfin q') hwoke.wait
      rw [if_neg (hunmarked q'), if_neg ?_] at hup
      · exact hup
      · intro heq
        injection heq with heq
        injection heq with _ hqq
        exact hne hqq.symm

theorem First.ne_nil {q q' : ℕ × Side} {f : UInt32} {k' : Kern (ℕ × Side)} (h : First k q f k')
    (hne : k'.queues q' ≠ []) : k.queues q' ≠ [] := by
  intro hempty
  have hsub := h.sublist q'
  rw [hempty] at hsub
  exact hne (List.sublist_nil.mp hsub)

theorem credit_out (call : ℕ → Call) (q : ℕ × Side) : credit .out call q = 0 := rfl

theorem credit_le (mid : Mid) (call : ℕ → Call) (q : ℕ × Side) : credit mid call q ≤ 1 := by
  unfold credit
  split
  · split <;> omega
  · omega

/-- Only for the queue of the process. -/
theorem credit_of_ne {call : ℕ → Call} {q q' : ℕ × Side} (hmid : mid.proc = some p)
    (hcall : (call p).queue = some q) (hne : q' ≠ q) : credit mid call q' = 0 := by
  cases mid with
  | woken r =>
    cases hmid
    unfold credit
    dsimp only
    rw [hcall, if_neg fun heq => hne (Option.some.inj heq).symm]
  | out | entered | stirred => rfl

/-- What does not touch the queues and the slots of open mailboxes. -/
theorem Wakes.frame (h : Wakes .out s) (hwait : s'.kern.wait = s.kern.wait)
    (hqueues : ∀ q, s'.kern.queues q ≠ [] → s.kern.queues q ≠ [])
    (hmbox : ∀ m side, (s'.mbox m).state = .opened → s'.kern.queues (m, side) ≠ [] →
      (s.mbox m).state = .opened ∧ (s'.mbox m).offer side = (s.mbox m).offer side) :
    Wakes .out s' := by
  intro m side hopened hq
  obtain ⟨hold, hoffer⟩ := hmbox m side hopened hq
  rw [hoffer, signalled_congr hwait]
  exact h m side hold (hqueues _ hq)

/-- One mailbox changes, and the first process of one of its queues is woken. -/
theorem Wakes.change (h : Wakes mid s) (hinv : Inv mid s) {b : Mbox} {sys : Sys}
    {q : Side} (hopened : (s.mbox m).state = .opened) (hfirst : First s.kern (m, q) q.flag k)
    (hkern : sys.kern = k) (hmbox : sys.mbox = Function.update s.mbox m b)
    (hcredit : ∀ m' side, m' ≠ m → credit mid s.call (m', side) = 0)
    (hsame : ∀ side, side ≠ q → (s.mbox m).offer side ≤ signalled s.kern (m, side) + credit mid s.call (m, side) →
      b.offer side ≤ signalled s.kern (m, side))
    (hwoken : (s.mbox m).offer q ≤ signalled s.kern (m, q) + credit mid s.call (m, q) →
      b.offer q ≤ signalled s.kern (m, q) + 1) : Wakes .out sys := by
  intro m' side hop hq
  rw [hkern] at hq ⊢
  rw [hmbox] at hop ⊢
  have hfin := fun q => hinv.procs.signalled_finite hinv.counts q
  obtain ⟨hup, hother⟩ := hfirst.signalled hinv.procs.kern hfin
  have hq' := hfirst.ne_nil hq
  rw [credit_out, Nat.add_zero]
  by_cases hm : m' = m
  · subst hm
    rw [Function.update_self]
    have hold := h m' side hopened hq'
    by_cases hside : side = q
    · subst hside
      rw [hup hq']
      exact hwoken hold
    · rw [hother _ (by simp [hside])]
      exact hsame side hside hold
  · rw [Function.update_of_ne hm] at hop ⊢
    have hold := h m' side hop hq'
    rw [hcredit m' side hm] at hold
    rw [hother _ (by simp [hm])]
    exact hold

/-- A process enters a mailbox. -/
theorem Wakes.enterBox (h : Wakes .out s) {timeout : UInt32} {c : Call} {n m' : ℕ}
    (hm' : (({ s.enter p m timeout c with loads := n } : Sys).mbox m').state = .opened)
    (hq : ({ s.enter p m timeout c with loads := n } : Sys).kern.queues (m', side) ≠ []) :
    (({ s.enter p m timeout c with loads := n } : Sys).mbox m').offer side ≤
      signalled ({ s.enter p m timeout c with loads := n } : Sys).kern (m', side) +
        credit (.entered p) ({ s.enter p m timeout c with loads := n } : Sys).call (m', side) := by
  have hsame : (({ s.enter p m timeout c with loads := n } : Sys).mbox m').state = (s.mbox m').state ∧
      (({ s.enter p m timeout c with loads := n } : Sys).mbox m').offer side = (s.mbox m').offer side := by
    show (Function.update s.mbox m { s.mbox m with inuse := (s.mbox m).inuse + 1 } m').state = _ ∧
      (Function.update s.mbox m { s.mbox m with inuse := (s.mbox m).inuse + 1 } m').offer side = _
    by_cases hmm : m' = m
    · rw [hmm, Function.update_self]
      exact ⟨rfl, by cases side <;> rfl⟩
    · rw [Function.update_of_ne hmm]
      exact ⟨rfl, rfl⟩
  have hqueues : ({ s.enter p m timeout c with loads := n } : Sys).kern.queues = s.kern.queues :=
    Waits.Kern.ipcTimerInit_queues timeout
  have hwait : ({ s.enter p m timeout c with loads := n } : Sys).kern.wait = s.kern.wait :=
    Waits.Kern.ipcTimerInit_wait timeout
  rw [hsame.1] at hm'
  rw [hqueues] at hq
  rw [hsame.2, signalled_congr hwait]
  exact h m' side hm' hq

theorem Sys.left_queues (m : ℕ) : (s.left m).kern = s.kern := by
  unfold Sys.left
  split <;> rfl

/-- An open mailbox stays as it is when a process leaves one. -/
theorem Sys.left_opened {m' : ℕ} (side : Side) (h : ((s.left m).mbox m').state = .opened) :
    (s.mbox m').state = .opened ∧ ((s.left m).mbox m').offer side = (s.mbox m').offer side := by
  unfold Sys.left at h ⊢
  by_cases hm : m' = m
  · subst hm
    split at h
    · replace h : (Function.update s.mbox m' _ m').state = .opened := h
      rw [Function.update_self] at h
      cases h
    · rename_i hlast
      rw [if_neg hlast]
      rw [Sys.setMbox_mbox] at h ⊢
      exact ⟨h, by cases side <;> rfl⟩
  · split at h
    · rename_i hlast
      rw [if_pos hlast]
      replace h : (Function.update s.mbox m _ m').state = .opened := h
      show _ ∧ (Function.update s.mbox m _ m').offer side = _
      rw [Function.update_of_ne hm] at h ⊢
      exact ⟨h, rfl⟩
    · rename_i hlast
      rw [if_neg hlast]
      replace h : (Function.update s.mbox m _ m').state = .opened := h
      show _ ∧ (Function.update s.mbox m _ m').offer side = _
      rw [Function.update_of_ne hm] at h ⊢
      exact ⟨h, rfl⟩

/-- A process leaves a mailbox whose wake-up, if there was one, is void. -/
theorem Wakes.leaveLeft (h : Wakes mid s) (hmid : mid = .stirred p ∨ mid = .woken p ∧ (s.mbox m).state ≠ .opened)
    (hcall : (s.call p).queue = some (m, side)) : Wakes .out ((s.left m).setCall p .idle) := by
  intro m' side' hm' hq
  replace hq : (s.left m).kern.queues (m', side') ≠ [] := hq
  replace hm' : ((s.left m).mbox m').state = .opened := hm'
  show ((s.left m).mbox m').offer side' ≤ signalled (s.left m).kern (m', side') + 0
  obtain ⟨hold, hoffer⟩ := Sys.left_opened side' hm'
  rw [Sys.left_queues] at hq ⊢
  rw [hoffer]
  have hwake := h m' side' hold hq
  have hzero : credit mid s.call (m', side') = 0 := by
    rcases hmid with rfl | ⟨rfl, hshut⟩
    · rfl
    · have hne : m' ≠ m := fun hmm => hshut (hmm ▸ hold)
      exact credit_of_ne rfl hcall (by simp [hne])
  rw [hzero] at hwake
  exact hwake

/-- **Every action keeps the promise.** -/
theorem Wakes.does (h : Wakes mid s) (hinv : Inv mid s) (hdoes : Does mid s es mid' s') : Wakes mid' s' := by
  cases hdoes with
  | ticked _ k hk hticked =>
    exact h.frame hticked.roused.wait (fun q hq => by rw [← hticked.roused.queues]; exact hq)
      fun m side hm _ => ⟨hm, rfl⟩
  | killed _ p k hk hkilled =>
    exact h.frame hkilled.roused.wait (fun q hq => by rw [← hkilled.roused.queues]; exact hq)
      fun m side hm _ => ⟨hm, rfl⟩
  | plain _ p c e hold hnew he => exact h.frame rfl (fun _ hq => hq) fun m side hm _ => ⟨hm, rfl⟩
  | slept _ p time k hcall hk hwait hqueues hprocs hticks hdead hproc htime =>
    exact h.frame hwait (fun q hq => by rw [← hqueues]; exact hq) fun m side hm _ => ⟨hm, rfl⟩
  | arose _ p time k hcall hk hdis =>
    exact h.frame hdis.wait (fun q hq => by rw [← hdis.queues]; exact hq) fun m side hm _ => ⟨hm, rfl⟩
  | mapping _ p maxSlots i hcall hsem hmissing =>
    exact h.frame rfl (fun _ hq => hq) fun m side hm _ => ⟨hm, rfl⟩
  | mapped _ p maxSlots i hcall =>
    refine h.frame rfl (fun _ hq => hq) fun m side hm _ => ?_
    dsimp only at hm ⊢
    split at hm
    · cases hm
    · rename_i hpage
      rw [if_neg hpage]
      exact ⟨hm, rfl⟩
  | unmapped _ p maxSlots i hcall => exact h.frame rfl (fun _ hq => hq) fun m side hm _ => ⟨hm, rfl⟩
  | opened _ p m maxSlots rest hcall hfree =>
    refine h.frame rfl (fun _ hq => hq) fun m' side hm' hq => ?_
    -- no process is in the queues of a mailbox that was closed
    have hne : m' ≠ m := by
      intro hmm
      have hclosed := (hinv.frees.free m (by simp [hfree])).1
      have hpos : 0 < (s.mbox m').inuse := hinv.inuse_of_queue hq
      rw [hmm, (hinv.boxes.closed m hclosed).2.2] at hpos
      exact absurd hpos (Nat.lt_irrefl 0)
    replace hm' : (Function.update s.mbox m _ m').state = .opened := hm'
    show _ ∧ (Function.update s.mbox m _ m').offer side = _
    rw [Function.update_of_ne hne] at hm' ⊢
    exact ⟨hm', rfl⟩
  | enterSend _ p m bytes timeout hcall hget =>
    intro m' side hm' hq
    exact h.enterBox hm' hq
  | enterRecv _ p m size timeout hcall hget =>
    intro m' side hm' hq
    exact h.enterBox hm' hq
  | unwait _ p m side f k _ hrun hwait hmid hk hun =>
    intro m' side' hm' hq
    have hq' : s.kern.queues (m', side') ≠ [] := by
      intro hempty
      apply hq
      show k.queues (m', side') = []
      rw [hun.queues]
      by_cases heq : (m', side') = (m, side)
      · rw [heq, Function.update_self]
        rw [heq] at hempty
        rw [hempty, List.erase_nil]
      · rw [Function.update_of_ne heq]
        exact hempty
    have hold := h m' side' hm' hq'
    rw [credit_out, Nat.add_zero] at hold
    have hup := signalled_update (hinv.procs.signalled_finite hinv.counts (m', side')) hun.wait
    rw [if_neg (show (none : Option (Waits.WaitT (ℕ × Side))) ≠ some _ from nofun), hwait] at hup
    show (s.mbox m').offer side' ≤ signalled k (m', side') + credit mid' s.call (m', side')
    split at hup
    · -- the process that runs was counted
      rename_i heq
      injection heq with heq
      injection heq with hflag hqq
      cases hqq
      replace hflag : f = side.flag := hflag
      have hcall := (hinv.procs.waits p _ hwait).1
      have hone : credit mid' s.call (m, side) = 1 := by
        rw [hmid, if_pos hflag]
        unfold credit
        exact if_pos hcall
      rw [hone]
      omega
    · omega
  | block _ p m side _ k hmid hcall hopened hfull hk harmed =>
    intro m' side' hm' hq
    have hproc : mid.proc = some p := by
      rcases hmid with rfl | rfl <;> rfl
    have hqueues : k.queues = Function.update s.kern.queues (m, side) (s.kern.queues (m, side) ++ [p]) :=
      harmed.queues
    by_cases heq : (m', side') = (m, side)
    · cases heq
      show (s.mbox m).offer side ≤ _
      have hzero : (s.mbox m).offer side = 0 := by
        cases side with
        | senders => exact Nat.sub_eq_zero_of_le hfull
        | receivers => exact hfull
      rw [hzero]
      exact Nat.zero_le _
    · replace hq : k.queues (m', side') ≠ [] := hq
      rw [hqueues, Function.update_of_ne heq] at hq
      have hold := h m' side' hm' hq
      rw [credit_of_ne hproc hcall heq, Nat.add_zero] at hold
      have hwait : k.wait = Function.update s.kern.wait p (some ⟨WT_INTERRUPTED, (m, side)⟩) := harmed.wait
      have hup := signalled_update (hinv.procs.signalled_finite hinv.counts (m', side')) hwait
      rw [(hinv.procs.awake p hproc).1, if_neg nofun, if_neg ?_] at hup
      · show (s.mbox m').offer side' ≤ signalled k (m', side') + 0
        omega
      · intro hmark
        injection hmark with hmark
        injection hmark with hflag _
        exact side_flag_ne side' hflag
  | sent _ p m msg timeout savedTicks start _ k hmid hcall hopened hroom hk hfirst =>
    have hproc : mid.proc = some p := by
      rcases hmid with rfl | rfl <;> rfl
    have hqueue : (s.call p).queue = some (m, .senders) := by
      rw [hcall]
      rfl
    refine h.change hinv (q := .receivers) hopened hfirst rfl rfl (fun m' side hm => ?_) (fun side hside hold => ?_)
      fun hold => ?_
    · exact credit_of_ne hproc hqueue (by simp [hm])
    · cases side with
      | receivers => exact absurd rfl hside
      | senders =>
        have hcredit := credit_le mid s.call (m, .senders)
        replace hold : (s.mbox m).maxSlots - (s.mbox m).slots ≤ _ := hold
        show (s.mbox m).maxSlots - ((s.mbox m).slots + 1) ≤ _
        omega
    · rw [credit_of_ne hproc hqueue (by simp), Nat.add_zero] at hold
      exact Nat.add_le_add_right hold 1
  | picked _ p m size msg rest timeout savedTicks start _ k hmid hcall hopened hmsgs hk hfirst =>
    have hproc : mid.proc = some p := by
      rcases hmid with rfl | rfl <;> rfl
    have hqueue : (s.call p).queue = some (m, .receivers) := by
      rw [hcall]
      rfl
    have hslots := hinv.boxes.opened m hopened
    rw [hmsgs, List.length_cons] at hslots
    refine h.change hinv (q := .senders) hopened hfirst rfl rfl (fun m' side hm => ?_) (fun side hside hold => ?_)
      fun hold => ?_
    · exact credit_of_ne hproc hqueue (by simp [hm])
    · cases side with
      | senders => exact absurd rfl hside
      | receivers =>
        have hcredit := credit_le mid s.call (m, .receivers)
        replace hold : (s.mbox m).slots ≤ _ := hold
        show (s.mbox m).slots - 1 ≤ _
        omega
    · rw [credit_of_ne hproc hqueue (by simp), Nat.add_zero] at hold
      replace hold : (s.mbox m).maxSlots - (s.mbox m).slots ≤ _ := hold
      show (s.mbox m).maxSlots - ((s.mbox m).slots - 1) ≤ _
      omega
  | tooBig _ p m size timeout savedTicks start _ k hmid hcall hopened hk hfirst =>
    have hproc : mid.proc = some p := by
      rcases hmid with rfl | rfl <;> rfl
    have hqueue : (s.call p).queue = some (m, .receivers) := by
      rw [hcall]
      rfl
    refine h.change hinv (q := .receivers) hopened hfirst rfl rfl (fun m' side hm => ?_) (fun side hside hold => ?_)
      fun hold => ?_
    · exact credit_of_ne hproc hqueue (by simp [hm])
    · cases side with
      | receivers => exact absurd rfl hside
      | senders =>
        rw [credit_of_ne hproc hqueue (by simp), Nat.add_zero] at hold
        exact hold
    · exact hold.trans (Nat.add_le_add_left (credit_le mid s.call _) _)
  | failedSend _ p m msg timeout savedTicks start _ hmid hcall =>
    exact h.leaveLeft (m := m) (p := p) hmid (by rw [hcall]; rfl)
  | failedRecv _ p m size timeout savedTicks start _ hmid hcall =>
    exact h.leaveLeft (m := m) (p := p) hmid (by rw [hcall]; rfl)
  | lost _ p id timeout hcall => exact h.frame rfl (fun _ hq => hq) fun m side hm _ => ⟨hm, rfl⟩
  | delivered _ p id msg opening hcall => exact h.frame rfl (fun _ hq => hq) fun m side hm _ => ⟨hm, rfl⟩
  | discarded _ p id msg opening hcall hgone =>
    exact h.frame rfl (fun _ hq => hq) fun m side hm _ => ⟨hm, rfl⟩
  | putBack _ p id msg opening k hcall hopened hk hfirst =>
    refine h.change hinv (q := .receivers) hopened hfirst rfl rfl (fun m' side hm => rfl) (fun side hside hold => ?_)
      fun hold => ?_
    · cases side with
      | receivers => exact absurd rfl hside
      | senders =>
        rw [credit_out, Nat.add_zero] at hold
        replace hold : (s.mbox id).maxSlots - (s.mbox id).slots ≤ _ := hold
        show (s.mbox id).maxSlots - ((s.mbox id).slots + 1) ≤ _
        omega
    · rw [credit_out, Nat.add_zero] at hold
      exact Nat.add_le_add_right hold 1
  | freed _ p m k₁ k hopened hk₁ hk hsenders hreceivers b free hclosing hclosed =>
    have hshut : b.state ≠ .opened := by
      by_cases hzero : (s.mbox m).inuse = 0
      · rw [(hclosed hzero).1]
        nofun
      · rw [(hclosing hzero).1]
        nofun
    have hwait : k.wait = s.kern.wait := by
      funext r
      rw [interrupted_wait hk₁ hreceivers, interrupted_wait hinv.procs.kern hsenders]
    refine h.frame hwait (fun q hq hempty => hq ?_) fun m' side hm' _ => ?_
    · show k.queues q = []
      rw [hreceivers.queues, hsenders.queues, Function.update_apply, Function.update_apply]
      split
      · rfl
      · split
        · rfl
        · exact hempty
    · replace hm' : (Function.update s.mbox m b m').state = .opened := hm'
      show _ ∧ (Function.update s.mbox m b m').offer side = _
      by_cases hm : m' = m
      · rw [hm, Function.update_self] at hm'
        exact absurd hm' hshut
      · rw [Function.update_of_ne hm] at hm' ⊢
        exact ⟨hm', rfl⟩

theorem mboxInit_wakes {k : Kern (ℕ × Side)} : Wakes .out (Sys.mboxInit k) := nofun

theorem Run.wakes {s₀ : Sys} {tr : List Event} (h₀ : Inv .out s₀) (hwakes : Wakes .out s₀) (h : Run s₀ tr s) :
    Wakes .out s := by
  induction h with
  | nil => exact hwakes
  | cons op hrun henabled hstep ih =>
    have hinv := hrun.inv h₀
    rcases hinv.steps_of_step henabled hstep with hdoes | ⟨mid, s₁, hfirst, hsecond⟩
    · exact ih.does hinv hdoes
    · exact (ih.does hinv hfirst).does (hinv.does hfirst) hsecond

/-- Some process has been woken from the queue, if the mailbox has what those left in it wait for. -/
theorem Wakes.exists_woken (h : Wakes .out s) (hinv : Inv .out s) (hopened : (s.mbox m).state = .opened)
    (hoffer : 0 < (s.mbox m).offer side) (hq : s.kern.queues (m, side) ≠ []) :
    ∃ p, s.kern.wait p = some ⟨side.flag, (m, side)⟩ ∧ (s.kern.procs p).state = .runnable := by
  have hwake := h m side hopened hq
  rw [credit_out, Nat.add_zero] at hwake
  have hpos : occ s.kern.wait (fun w => w = some ⟨side.flag, (m, side)⟩) ≠ 0 := by
    have : 0 < signalled s.kern (m, side) := hoffer.trans_le hwake
    exact this.ne'
  have hsome : {p | s.kern.wait p = some ⟨side.flag, (m, side)⟩}.Nonempty := Set.nonempty_of_ncard_ne_zero hpos
  obtain ⟨p, hp⟩ := hsome
  refine ⟨p, hp, ?_⟩
  rcases hinv.procs.kern.blocked p _ hp with hrun | ⟨-, hmem⟩
  · exact hrun
  · -- a process still in the queue has not been marked
    have hqueued := hinv.procs.kern.queued _ p hmem
    rw [hp] at hqueued
    injection hqueued with hqueued
    injection hqueued with hflag
    exact absurd hflag.symm (side_flag_ne side)

/-- **No lost wake-up.**  In every run, while an open mailbox has a message and receivers in its queue, a
receiver that it has woken has still to look at it; and while it has a free slot and senders in its
queue, a sender that it has woken has. -/
theorem mailbox_wakes {k : Kern (ℕ × Side)} (hk : Waits.Quiet k) {tr : List Event}
    (hrun : Run (Sys.mboxInit k) tr s) (m : ℕ) (hopened : (s.mbox m).state = .opened) :
    (0 < (s.mbox m).slots → s.kern.queues (m, .receivers) ≠ [] →
      ∃ p, s.kern.wait p = some ⟨WT_MBOX_RECV, (m, .receivers)⟩ ∧ (s.kern.procs p).state = .runnable) ∧
    ((s.mbox m).slots < (s.mbox m).maxSlots → s.kern.queues (m, .senders) ≠ [] →
      ∃ p, s.kern.wait p = some ⟨WT_MBOX_SEND, (m, .senders)⟩ ∧ (s.kern.procs p).state = .runnable) := by
  have hinv := hrun.inv (mboxInit_inv hk)
  have hwakes := hrun.wakes (mboxInit_inv hk) mboxInit_wakes
  refine ⟨fun hslots hq => ?_, fun hslots hq => ?_⟩
  · have hoffer : 0 < (s.mbox m).offer .receivers := hslots
    exact hwakes.exists_woken hinv hopened hoffer hq
  · have hoffer : 0 < (s.mbox m).offer .senders := Nat.sub_pos_of_lt hslots
    exact hwakes.exists_woken hinv hopened hoffer hq

/-- Processes 1 and 2 wait for a message, and process 3 sends one. -/
theorem mailbox_wakes_first : ∃ tr s, Run (Sys.mboxInit (Kern.boot (ℕ × Side))) tr s ∧
    (s.mbox 0).state = .opened ∧ 0 < (s.mbox 0).slots ∧ s.kern.queues (0, .receivers) ≠ [] ∧
    ∃ p, s.kern.wait p = some ⟨WT_MBOX_RECV, (0, .receivers)⟩ ∧ (s.kern.procs p).state = .runnable := by
  have h₁ := (@Run.nil (Sys.mboxInit (Kern.boot (ℕ × Side)))).cons (.init 1 1) ⟨rfl, rfl, rfl⟩ rfl
  have h₂ := h₁.cons (.map 1 true) ⟨rfl, _, _, rfl⟩ rfl
  have h₃ := h₂.cons (.recv 1 0 0) ⟨rfl, rfl⟩ rfl
  have h₄ := h₃.cons (.prepare 1 (some 8)) ⟨rfl, ⟨_, _, rfl⟩, nofun⟩ rfl
  have h₅ := h₄.cons (.recv 2 0 0) ⟨rfl, rfl⟩ rfl
  have h₆ := h₅.cons (.prepare 2 (some 8)) ⟨rfl, ⟨_, _, rfl⟩, nofun⟩ rfl
  have h₇ := h₆.cons (.send 3 0 0) ⟨rfl, rfl⟩ rfl
  have h₈ := h₇.cons (.load 3 (.data [7])) (Sys.enabled_load rfl ⟨_, _, rfl⟩ (by decide)) rfl
  exact ⟨_, _, h₈, rfl, Nat.one_pos, nofun, (mailbox_wakes (Kern.boot_quiet _) h₈ 0 rfl).1 Nat.one_pos nofun⟩

end Ucore.Mboxes
