import Ucore.Lib.Place
import Ucore.Sync.MboxInv

/-!
# Mailboxes: where the messages are

Every message that `ipc_mbox_send` has made is in exactly one place: with its sender, in the queue of a
mailbox, with the receiver that has picked it, or at its end (delivered, discarded, or failed with its
send).  Every step moves at most the messages of one place to one other.

* `Msgs.does` — every action keeps this.
* `mailbox_delivery` — in every run, with the counts of slots and processes, and no failed assertion.
-/

namespace Ucore.Mboxes

open Occurrence Placing
open Ksem (WT_INTERRUPTED)
open Waits (Kern)
open Function (update update_of_ne update_self)

/-- What becomes of a message: it is delivered, discarded by `ipc_mbox_free` or by a failed receive, or
its send fails. -/
inductive End where
  | delivered
  | discarded
  | failed
  deriving DecidableEq, Repr

/-- Where a message can be. -/
inductive Place where
  | sender (p : ℕ)
  | queue (m : ℕ)
  | receiver (p : ℕ)
  | ended (f : End)
  deriving DecidableEq, Repr

/-- The messages that a step frees, and why. -/
def Event.ends : Event → List (End × ℕ)
  | .delivered _ n => [(.delivered, n)]
  | .discarded _ n _ => [(.discarded, n)]
  | .freed _ _ _ ns => ns.map fun n => (.discarded, n)
  | .failed _ n _ => [(.failed, n)]
  | _ => []

/-- The messages that `free_msg` has been called with. -/
def freed (tr : List Event) : List ℕ := (tr.flatMap Event.ends).map Prod.snd

/-- The message that a call has to send. -/
def Call.sends : Call → Option ℕ
  | .sending _ msg _ _ _ => some msg.num
  | _ => none

/-- The message that a call has picked. -/
def Call.holds : Call → Option ℕ
  | .holding _ msg _ => some msg.num
  | _ => none

/-- A message is in a place. -/
def At (tr : List Event) (s : Sys) : Place → ℕ → Prop
  | .sender p, n => (s.call p).sends = some n
  | .queue m, n => n ∈ (s.mbox m).msgs.map Msg.num
  | .receiver p, n => (s.call p).holds = some n
  | .ended f, n => (f, n) ∈ tr.flatMap Event.ends

/-- Where the messages are whose send has returned 0. -/
def Place.Accepted : Place → Prop
  | .queue _ | .receiver _ | .ended .delivered | .ended .discarded => True
  | .sender _ | .ended .failed => False

/-- What holds of the messages. -/
structure Msgs (tr : List Event) (s : Sys) : Prop where
  placed : Placed s.loads (At tr s)
  queues : ∀ m, ((s.mbox m).msgs.map Msg.num).Nodup
  freed : (freed tr).Nodup
  sent : ∀ n, (∃ p, .sent p n ∈ tr) ↔ ∃ l, l.Accepted ∧ At tr s l n

variable {s s' : Sys} {mid mid' : Mid} {tr es : List Event} {e : Event} {p m n : ℕ} {a b : Place} {c : Call}

theorem at_sender : At tr s (.sender p) n ↔ (s.call p).sends = some n := Iff.rfl

theorem at_queue : At tr s (.queue m) n ↔ n ∈ (s.mbox m).msgs.map Msg.num := Iff.rfl

theorem at_receiver : At tr s (.receiver p) n ↔ (s.call p).holds = some n := Iff.rfl

theorem at_ended {f : End} : At tr s (.ended f) n ↔ (f, n) ∈ tr.flatMap Event.ends := Iff.rfl

theorem mem_freed (s : Sys) : n ∈ freed tr ↔ ∃ f, At tr s (.ended f) n := by
  unfold freed
  rw [List.mem_map]
  constructor
  · rintro ⟨⟨f, n'⟩, hf, rfl⟩
    exact ⟨f, hf⟩
  · rintro ⟨f, hf⟩
    exact ⟨(f, n), hf, rfl⟩

theorem freed_cons (e : Event) (tr : List Event) : freed (e :: tr) = e.ends.map Prod.snd ++ freed tr := by
  unfold freed
  rw [List.flatMap_cons, List.map_append]

theorem at_ended_append (s' : Sys) (f : End) :
    At (es ++ tr) s (.ended f) n ↔ (f, n) ∈ es.flatMap Event.ends ∨ At tr s' (.ended f) n := by
  rw [at_ended, at_ended, List.flatMap_append, List.mem_append]

/-- The messages `ns` come to a place. -/
def Place.ends (ns : List ℕ) : Place → List (End × ℕ)
  | .ended f => ns.map fun n => (f, n)
  | _ => []

theorem Place.ends_snd (ns : List ℕ) (l : Place) : (l.ends ns).map Prod.snd = [] ∨ (l.ends ns).map Prod.snd = ns := by
  cases l with
  | ended f =>
    right
    unfold Place.ends
    rw [List.map_map]
    exact List.map_id ns
  | sender | queue | receiver => exact Or.inl rfl

theorem Place.mem_ends {ns : List ℕ} {f : End} {l : Place} : (f, n) ∈ l.ends ns ↔ l = .ended f ∧ n ∈ ns := by
  cases l with
  | ended g =>
    unfold Place.ends
    rw [List.mem_map]
    constructor
    · rintro ⟨x, hx, heq⟩
      cases heq
      exact ⟨rfl, hx⟩
    · rintro ⟨heq, hn⟩
      cases heq
      exact ⟨n, hn, rfl⟩
  | sender | queue | receiver => exact ⟨nofun, nofun⟩

/-- The places that a step does not touch. -/
structure Apart (s s' : Sys) (a b : Place) : Prop where
  senders : ∀ q, .sender q ≠ a → .sender q ≠ b → (s'.call q).sends = (s.call q).sends
  queues : ∀ q, .queue q ≠ a → .queue q ≠ b → (s'.mbox q).msgs = (s.mbox q).msgs
  receivers : ∀ q, .receiver q ≠ a → .receiver q ≠ b → (s'.call q).holds = (s.call q).holds

theorem Apart.at_iff (h : Apart s s' a b) {ns : List ℕ} (hends : es.flatMap Event.ends = b.ends ns) {l : Place}
    (ha : l ≠ a) (hb : l ≠ b) : At (es ++ tr) s' l n ↔ At tr s l n := by
  cases l with
  | sender q => rw [at_sender, at_sender, h.senders q ha hb]
  | queue q => rw [at_queue, at_queue, h.queues q ha hb]
  | receiver q => rw [at_receiver, at_receiver, h.receivers q ha hb]
  | ended f =>
    rw [at_ended_append s f, hends, Place.mem_ends, or_iff_right fun hf => hb hf.1.symm]

/-- A step that moves no message. -/
theorem Msgs.same (h : Msgs tr s) (hsends : ∀ q, (s'.call q).sends = (s.call q).sends)
    (hqueues : ∀ q, (s'.mbox q).msgs = (s.mbox q).msgs) (hholds : ∀ q, (s'.call q).holds = (s.call q).holds)
    (hloads : s'.loads = s.loads) (hes : ∀ e ∈ es, e.ends = [] ∧ ∀ p n, e ≠ .sent p n) : Msgs (es ++ tr) s' := by
  have hends : (es ++ tr).flatMap Event.ends = tr.flatMap Event.ends := by
    rw [List.flatMap_append, List.flatMap_eq_nil_iff.mpr fun e he => (hes e he).1, List.nil_append]
  have hat : ∀ l n, At (es ++ tr) s' l n ↔ At tr s l n := by
    intro l n
    cases l with
    | sender q => rw [at_sender, at_sender, hsends]
    | queue q => rw [at_queue, at_queue, hqueues]
    | receiver q => rw [at_receiver, at_receiver, hholds]
    | ended f => rw [at_ended, at_ended, hends]
  refine ⟨?_, fun m => ?_, ?_, fun n => ?_⟩
  · rw [hloads]
    exact h.placed.congr hat
  · rw [hqueues]
    exact h.queues m
  · unfold Mboxes.freed
    rw [hends]
    exact h.freed
  · have hsent : (∃ p, .sent p n ∈ es ++ tr) ↔ ∃ p, .sent p n ∈ tr := by
      refine exists_congr fun p => ?_
      rw [List.mem_append, or_iff_right fun he => (hes _ he).2 p n rfl]
    rw [hsent, h.sent n]
    exact exists_congr fun l => and_congr_right fun _ => (hat l n).symm

/-- A step that moves messages from one place to another. -/
theorem Msgs.move (h : Msgs tr s) {ns : List ℕ} (hne : a ≠ b) (ha : ∀ f, a ≠ .ended f)
    (hacc : a.Accepted → b.Accepted) (hns : ns.Nodup) (hloads : s'.loads = s.loads) (hends : e.ends = b.ends ns)
    (hapart : Apart s s' a b) (hS : ∀ n ∈ ns, At tr s a n)
    (hfrom : ∀ n, At (e :: tr) s' a n ↔ At tr s a n ∧ n ∉ ns)
    (hinto : ∀ n, At (e :: tr) s' b n ↔ At tr s b n ∨ n ∈ ns) (hqueues : ∀ m, ((s'.mbox m).msgs.map Msg.num).Nodup)
    (hsent : ∀ n, (∃ p, e = .sent p n) ↔ (n ∈ ns ∧ b.Accepted) ∧ ¬ a.Accepted) : Msgs (e :: tr) s' := by
  have hends' : [e].flatMap Event.ends = b.ends ns := by
    rw [List.flatMap_singleton, hends]
  have hsame : ∀ l, l ≠ a → l ≠ b → ∀ n, At ([e] ++ tr) s' l n ↔ At tr s l n :=
    fun l hla hlb n => hapart.at_iff hends' hla hlb
  refine ⟨?_, hqueues, ?_, fun n => ?_⟩
  · rw [hloads]
    exact h.placed.move hS hne hfrom hinto hsame
  · rw [freed_cons, hends]
    rcases Place.ends_snd ns b with hnil | hns'
    · rw [hnil]
      exact h.freed
    · rw [hns']
      refine List.Nodup.append hns h.freed fun n hn hf => ?_
      -- what moves has not been freed before
      obtain ⟨f, hf⟩ := (mem_freed s).mp hf
      exact ha f (h.placed.unique n _ _ (hS n hn) hf)
  · rw [h.placed.exists_move hS hne hfrom hinto hsame hacc n, ← h.sent n]
    have hsplit : (∃ p, .sent p n ∈ e :: tr) ↔ (∃ p, e = .sent p n) ∨ ∃ p, .sent p n ∈ tr := by
      rw [← exists_or]
      refine exists_congr fun p => ?_
      rw [List.mem_cons, eq_comm]
    rw [hsplit, hsent n]
    constructor
    · rintro (⟨hn, -⟩ | hold)
      · exact Or.inr hn
      · exact Or.inl hold
    · rintro (hold | hn)
      · exact Or.inr hold
      · by_cases hAcc : a.Accepted
        · exact Or.inr ((h.sent n).mpr ⟨a, hAcc, hS n hn.1⟩)
        · exact Or.inl ⟨hn, hAcc⟩

/-- A message is made, at a place where its send has not returned 0. -/
theorem Msgs.add (h : Msgs tr s) (ha : ¬ a.Accepted) (hloads : s'.loads = s.loads + 1)
    (hends : es.flatMap Event.ends = a.ends [s.loads]) (hes : ∀ p n, .sent p n ∉ es) (hapart : Apart s s' a a)
    (hinto : ∀ n, At (es ++ tr) s' a n ↔ At tr s a n ∨ n = s.loads)
    (hqueues : ∀ q, (s'.mbox q).msgs = (s.mbox q).msgs) : Msgs (es ++ tr) s' := by
  have hsame : ∀ l, l ≠ a → ∀ n, At (es ++ tr) s' l n ↔ At tr s l n :=
    fun l hl n => hapart.at_iff hends hl hl
  refine ⟨?_, fun m => ?_, ?_, fun n => ?_⟩
  · rw [hloads]
    exact h.placed.add hinto hsame
  · rw [hqueues]
    exact h.queues m
  · unfold Mboxes.freed
    rw [List.flatMap_append, List.map_append, hends]
    rcases Place.ends_snd [s.loads] a with hnil | hnew
    · rw [hnil]
      exact h.freed
    · rw [hnew]
      refine List.Nodup.append (List.nodup_singleton _) h.freed fun n hn hf => ?_
      obtain ⟨f, hf⟩ := (mem_freed s).mp hf
      rw [List.mem_singleton.mp hn] at hf
      exact absurd (h.placed.made _ _ hf) (Nat.lt_irrefl _)
  · rw [Placed.exists_add hinto hsame Place.Accepted n, or_iff_left fun hn => ha hn.2, ← h.sent n]
    refine exists_congr fun p => ?_
    rw [List.mem_append, or_iff_right (hes p n)]

theorem Call.Plain.sends (h : c.Plain) : c.sends = none := by
  cases c <;> first | rfl | exact h.elim

theorem Call.Plain.holds (h : c.Plain) : c.holds = none := by
  cases c <;> first | rfl | exact h.elim

/-- What an update does not change. -/
theorem apply_update_same {α β γ : Type} [DecidableEq α] (f : β → γ) {g : α → β} {x : α} {y : β}
    (h : f y = f (g x)) (z : α) : f (update g x y z) = f (g z) := by
  by_cases hz : z = x
  · rw [hz, update_self, h]
  · rw [update_of_ne hz]

theorem silent_nil : ∀ e ∈ ([] : List Event), e.ends = [] ∧ ∀ p n, e ≠ .sent p n := nofun

theorem silent_one (h : e.ends = []) (hsent : ∀ p n, e ≠ .sent p n) :
    ∀ e' ∈ [e], e'.ends = [] ∧ ∀ p n, e' ≠ .sent p n := by
  intro e' he'
  rw [List.mem_singleton.mp he']
  exact ⟨h, hsent⟩

/-- A process changes its call, and has no message before or after. -/
theorem Msgs.recall (h : Msgs tr s) (hold : (s.call p).sends = none ∧ (s.call p).holds = none)
    (hnew : c.sends = none ∧ c.holds = none) (hcall : s'.call = update s.call p c)
    (hqueues : ∀ q, (s'.mbox q).msgs = (s.mbox q).msgs) (hloads : s'.loads = s.loads)
    (hes : ∀ e ∈ es, e.ends = [] ∧ ∀ p n, e ≠ .sent p n) : Msgs (es ++ tr) s' := by
  refine h.same (fun q => ?_) hqueues (fun q => ?_) hloads hes
  · rw [hcall]
    exact apply_update_same Call.sends (hnew.1.trans hold.1.symm) q
  · rw [hcall]
    exact apply_update_same Call.holds (hnew.2.trans hold.2.symm) q

/-- One process and one mailbox change. -/
theorem Apart.update (hcall : s'.call = update s.call p c)
    (hmsgs : ∀ q, q ≠ m → (s'.mbox q).msgs = (s.mbox q).msgs)
    (hsends : .sender p = a ∨ .sender p = b ∨ c.sends = (s.call p).sends)
    (hqueue : .queue m = a ∨ .queue m = b ∨ (s'.mbox m).msgs = (s.mbox m).msgs)
    (hholds : .receiver p = a ∨ .receiver p = b ∨ c.holds = (s.call p).holds) : Apart s s' a b := by
  refine ⟨fun q ha hb => ?_, fun q ha hb => ?_, fun q ha hb => ?_⟩
  · rw [hcall]
    by_cases hq : q = p
    · subst hq
      rw [update_self]
      exact (hsends.resolve_left ha).resolve_left hb
    · rw [update_of_ne hq]
  · by_cases hq : q = m
    · subst hq
      exact (hqueue.resolve_left ha).resolve_left hb
    · exact hmsgs q hq
  · rw [hcall]
    by_cases hq : q = p
    · subst hq
      rw [update_self]
      exact (hholds.resolve_left ha).resolve_left hb
    · rw [update_of_ne hq]

/-- A message comes to an end. -/
theorem Msgs.finish (h : Msgs tr s) {f : End} (ha : ∀ f, a ≠ .ended f) (hacc : a.Accepted ↔ Place.Accepted (.ended f))
    {ns : List ℕ} (hns : ns.Nodup) (hends : e.ends = ns.map fun n => (f, n)) (hloads : s'.loads = s.loads)
    (hapart : Apart s s' a (.ended f)) (hS : ∀ n ∈ ns, At tr s a n)
    (hfrom : ∀ n, At (e :: tr) s' a n ↔ At tr s a n ∧ n ∉ ns)
    (hqueues : ∀ m, ((s'.mbox m).msgs.map Msg.num).Nodup) (hsent : ∀ p n, e ≠ .sent p n) : Msgs (e :: tr) s' := by
  refine h.move (ha f) ha hacc.mp hns hloads hends hapart hS hfrom (fun n => ?_) hqueues fun n => ?_
  · have happend : At ([e] ++ tr) s' (.ended f) n ↔ _ := at_ended_append s f
    rw [List.flatMap_singleton, hends, List.mem_map, or_comm] at happend
    refine happend.trans (or_congr_right ⟨?_, fun hn => ⟨n, hn, rfl⟩⟩)
    rintro ⟨x, hx, heq⟩
    cases heq
    exact hx
  · constructor
    · rintro ⟨p, hp⟩
      exact absurd hp (hsent p n)
    · rintro ⟨⟨-, hb⟩, hna⟩
      exact absurd (hacc.mpr hb) hna

theorem leaves_sender (hold : (s.call p).sends = some n) (hnew : (s'.call p).sends = none) (x : ℕ) :
    At (e :: tr) s' (.sender p) x ↔ At tr s (.sender p) x ∧ x ∉ [n] := by
  rw [at_sender, at_sender, hnew, hold, List.mem_singleton]
  exact ⟨nofun, fun hx => absurd (Option.some.inj hx.1).symm hx.2⟩

theorem leaves_receiver (hold : (s.call p).holds = some n) (hnew : (s'.call p).holds = none) (x : ℕ) :
    At (e :: tr) s' (.receiver p) x ↔ At tr s (.receiver p) x ∧ x ∉ [n] := by
  rw [at_receiver, at_receiver, hnew, hold, List.mem_singleton]
  exact ⟨nofun, fun hx => absurd (Option.some.inj hx.1).symm hx.2⟩

/-- One mailbox has other messages. -/
theorem Msgs.nodup_update (h : Msgs tr s) {box : Mbox} (hbox : (box.msgs.map Msg.num).Nodup) (m' : ℕ) :
    ((update s.mbox m box m').msgs.map Msg.num).Nodup := by
  by_cases hm : m' = m
  · rw [hm, update_self]
    exact hbox
  · rw [update_of_ne hm]
    exact h.queues m'

/-- A message that is with a process is in no queue. -/
theorem Msgs.notMem_queue (h : Msgs tr s) {l : Place} (hl : At tr s l n) (hne : ∀ m, l ≠ .queue m) :
    n ∉ (s.mbox m).msgs.map Msg.num :=
  fun hn => hne m (h.placed.unique n l (.queue m) hl hn)

/-- `send_msg` gives its message to the mailbox. -/
theorem Msgs.sendStep (h : Msgs tr s) {msg : Msg} {box : Mbox} (hcall : (s.call p).sends = some msg.num)
    (hholds : (s.call p).holds = none) (hbox : box.msgs = (s.mbox m).msgs ++ [msg])
    (hcall' : s'.call = update s.call p .idle) (hmbox : s'.mbox = update s.mbox m box)
    (hloads : s'.loads = s.loads) : Msgs (.sent p msg.num :: tr) s' := by
  have hout : msg.num ∉ (s.mbox m).msgs.map Msg.num := h.notMem_queue (at_sender.mpr hcall) nofun
  have hnew : (s'.mbox m).msgs = (s.mbox m).msgs ++ [msg] := by
    rw [hmbox, update_self, hbox]
  have hcallp : s'.call p = .idle := by
    rw [hcall', update_self]
  refine h.move (a := .sender p) (b := .queue m) nofun nofun nofun (List.nodup_singleton msg.num) hloads rfl ?_
    (fun n hn => ?_) (leaves_sender hcall (by rw [hcallp]; rfl)) (fun n => ?_) (fun m' => ?_) fun n => ?_
  · refine .update hcall' (fun q hq => ?_) (Or.inl rfl) (Or.inr (Or.inl rfl)) (Or.inr (Or.inr hholds.symm))
    rw [hmbox, update_of_ne hq]
  · rw [List.mem_singleton.mp hn]
    exact hcall
  · rw [at_queue, at_queue, hnew, List.map_append, List.mem_append]
    rfl
  · rw [hmbox]
    refine h.nodup_update ?_ m'
    rw [hbox, List.map_append]
    exact List.Nodup.append (h.queues m) (List.nodup_singleton _) fun n hn hn' =>
      hout (List.mem_singleton.mp hn' ▸ hn)
  · constructor
    · rintro ⟨q, heq⟩
      cases heq
      exact ⟨⟨List.mem_singleton_self _, trivial⟩, nofun⟩
    · rintro ⟨⟨hn, -⟩, -⟩
      exact ⟨p, by rw [List.mem_singleton.mp hn]⟩

/-- `pick_msg` gives the first message to the receiver. -/
theorem Msgs.pickStep (h : Msgs tr s) {msg : Msg} {rest : List Msg} {box : Mbox} {id opening : ℕ}
    (hsends : (s.call p).sends = none) (hholds : (s.call p).holds = none)
    (hmsgs : (s.mbox m).msgs = msg :: rest) (hbox : box.msgs = rest)
    (hcall' : s'.call = update s.call p (.holding id msg opening))
    (hmbox : s'.mbox = update s.mbox m box) (hloads : s'.loads = s.loads) :
    Msgs (.picked p msg.num :: tr) s' := by
  have hnodup := h.queues m
  rw [hmsgs, List.map_cons, List.nodup_cons] at hnodup
  have hnew : (s'.mbox m).msgs = rest := by
    rw [hmbox, update_self, hbox]
  have hcallp : (s'.call p).holds = some msg.num := by
    rw [hcall', update_self]
    rfl
  refine h.move (a := .queue m) (b := .receiver p) nofun nofun (fun _ => trivial) (List.nodup_singleton msg.num)
    hloads rfl ?_ (fun n hn => ?_) (fun n => ?_) (fun n => ?_) (fun m' => ?_) fun n => ?_
  · refine .update hcall' (fun q hq => ?_) (Or.inr (Or.inr hsends.symm)) (Or.inl rfl) (Or.inr (Or.inl rfl))
    rw [hmbox, update_of_ne hq]
  · rw [List.mem_singleton.mp hn, at_queue, hmsgs]
    exact List.mem_cons_self
  · rw [at_queue, at_queue, hnew, hmsgs, List.map_cons, List.mem_cons, List.mem_singleton]
    constructor
    · intro hn
      exact ⟨Or.inr hn, fun heq => hnodup.1 (heq ▸ hn)⟩
    · rintro ⟨hn, hne⟩
      exact hn.resolve_left hne
  · rw [at_receiver, at_receiver, hcallp, hholds, List.mem_singleton, or_iff_right nofun]
    exact ⟨fun heq => (Option.some.inj heq).symm, fun heq => by rw [heq]⟩
  · rw [hmbox]
    refine h.nodup_update ?_ m'
    rw [hbox]
    exact hnodup.2
  · exact ⟨fun hsent => hsent.elim nofun, fun hn => absurd trivial hn.2⟩

/-- A message that could not be copied goes back. -/
theorem Msgs.putBackStep (h : Msgs tr s) {msg : Msg} {box : Mbox} {x y : ℕ} (hcall : (s.call p).holds = some msg.num)
    (hsends : (s.call p).sends = none) (hbox : box.msgs = msg :: (s.mbox m).msgs)
    (hcall' : s'.call = update s.call p .idle) (hmbox : s'.mbox = update s.mbox m box)
    (hloads : s'.loads = s.loads) : Msgs (.putBack p msg.num x y :: tr) s' := by
  have hout : msg.num ∉ (s.mbox m).msgs.map Msg.num := h.notMem_queue (at_receiver.mpr hcall) nofun
  have hnew : (s'.mbox m).msgs = msg :: (s.mbox m).msgs := by
    rw [hmbox, update_self, hbox]
  have hcallp : s'.call p = .idle := by
    rw [hcall', update_self]
  refine h.move (a := .receiver p) (b := .queue m) nofun nofun (fun _ => trivial) (List.nodup_singleton msg.num)
    hloads rfl ?_ (fun n hn => ?_) (leaves_receiver hcall (by rw [hcallp]; rfl)) (fun n => ?_) (fun m' => ?_)
    fun n => ?_
  · refine .update hcall' (fun q hq => ?_) (Or.inr (Or.inr hsends.symm)) (Or.inr (Or.inl rfl)) (Or.inl rfl)
    rw [hmbox, update_of_ne hq]
  · rw [List.mem_singleton.mp hn]
    exact hcall
  · rw [at_queue, at_queue, hnew, List.map_cons, List.mem_cons, List.mem_singleton, or_comm]
  · rw [hmbox]
    refine h.nodup_update ?_ m'
    rw [hbox, List.map_cons]
    exact List.nodup_cons.mpr ⟨hout, h.queues m⟩
  · exact ⟨fun hsent => hsent.elim nofun, fun hn => absurd trivial hn.2⟩

/-- A receiver ends with its message. -/
theorem Msgs.receiverEnds (h : Msgs tr s) {msg : Msg} {f : End} (hcall : (s.call p).holds = some msg.num)
    (hsends : (s.call p).sends = none) (hf : Place.Accepted (.ended f)) (hends : e.ends = [(f, msg.num)])
    (hsent : ∀ p n, e ≠ .sent p n) : Msgs (e :: tr) (s.setCall p .idle) := by
  have hcallp : (s.setCall p .idle).call p = .idle := Sys.setCall_call _
  refine h.finish (a := .receiver p) nofun ⟨fun _ => hf, fun _ => trivial⟩ (List.nodup_singleton msg.num) hends rfl ?_
    (fun n hn => ?_) (leaves_receiver hcall (by rw [hcallp]; rfl)) h.queues hsent
  · exact .update (m := 0) rfl (fun _ _ => rfl) (Or.inr (Or.inr hsends.symm)) (Or.inr (Or.inr rfl)) (Or.inl rfl)
  · rw [List.mem_singleton.mp hn]
    exact hcall

theorem Sys.left_msgs (m q : ℕ) : ((s.left m).mbox q).msgs = (s.mbox q).msgs := by
  unfold Sys.left
  split
  · exact apply_update_same Mbox.msgs (by rfl) q
  · exact apply_update_same Mbox.msgs (by rfl) q

theorem inuse_msgs (s : Sys) (m n q : ℕ) :
    (update s.mbox m { s.mbox m with inuse := n } q).msgs = (s.mbox q).msgs :=
  apply_update_same Mbox.msgs (by rfl) q

theorem Sys.left_call (m : ℕ) : (s.left m).call = s.call := by
  unfold Sys.left
  split <;> rfl

theorem Sys.left_loads (m : ℕ) : (s.left m).loads = s.loads := by
  unfold Sys.left
  split <;> rfl

/-- `ipc_mbox_free` discards the messages of a mailbox. -/
theorem Msgs.freeStep (h : Msgs tr s) {box : Mbox} {x y : ℕ} (hbox : box.msgs = [])
    (hcall : s'.call = s.call) (hmbox : s'.mbox = update s.mbox m box) (hloads : s'.loads = s.loads) :
    Msgs (.freed p x y ((s.mbox m).msgs.map Msg.num) :: tr) s' := by
  have hnew : (s'.mbox m).msgs = [] := by
    rw [hmbox, update_self, hbox]
  refine h.finish (a := .queue m) (f := .discarded) nofun ⟨fun _ => trivial, fun _ => trivial⟩ (h.queues m) rfl hloads
    ⟨fun q _ _ => by rw [hcall], fun q hq _ => ?_, fun q _ _ => by rw [hcall]⟩ (fun n hn => hn) (fun n => ?_)
    (fun m' => ?_) nofun
  · have hqm : q ≠ m := fun heq => hq (by rw [heq])
    rw [hmbox, update_of_ne hqm]
  · rw [at_queue, at_queue, hnew]
    exact ⟨nofun, fun hn => absurd hn.1 hn.2⟩
  · rw [hmbox]
    refine h.nodup_update ?_ m'
    rw [hbox]
    exact List.nodup_nil

/-- **Every action moves at most the messages of one place.** -/
theorem Msgs.does (h : Msgs tr s) (hinv : Inv mid s) (hdoes : Does mid s es mid' s') : Msgs (es ++ tr) s' := by
  have hfix : ∀ q, (s.mbox q).msgs = (s.mbox q).msgs := fun _ => rfl
  cases hdoes with
  | ticked _ k hk hticked => exact h.same (fun _ => rfl) hfix (fun _ => rfl) rfl (silent_one rfl nofun)
  | killed _ p k hk hkilled => exact h.same (fun _ => rfl) hfix (fun _ => rfl) rfl (silent_one rfl nofun)
  | plain _ p c e hold hnew he =>
    refine h.recall ⟨hold.sends, hold.holds⟩ ⟨hnew.sends, hnew.holds⟩ rfl hfix rfl ?_
    rcases he with rfl | ⟨r, rfl⟩
    · exact silent_one rfl nofun
    · exact silent_one rfl nofun
  | slept _ p time k hcall hk hwait hqueues hprocs hticks hdead hproc htime =>
    exact h.recall (by rw [hcall]; exact ⟨rfl, rfl⟩) ⟨rfl, rfl⟩ rfl hfix rfl (silent_one rfl nofun)
  | arose _ p time k hcall hk hdis =>
    exact h.recall (by rw [hcall]; exact ⟨rfl, rfl⟩) ⟨rfl, rfl⟩ rfl hfix rfl (silent_one rfl nofun)
  | mapping _ p maxSlots i hcall hsem hmissing =>
    exact h.recall (by rw [hcall]; exact ⟨rfl, rfl⟩) ⟨rfl, rfl⟩ rfl hfix rfl (silent_one rfl nofun)
  | mapped _ p maxSlots i hcall =>
    refine h.recall (by rw [hcall]; exact ⟨rfl, rfl⟩) ⟨rfl, rfl⟩ rfl (fun q => ?_) rfl silent_nil
    -- there were no mailboxes, and no messages, in the page before
    show (if q / MBOX_P_PAGE = i then Mbox.fresh else s.mbox q).msgs = _
    split
    · rename_i hpage
      have hmissing := (hinv.maps.mapping p maxSlots i hcall).2
      rw [← hpage] at hmissing
      exact ((hinv.boxes.closed q (hinv.frees.unmapped q hmissing)).1).symm
    · rfl
  | unmapped _ p maxSlots i hcall =>
    exact h.recall (by rw [hcall]; exact ⟨rfl, rfl⟩) ⟨rfl, rfl⟩ rfl hfix rfl silent_nil
  | opened _ p m maxSlots rest hcall hfree =>
    exact h.same (fun _ => rfl) (apply_update_same Mbox.msgs rfl) (fun _ => rfl) rfl (silent_one rfl nofun)
  | enterSend _ p m bytes timeout hcall hget =>
    have hcallp : ((s.enter p m timeout (.sending m ⟨s.loads, p, bytes⟩ timeout s.kern.ticks s.now)).call p).sends =
        some s.loads := by
      show (update s.call p _ p).sends = _
      rw [update_self]
      rfl
    refine h.add (a := .sender p) nofun rfl rfl nofun ?_ (fun n => ?_) (inuse_msgs s m _)
    · refine .update (m := m) rfl (fun q _ => inuse_msgs s m _ q) (Or.inl rfl)
        (Or.inr (Or.inr (inuse_msgs s m _ m))) (Or.inr (Or.inr ?_))
      rw [hcall]
      rfl
    · refine Iff.trans (b := some s.loads = some n) (by rw [← hcallp]; exact Iff.rfl) ?_
      rw [at_sender, hcall, or_iff_right nofun]
      exact ⟨fun heq => (Option.some.inj heq).symm, fun heq => by rw [heq]⟩
  | enterRecv _ p m size timeout hcall hget =>
    exact h.recall (by rw [hcall]; exact ⟨rfl, rfl⟩) ⟨rfl, rfl⟩ rfl (inuse_msgs s m _) rfl silent_nil
  | unwait _ p m side f k _ hrun hwait hmid hk hun => exact h.same (fun _ => rfl) hfix (fun _ => rfl) rfl silent_nil
  | block _ p m side _ k hmid hcall hopened hfull hk harmed =>
    exact h.same (fun _ => rfl) hfix (fun _ => rfl) rfl (silent_one rfl nofun)
  | sent _ p m msg timeout savedTicks start _ k hmid hcall hopened hroom hk hfirst =>
    exact h.sendStep (by rw [hcall]; rfl) (by rw [hcall]; rfl) rfl rfl rfl rfl
  | picked _ p m size msg rest timeout savedTicks start _ k hmid hcall hopened hmsgs hk hfirst =>
    exact h.pickStep (by rw [hcall]; rfl) (by rw [hcall]; rfl) hmsgs rfl rfl rfl rfl
  | tooBig _ p m size timeout savedTicks start _ k hmid hcall hopened hk hfirst =>
    exact h.recall (by rw [hcall]; exact ⟨rfl, rfl⟩) ⟨rfl, rfl⟩ rfl (apply_update_same Mbox.msgs rfl) rfl
      (silent_one rfl nofun)
  | failedSend _ p m msg timeout savedTicks start _ hmid hcall =>
    have hsends : (s.call p).sends = some msg.num := by
      rw [hcall]
      rfl
    have hcall' : ((s.left m).setCall p .idle).call = update s.call p .idle := by
      show update (s.left m).call p .idle = _
      rw [Sys.left_call]
    refine h.finish (a := .sender p) (f := .failed) nofun Iff.rfl (List.nodup_singleton msg.num) rfl
      (Sys.left_loads m) ?_
      (fun n hn => ?_) (leaves_sender hsends ?_) (fun q => ?_) nofun
    · refine .update (m := m) hcall' (fun q _ => Sys.left_msgs m q) (Or.inl rfl)
        (Or.inr (Or.inr (Sys.left_msgs m m))) (Or.inr (Or.inr ?_))
      rw [hcall]
      rfl
    · rw [List.mem_singleton.mp hn]
      exact hsends
    · rw [hcall', update_self]
      rfl
    · show (((s.left m).mbox q).msgs.map Msg.num).Nodup
      rw [Sys.left_msgs]
      exact h.queues q
  | failedRecv _ p m size timeout savedTicks start _ hmid hcall =>
    have hcall' : ((s.left m).setCall p .idle).call = update s.call p .idle := by
      show update (s.left m).call p .idle = _
      rw [Sys.left_call]
    exact h.recall (by rw [hcall]; exact ⟨rfl, rfl⟩) ⟨rfl, rfl⟩ hcall' (Sys.left_msgs m) (Sys.left_loads m)
      (silent_one rfl nofun)
  | lost _ p id timeout hcall =>
    refine h.add (a := .ended .failed) nofun rfl rfl nofun ?_ (fun n => ?_) hfix
    · exact .update (m := 0) rfl (fun _ _ => rfl) (Or.inr (Or.inr (by rw [hcall]; rfl))) (Or.inr (Or.inr rfl))
        (Or.inr (Or.inr (by rw [hcall]; rfl)))
    · rw [at_ended_append s .failed, or_comm]
      refine or_congr_right ?_
      show (End.failed, n) ∈ [(End.failed, s.loads)] ↔ _
      rw [List.mem_singleton]
      exact ⟨fun heq => congrArg Prod.snd heq, fun heq => by rw [heq]⟩
  | delivered _ p id msg opening hcall =>
    exact h.receiverEnds (f := .delivered) (by rw [hcall]; rfl) (by rw [hcall]; rfl) trivial rfl nofun
  | discarded _ p id msg opening hcall hgone =>
    exact h.receiverEnds (f := .discarded) (by rw [hcall]; rfl) (by rw [hcall]; rfl) trivial rfl nofun
  | putBack _ p id msg opening k hcall hopened hk hfirst =>
    exact h.putBackStep (by rw [hcall]; rfl) (by rw [hcall]; rfl) rfl rfl rfl rfl
  | freed _ p m k₁ k hopened hk₁ hk hsenders hreceivers box free hclosing hclosed =>
    have hbox : box.msgs = [] := by
      by_cases hzero : (s.mbox m).inuse = 0
      · rw [(hclosed hzero).1]
      · rw [(hclosing hzero).1]
    exact h.freeStep hbox rfl rfl rfl

/-! ## Openings -/

/-- What a mailbox keeps while it is open. -/
def Mbox.life (box : Mbox) : MboxState × ℕ := (box.state, box.opening)

theorem Sys.left_life {q : ℕ} (h : (s.mbox q).state = .opened) :
    ((s.left m).mbox q).life = (s.mbox q).life := by
  unfold Sys.left
  split
  · rename_i hlast
    have hq : q ≠ m := by
      rintro rfl
      rw [h] at hlast
      exact absurd hlast.1 nofun
    show (update s.mbox m _ q).life = _
    rw [update_of_ne hq]
  · exact apply_update_same Mbox.life (by rfl) q

/-- An open mailbox stays open, with its number, until it is freed. -/
theorem Does.life (hdoes : Does mid s es mid' s') (hinv : Inv mid s) {q : ℕ} (hq : (s.mbox q).state = .opened) :
    (s'.mbox q).life = (s.mbox q).life ∨ ∃ r ns, .freed r q (s.mbox q).opening ns ∈ es := by
  cases hdoes with
  | mapped _ p maxSlots i hcall =>
    left
    show (if q / MBOX_P_PAGE = i then Mbox.fresh else s.mbox q).life = _
    split
    · rename_i hpage
      have hmissing := (hinv.maps.mapping p maxSlots i hcall).2
      rw [← hpage] at hmissing
      have hclosed := hinv.frees.unmapped q hmissing
      rw [hq] at hclosed
      cases hclosed
    · rfl
  | opened _ p m maxSlots rest hcall hfree =>
    left
    have hqm : q ≠ m := by
      rintro rfl
      have hclosed := (hinv.frees.free q (by simp [hfree])).1
      rw [hq] at hclosed
      cases hclosed
    show (update s.mbox m _ q).life = _
    rw [update_of_ne hqm]
  | enterSend | enterRecv | sent | picked | tooBig | putBack =>
    exact Or.inl (apply_update_same Mbox.life (by rfl) q)
  | failedSend | failedRecv => exact Or.inl (Sys.left_life hq)
  | freed _ p m k₁ k hopened hk₁ hk hsenders hreceivers box free hclosing hclosed =>
    by_cases hqm : q = m
    · subst hqm
      exact Or.inr ⟨p, _, List.mem_singleton_self _⟩
    · left
      show (update s.mbox m box q).life = _
      rw [update_of_ne hqm]
  | ticked | killed | plain | slept | arose | mapping | unmapped | unwait | block | lost | delivered | discarded =>
    exact Or.inl rfl

/-- A receive uses a mailbox that `get_mbox` finds; a message that it holds was picked from a mailbox that
is still open, or has been freed. -/
def Call.Bound (tr : List Event) (mbox : ℕ → Mbox) : Call → Prop
  | .receiving m _ _ _ _ => m < MAX_MBOX_NUM
  | .holding id _ opening => id < MAX_MBOX_NUM ∧
    ((mbox id).life = (.opened, opening) ∨ ∃ r ns, .freed r id opening ns ∈ tr)
  | _ => True

theorem Call.Plain.bound (h : c.Plain) (tr : List Event) (mbox : ℕ → Mbox) : c.Bound tr mbox := by
  cases c with
  | idle | loading | preparing => trivial
  | sending | receiving | holding | mapping | sleeping => exact h.elim

theorem Does.bound (hdoes : Does mid s es mid' s') (hinv : Inv mid s) (h : c.Bound tr s.mbox) :
    c.Bound (es ++ tr) s'.mbox := by
  cases c with
  | holding id msg opening =>
    refine ⟨h.1, ?_⟩
    rcases h.2 with hlife | ⟨r, ns, hfreed⟩
    · have hopened : (s.mbox id).state = .opened := congrArg Prod.fst hlife
      have hopening : (s.mbox id).opening = opening := congrArg Prod.snd hlife
      rcases hdoes.life hinv hopened with hsame | ⟨r, ns, hfreed⟩
      · exact Or.inl (hsame.trans hlife)
      · rw [hopening] at hfreed
        exact Or.inr ⟨r, ns, List.mem_append_left _ hfreed⟩
    · exact Or.inr ⟨r, ns, List.mem_append_right _ hfreed⟩
  | receiving => exact h
  | idle | loading | sending | preparing | mapping | sleeping => trivial

/-- Only the process that runs changes its call. -/
theorem Does.bound_all (hdoes : Does mid s es mid' s') (hinv : Inv mid s) (h : ∀ p, (s.call p).Bound tr s.mbox)
    (q : ℕ) :
    (s'.call q).Bound (es ++ tr) s'.mbox := by
  have hold := hdoes.bound hinv (h q)
  -- a process with a new call
  have hset : ∀ p c, s'.call = update s.call p c → (q = p → c.Bound (es ++ tr) s'.mbox) →
      (s'.call q).Bound (es ++ tr) s'.mbox := by
    intro p c hcall hc
    rw [hcall]
    by_cases hq : q = p
    · rw [hq, update_self]
      exact hc hq
    · rw [update_of_ne hq]
      exact hold
  have hleft : ∀ m p, s' = (s.left m).setCall p .idle → s'.call = update s.call p .idle := by
    rintro m p rfl
    show update (s.left m).call p .idle = _
    rw [Sys.left_call]
  cases hdoes with
  | plain _ p c e _ hnew he => exact hset p c rfl fun _ => hnew.bound _ _
  | slept _ p | arose _ p | mapping _ p | mapped _ p | unmapped _ p | lost _ p | delivered _ p | discarded _ p
  | putBack _ p | tooBig _ p | sent _ p | enterSend _ p => exact hset p _ rfl fun _ => trivial
  | enterRecv _ p m size timeout hcall hget =>
    refine hset p _ rfl fun _ => ?_
    unfold Sys.getMbox at hget
    rw [Bool.and_eq_true, Bool.and_eq_true] at hget
    have hid : m < MAX_MBOX_NUM := of_decide_eq_true hget.1.1
    exact hid
  | picked _ p m size msg rest timeout savedTicks start _ k hmid hcall hopened hmsgs hk hfirst =>
    refine hset p _ rfl fun _ => ⟨?_, Or.inl ?_⟩
    · have hp := h p
      rw [hcall] at hp
      exact hp
    · show (update s.mbox m _ m).life = _
      rw [update_self]
      exact congrArg (·, (s.mbox m).opening) hopened
  | failedSend _ p m => exact hset p .idle (hleft m p rfl) fun _ => trivial
  | failedRecv _ p m => exact hset p .idle (hleft m p rfl) fun _ => trivial
  | ticked | killed | opened | unwait | block | freed => exact hold

/-- A failed receive discards a message only after its mailbox has been freed. -/
def Honest (tr : List Event) : Prop :=
  ∀ tr₁ tr₂ p n opening, tr = tr₁ ++ .discarded p n opening :: tr₂ → ∃ r m ns, .freed r m opening ns ∈ tr₂

theorem Honest.cons (h : Honest tr) (he : ∀ p n opening, e = .discarded p n opening →
    ∃ r m ns, .freed r m opening ns ∈ tr) :
    Honest (e :: tr) := by
  intro tr₁ tr₂ p n opening heq
  cases tr₁ with
  | nil =>
    injection heq with hhead htail
    subst htail
    exact he p n opening hhead
  | cons e' tr₁ =>
    injection heq with _ htail
    exact h tr₁ tr₂ p n opening htail

/-- `get_mbox` finds the mailbox of a message that is held until it has been freed. -/
theorem Inv.freed_of_gone (hinv : Inv mid s) (h : ∀ p, (s.call p).Bound tr s.mbox) {id opening : ℕ} {msg : Msg}
    (hcall : s.call p = .holding id msg opening) (hgone : s.getMbox id = false) :
    ∃ r ns, .freed r id opening ns ∈ tr := by
  have hp := h p
  rw [hcall] at hp
  obtain ⟨hid, hlife | hfreed⟩ := hp
  · have hopened : (s.mbox id).state = .opened := congrArg Prod.fst hlife
    have hmapped : s.mapped (id / MBOX_P_PAGE) = true := by
      cases hm : s.mapped (id / MBOX_P_PAGE) with
      | true => rfl
      | false =>
        have hclosed := hinv.frees.unmapped id hm
        rw [hopened] at hclosed
        cases hclosed
    unfold Sys.getMbox at hgone
    rw [hmapped, hopened, decide_eq_true hid] at hgone
    cases hgone
  · exact hfreed

theorem Does.honest (hdoes : Does mid s [e] mid' s') (hinv : Inv mid s) (h : ∀ p, (s.call p).Bound tr s.mbox)
    (p n opening : ℕ) (he : e = .discarded p n opening) : ∃ r m ns, .freed r m opening ns ∈ tr := by
  subst he
  cases hdoes with
  | plain _ _ _ _ _ _ he => exact he.elim nofun fun ⟨_, hr⟩ => absurd hr nofun
  | discarded _ _ id msg _ hcall hgone =>
    obtain ⟨r, ns, hfreed⟩ := hinv.freed_of_gone h hcall hgone
    exact ⟨r, id, ns, hfreed⟩

/-! ## Runs -/

theorem mboxInit_msgs (k : Kern (ℕ × Side)) : Msgs [] (Sys.mboxInit k) := by
  have hempty : ∀ l n, ¬ At [] (Sys.mboxInit k) l n := by
    intro l n
    cases l with
    | sender | queue | receiver | ended => nofun
  refine ⟨⟨fun n hn => absurd hn (Nat.not_lt_zero n), fun n l _ hl => absurd hl (hempty l n),
    fun n l hl => absurd hl (hempty l n)⟩, fun m => List.nodup_nil, List.nodup_nil, fun n => ?_⟩
  exact ⟨nofun, fun ⟨l, _, hl⟩ => absurd hl (hempty l n)⟩

/-- What the actions of a step keep, in one statement. -/
structure Kept (tr : List Event) (s : Sys) : Prop where
  inv : Inv .out s
  msgs : Msgs tr s
  bound : ∀ p, (s.call p).Bound tr s.mbox
  honest : Honest tr

theorem Kept.steps (h : Kept tr s) (hsteps : Steps s e s') : Kept (e :: tr) s' := by
  rcases hsteps with hdoes | ⟨mid, s₁, hfirst, hsecond⟩
  · exact ⟨h.inv.does hdoes, h.msgs.does h.inv hdoes, hdoes.bound_all h.inv h.bound,
      h.honest.cons (hdoes.honest h.inv h.bound)⟩
  · have hinv := h.inv.does hfirst
    have hmsgs := h.msgs.does h.inv hfirst
    have hbound := hfirst.bound_all h.inv h.bound
    exact ⟨hinv.does hsecond, hmsgs.does hinv hsecond, hsecond.bound_all hinv hbound,
      h.honest.cons (hsecond.honest hinv hbound)⟩

theorem Kept.step (h : Kept tr s) {op : Op} (henabled : s.Enabled op) (hstep : s.step op = .ok (e, s')) :
    Kept (e :: tr) s' :=
  h.steps (h.inv.steps_of_step henabled hstep)

theorem mboxInit_kept {k : Kern (ℕ × Side)} (hk : Waits.Quiet k) : Kept [] (Sys.mboxInit k) :=
  ⟨mboxInit_inv hk, mboxInit_msgs k, fun _ => trivial, fun tr₁ _ _ _ _ heq => by cases tr₁ <;> cases heq⟩

theorem Run.kept {s₀ : Sys} (h₀ : Kept [] s₀) (h : Run s₀ tr s) : Kept tr s := by
  induction h with
  | nil => exact h₀
  | cons op _ henabled hstep ih => exact ih.step henabled hstep

theorem delivered_mem (hp : .delivered p n ∈ tr) (s : Sys) : At tr s (.ended .delivered) n :=
  List.mem_flatMap.mpr ⟨_, hp, List.mem_singleton_self _⟩

theorem failed_mem {r : Res} (hp : .failed p n r ∈ tr) (s : Sys) : At tr s (.ended .failed) n :=
  List.mem_flatMap.mpr ⟨_, hp, List.mem_singleton_self _⟩

/-- A message that is freed once is delivered to one process. -/
theorem delivered_unique {q : ℕ} (h : (freed tr).Nodup) (hp : .delivered p n ∈ tr) (hq : .delivered q n ∈ tr) :
    p = q := by
  induction tr with
  | nil => cases hp
  | cons e tr ih =>
    rw [freed_cons] at h
    have hdisjoint := List.disjoint_of_nodup_append h
    -- a later delivery would free the message again
    have htail : ∀ r, .delivered r n ∈ tr → n ∈ freed tr :=
      fun r hr => (mem_freed (Sys.mboxInit (Kern.boot _))).mpr ⟨_, delivered_mem hr _⟩
    rcases List.mem_cons.mp hp with rfl | hp'
    · rcases List.mem_cons.mp hq with heq | hq'
      · cases heq
        rfl
      · exact absurd (htail q hq') (hdisjoint (List.mem_singleton_self n))
    · rcases List.mem_cons.mp hq with rfl | hq'
      · exact absurd (htail p hp') (hdisjoint (List.mem_singleton_self n))
      · exact ih h.of_append_right hp' hq'

/-- The messages, the slots and the processes of the mailboxes, and the messages freed. -/
structure Delivery (tr : List Event) (s : Sys) : Prop where
  slots : ∀ m, (s.mbox m).state ≠ .closing → (s.mbox m).slots = (s.mbox m).msgs.length
  inuse : ∀ m, (s.mbox m).inuse = {p | (s.call p).Inside m}.ncard
  sent : ∀ p n, .sent p n ∈ tr → ∃ l, l.Accepted ∧ At tr s l n ∧ ∀ l', At tr s l' n → l' = l
  queued : ∀ m, ((s.mbox m).msgs.map Msg.num).Nodup
  delivered : ∀ p q n, .delivered p n ∈ tr → .delivered q n ∈ tr → p = q
  discarded : Honest tr
  unsent : ∀ n, (∀ p, .sent p n ∉ tr) → ∀ p, .delivered p n ∉ tr
  failed : ∀ p n r, .failed p n r ∈ tr → (freed tr).count n = 1 ∧ ∀ q, .sent q n ∉ tr
  freed : ∀ n, (freed tr).count n ≤ 1
  assertions : ∀ op, s.Enabled op → s.step op ≠ .error .assertion

/-- **Mailboxes deliver every message once.**  In every run: the slots of a mailbox that is not closing are
its messages; each message whose send has returned 0 is in exactly one place, a queue, a receiver, or
the end where it was delivered or discarded; one whose send has not is not delivered, and is freed once
when its send fails; `inuse` counts the processes inside; and no assertion of the mailboxes fails. -/
theorem mailbox_delivery {k : Kern (ℕ × Side)} (hk : Waits.Quiet k) (hrun : Run (Sys.mboxInit k) tr s) :
    Delivery tr s := by
  have h := hrun.kept (mboxInit_kept hk)
  have hunsent : ∀ l n, At tr s l n → ¬ l.Accepted → ∀ p, .sent p n ∉ tr := by
    intro l n hl hnot p hp
    obtain ⟨l', hacc, hl'⟩ := (h.msgs.sent n).mp ⟨p, hp⟩
    exact hnot (h.msgs.placed.unique n l l' hl hl' ▸ hacc)
  refine ⟨fun m hm => ?_, h.inv.counts.inuse, fun p n hp => ?_, h.msgs.queues,
    fun p q n => delivered_unique h.msgs.freed, h.honest, fun n hn p hp => ?_, fun p n r hp => ⟨?_, ?_⟩,
    List.nodup_iff_count_le_one.mp h.msgs.freed, fun op henabled hstep => ?_⟩
  · cases hstate : (s.mbox m).state with
    | opened => exact h.inv.boxes.opened m hstate
    | closing => exact absurd hstate hm
    | closed =>
      obtain ⟨hmsgs, hslots, -⟩ := h.inv.boxes.closed m hstate
      rw [hmsgs, hslots, List.length_nil]
  · obtain ⟨l, hacc, hl⟩ := (h.msgs.sent n).mp ⟨p, hp⟩
    exact ⟨l, hacc, hl, fun l' hl' => h.msgs.placed.unique n l' l hl' hl⟩
  · obtain ⟨q, hq⟩ := (h.msgs.sent n).mpr ⟨.ended .delivered, trivial, delivered_mem hp s⟩
    exact hn q hq
  · exact List.count_eq_one_of_mem h.msgs.freed ((mem_freed s).mpr ⟨_, failed_mem hp s⟩)
  · exact hunsent _ n (failed_mem hp s) nofun
  · rcases h.inv.step_spec henabled with ⟨e, s', hok, -⟩ | ⟨hfail, -⟩
    · rw [hok] at hstep
      cases hstep
    · rw [hfail] at hstep
      cases hstep

/-- Process 1 opens a mailbox and sends; process 2 picks the message, cannot copy it and puts it back; process
3 receives it. -/
theorem mailbox_delivery_putBack : ∃ s, Run (Sys.mboxInit (Kern.boot (ℕ × Side)))
      [.delivered 3 0, .picked 3 0, .begun 3, .putBack 2 0 0 0, .picked 2 0, .begun 2, .sent 1 0, .begun 1,
        .opened 1 0 0, .begun 1] s ∧
      Delivery [.delivered 3 0, .picked 3 0, .begun 3, .putBack 2 0 0 0, .picked 2 0, .begun 2, .sent 1 0, .begun 1,
        .opened 1 0 0, .begun 1] s := by
  have h₁ := (@Run.nil (Sys.mboxInit (Kern.boot (ℕ × Side)))).cons (.init 1 1) ⟨rfl, rfl, rfl⟩ rfl
  have h₂ := h₁.cons (.map 1 true) ⟨rfl, _, _, rfl⟩ rfl
  have h₃ := h₂.cons (.send 1 0 0) ⟨rfl, rfl⟩ rfl
  have h₄ := h₃.cons (.load 1 (.data [7])) (Sys.enabled_load rfl ⟨_, _, rfl⟩ (by decide)) rfl
  have h₅ := h₄.cons (.recv 2 0 0) ⟨rfl, rfl⟩ rfl
  have h₆ := h₅.cons (.prepare 2 (some 8)) ⟨rfl, ⟨_, _, rfl⟩, nofun⟩ rfl
  have h₇ := h₆.cons (.copy 2 false) ⟨rfl, _, _, _, rfl⟩ rfl
  have h₈ := h₇.cons (.recv 3 0 0) ⟨rfl, rfl⟩ rfl
  have h₉ := h₈.cons (.prepare 3 (some 8)) ⟨rfl, ⟨_, _, rfl⟩, nofun⟩ rfl
  have h₁₀ := h₉.cons (.copy 3 true) ⟨rfl, _, _, _, rfl⟩ rfl
  exact ⟨_, h₁₀, mailbox_delivery (Kern.boot_quiet _) h₁₀⟩

/-- A mailbox is freed while process 2 waits for its slot: it has no messages left, and its slot is taken
until process 2 has left. -/
theorem slots_of_closing : ∃ tr s, Run (Sys.mboxInit (Kern.boot (ℕ × Side))) tr s ∧
    ∃ m, (s.mbox m).slots ≠ (s.mbox m).msgs.length := by
  have h₁ := (@Run.nil (Sys.mboxInit (Kern.boot (ℕ × Side)))).cons (.init 1 1) ⟨rfl, rfl, rfl⟩ rfl
  have h₂ := h₁.cons (.map 1 true) ⟨rfl, _, _, rfl⟩ rfl
  have h₃ := h₂.cons (.send 1 0 0) ⟨rfl, rfl⟩ rfl
  have h₄ := h₃.cons (.load 1 (.data [7])) (Sys.enabled_load rfl ⟨_, _, rfl⟩ (by decide)) rfl
  have h₅ := h₄.cons (.send 2 0 0) ⟨rfl, rfl⟩ rfl
  have h₆ := h₅.cons (.load 2 (.data [8])) (Sys.enabled_load rfl ⟨_, _, rfl⟩ (by decide)) rfl
  have h₇ := h₆.cons (.free 1 0) ⟨rfl, rfl⟩ rfl
  exact ⟨_, _, h₇, 0, Nat.one_ne_zero⟩

end Ucore.Mboxes
