import Ucore.Pipe.PipeTableInv

/-!
# The table of named pipes: what the pieces of a call do

* `Inv.frame` — a process that changes no more than counters and its own references;
* `Inv.enter`, `leave_inv` — a process enters a call, and the one that has the semaphore leaves;
* `Inv.drop_spec`, `Inv.out_spec` — the last `vop_ref_dec` of a call;
* `Inv.lookup_spec` — `lookup_pipe_nolock` fails no assertion, and finds what there is.
-/

namespace Ucore.PipeFs

open Occurrence Tokens

variable {N : Type} {s t u : State N} {p q x y st : ℕ} {ph : Phase N}

/-- A process has changed no more than counters and its own references. -/
structure Frame (p : ℕ) (s t : State N) : Prop where
  name : ∀ x, (t.obj x).name = (s.obj x).name
  readonly : ∀ x, (t.obj x).readonly = (s.obj x).readonly
  state : ∀ x, (t.obj x).state = (s.obj x).state
  list : t.list = s.list
  refCount : t.refCount = s.refCount
  nextState : t.nextState = s.nextState
  frees : t.frees = s.frees
  owner : t.owner = s.owner
  queue : t.queue = s.queue
  phase : t.phase = s.phase
  refs : ∀ q y, q ≠ p → t.refs.count (q, y) = s.refs.count (q, y)
  opens : ∀ q y, q ≠ p → t.opens.count (q, y) = s.opens.count (q, y)

theorem Frame.refl (p : ℕ) (s : State N) : Frame p s s :=
  ⟨fun _ => rfl, fun _ => rfl, fun _ => rfl, rfl, rfl, rfl, rfl, rfl, rfl, rfl, fun _ _ _ => rfl, fun _ _ _ => rfl⟩

theorem Frame.trans (h : Frame p s t) (h' : Frame p t u) : Frame p s u where
  name x := (h'.name x).trans (h.name x)
  readonly x := (h'.readonly x).trans (h.readonly x)
  state x := (h'.state x).trans (h.state x)
  list := h'.list.trans h.list
  refCount := h'.refCount.trans h.refCount
  nextState := h'.nextState.trans h.nextState
  frees := h'.frees.trans h.frees
  owner := h'.owner.trans h.owner
  queue := h'.queue.trans h.queue
  phase := h'.phase.trans h.phase
  refs q y hq := (h'.refs q y hq).trans (h.refs q y hq)
  opens q y hq := (h'.opens q y hq).trans (h.opens q y hq)

/-- The counters of one inode change. -/
theorem Frame.setObj {i : Inode N} {refs opens : List (ℕ × ℕ)} (hname : i.name = (s.obj x).name)
    (hend : i.readonly = (s.obj x).readonly) (hstate : i.state = (s.obj x).state)
    (hrefs : ∀ q y, q ≠ p → refs.count (q, y) = s.refs.count (q, y))
    (hopens : ∀ q y, q ≠ p → opens.count (q, y) = s.opens.count (q, y)) :
    Frame p s { s.setObj x i with refs := refs, opens := opens } := by
  have hfield : ∀ {γ : Type} (f : Inode N → γ), f i = f (s.obj x) → ∀ y, f ((s.setObj x i).obj y) = f (s.obj y) := by
    intro γ f hf y
    by_cases hy : y = x
    · rw [hy, setObj_obj, hf]
    · rw [setObj_obj_of_ne hy]
  exact ⟨hfield (·.name) hname, hfield (·.readonly) hend, hfield (·.state) hstate, rfl, rfl, rfl, rfl, rfl, rfl, rfl,
    hrefs, hopens⟩

theorem Frame.pending (h : Frame p s t) : t.pending = s.pending := by
  unfold State.pending
  rw [h.phase]

theorem Frame.making (h : Frame p s t) : t.making = s.making := by
  unfold State.making
  rw [h.phase]

theorem Frame.states {making : ℕ → ℕ} (h : Frame p s t) (hs : States s making) : States t making := by
  refine ⟨fun x hx y hy hname => ?_, ?_⟩
  · rw [h.list] at hx hy
    rw [h.name, h.name] at hname
    rw [h.state, h.state]
    exact hs.share x hx y hy hname
  · have hholders : t.holders making = s.holders making := by
      funext st
      unfold State.holders
      rw [h.list]
      simp only [h.state]
    rw [h.refCount, h.nextState, h.frees, hholders]
    exact hs.counted

theorem Frame.sem (h : Frame p s t) (hs : Sem s) : Sem t := by
  refine ⟨fun q => ?_, ?_, fun q => ?_, fun q => ?_⟩
  · rw [h.phase, h.owner, h.queue]
    exact hs.busy q
  · rw [h.owner, h.queue]
    exact hs.nodup
  · rw [h.phase, h.owner]
    exact hs.made q
  · rw [h.phase]
    exact hs.done q

theorem Frame.makers (h : Frame p s t) (hs : Makers s) (hp : ¬ (s.phase p).Making) : Makers t := by
  refine ⟨fun q name readonly hq x hx => ?_, fun q name readonly st node hq => ?_⟩
  · rw [h.phase] at hq
    rw [h.list] at hx
    rw [h.name]
    exact hs.makeState q name readonly hq x hx
  · rw [h.phase] at hq
    have hqp : q ≠ p := by
      rintro rfl
      rw [hq] at hp
      exact hp trivial
    obtain ⟨hlist, hnode⟩ := hs.makeInode q name readonly st node hq
    refine ⟨fun x hx hname => ?_, fun y hy => ?_⟩
    · rw [h.list] at hx
      rw [h.name] at hname
      rw [h.readonly, h.state]
      exact hlist x hx hname
    · rw [h.refs q y hqp, h.opens q y hqp]
      exact hnode y hy

/-- A process that makes no inode changes counters and its own references. -/
theorem Inv.frame (h : Inv s) (hf : Frame p s t) (hobjs : Objs t s.pending) (hp : ¬ (s.phase p).Making) : Inv t := by
  refine ⟨hf.sem h.sem, ?_, ?_, hf.makers h.makers hp⟩
  · rw [hf.pending]
    exact hobjs
  · rw [hf.making]
    exact hf.states h.states

/-! ## Entering and leaving a call -/

@[simp] theorem unlockPipe_phase : s.unlockPipe.phase = s.phase := by
  unfold State.unlockPipe
  split <;> rfl

theorem lockPipe_eq (s : State N) (p : ℕ) :
    ∃ owner queue, s.lockPipe p = { s with owner := owner, queue := queue } := by
  unfold State.lockPipe
  split
  · exact ⟨_, _, rfl⟩
  · exact ⟨_, _, rfl⟩

theorem unlockPipe_eq (s : State N) : ∃ owner queue, s.unlockPipe = { s with owner := owner, queue := queue } := by
  unfold State.unlockPipe
  split
  · exact ⟨_, _, rfl⟩
  · exact ⟨_, _, rfl⟩

theorem not_makes_of_not_making (h : ¬ ph.Making) (st : ℕ) : ¬ ph.Makes st := fun hm => h hm.making

theorem idle_ne_reclaim (x : ℕ) : (Phase.idle : Phase N) ≠ .reclaim x .done := nofun

theorem idle_not_making (hp : s.phase p = .idle) : ¬ (s.phase p).Making := by
  rw [hp]
  exact id

theorem idle_not_reclaim (hp : s.phase p = .idle) (x : ℕ) : s.phase p ≠ .reclaim x .done := by
  rw [hp]
  exact nofun

/-- A process enters a call in which it makes no inode. -/
theorem enter_inv (hsem : Sem s) (hidle : s.phase p = .idle) (hne : ph ≠ .idle) (hmake : ¬ ph.Making)
    (hdone : ∀ x k, ph = .reclaim x k → k = .done) (hobjs : Objs s (s.setPhase p ph).pending)
    (hstates : States s s.making) (hmakers : Makers s) : Inv ((s.setPhase p ph).lockPipe p) := by
  have hsem' := hsem.enter hidle hne hmake hdone
  have hmaking : (s.setPhase p ph).making = s.making :=
    hsem.making_same (not_makes_of_not_making (idle_not_making hidle)) (not_makes_of_not_making hmake)
  have hphase : ∀ q, (s.setPhase p ph).phase q ≠ ph → (s.setPhase p ph).phase q = s.phase q := by
    intro q hq
    refine setPhase_phase_of_ne ?_
    rintro rfl
    exact hq setPhase_phase
  obtain ⟨owner, queue, heq⟩ := lockPipe_eq (s.setPhase p ph) p
  rw [heq] at hsem' ⊢
  refine ⟨hsem', { hobjs with }, ⟨hstates.share, ?_⟩, fun q name readonly hq => ?_,
    fun q name readonly st node hq => ?_⟩
  · show Counted s.refCount s.nextState s.frees (s.holders (s.setPhase p ph).making)
    rw [hmaking]
    exact hstates.counted
  · refine hmakers.makeState q name readonly ((hphase q ?_).symm.trans hq)
    rintro heq'
    rw [← heq', hq] at hmake
    exact hmake trivial
  · refine hmakers.makeInode q name readonly st node ((hphase q ?_).symm.trans hq)
    rintro heq'
    rw [← heq', hq] at hmake
    exact hmake trivial

/-- `pipe_root_create` and `pipe_root_lookup`, up to `lock_pipe`. -/
theorem Inv.enter (h : Inv s) (hidle : s.phase p = .idle) (hne : ph ≠ .idle) (hmake : ¬ ph.Making)
    (hnot : ∀ x k, ph ≠ .reclaim x k) : Inv ((s.setPhase p ph).lockPipe p) := by
  have hpending : (s.setPhase p ph).pending = s.pending :=
    h.sem.pending_same (idle_not_reclaim hidle) fun x => hnot x .done
  refine enter_inv h.sem hidle hne hmake (fun x k hx => absurd hx (hnot x k)) ?_ h.states h.makers
  rw [hpending]
  exact h.objs

/-- The process that has the semaphore leaves its call. -/
theorem leave_inv (hsem : Sem s) (ho : s.owner = some p) (hobjs : Objs s (s.setPhase p .idle).pending)
    (hstates : States s (s.setPhase p .idle).making) : Inv (s.leave p) := by
  have hsem' := hsem.leave ho
  have hmake : ∀ q, ¬ ((s.setPhase p .idle).phase q).Making := by
    intro q hq
    by_cases hqp : q = p
    · rw [hqp, setPhase_phase] at hq
      exact hq
    · rw [setPhase_phase_of_ne hqp] at hq
      have hown := hsem.made q hq
      rw [ho] at hown
      exact hqp (Option.some.inj hown).symm
  unfold State.leave at hsem' ⊢
  obtain ⟨owner, queue, heq⟩ := unlockPipe_eq (s.setPhase p .idle)
  rw [heq] at hsem' ⊢
  refine ⟨hsem', { hobjs with }, { hstates with }, fun q name readonly hq => ?_, fun q name readonly st node hq => ?_⟩
  · have hq' := hmake q
    rw [show (s.setPhase p .idle).phase q = .makeState name readonly from hq] at hq'
    exact absurd trivial hq'
  · have hq' := hmake q
    rw [show (s.setPhase p .idle).phase q = .makeInode name readonly st node from hq] at hq'
    exact absurd trivial hq'

/-- The process neither reclaims nor makes an inode: only the semaphore changes hands. -/
theorem Inv.leave (h : Inv s) (ho : s.owner = some p) (hmake : ∀ st, ¬ (s.phase p).Makes st)
    (hnot : ∀ x k, s.phase p ≠ .reclaim x k) : Inv (s.leave p) := by
  refine leave_inv h.sem ho ?_ ?_
  · rw [h.sem.pending_same (fun x => hnot x .done) idle_ne_reclaim]
    exact h.objs
  · rw [h.sem.making_same hmake not_makes_idle]
    exact h.states

theorem leave_phase : (s.leave p).phase p = .idle := by
  unfold State.leave
  rw [unlockPipe_phase, setPhase_phase]

theorem leave_tokens : (s.leave p).refs = s.refs ∧ (s.leave p).opens = s.opens := by
  unfold State.leave
  obtain ⟨owner, queue, heq⟩ := unlockPipe_eq (s.setPhase p .idle)
  rw [heq]
  exact ⟨rfl, rfl⟩

/-! ## The counters -/

/-- `vop_ref_dec` has decremented. -/
def State.decRef (s : State N) (p x : ℕ) : State N :=
  { s.setObj x { s.obj x with refCount := (s.obj x).refCount - 1 } with refs := s.refs.erase (p, x) }

theorem Frame.decRef (s : State N) (p x : ℕ) : Frame p s (s.decRef p x) := by
  refine Frame.setObj rfl rfl rfl (fun q y hq => ?_) fun _ _ _ => rfl
  exact List.count_erase_of_ne fun heq => hq (congrArg Prod.fst heq)

/-- `x` with one more reference, and one more pending reclaim if it was the first. -/
theorem lookupFound_eq (s : State N) (p x : ℕ) : s.lookupFound p x = { s.setObj x { s.obj x with
    refCount := (s.obj x).refCount + 1
    reclaimCount := (s.obj x).reclaimCount + if (s.obj x).refCount = 0 then 1 else 0 } with
    refs := (p, x) :: s.refs, opens := s.opens } := by
  unfold State.lookupFound State.refInc State.setObj
  by_cases h0 : (s.obj x).refCount = 0 <;> simp [h0]

section Tokens

variable {f g : ℕ → ℕ}

theorem Objs.referenced (h : Objs s f) (hlt : s.opens.count (p, x) < s.refs.count (p, x)) :
    0 < (s.obj x).refCount ∧ x ∈ s.list := by
  have hpos : 0 < (s.obj x).refCount := h.held.pos (p := p) (List.count_pos_iff.mp (Nat.zero_lt_of_lt hlt))
  exact ⟨hpos, h.live x hpos⟩

/-- A reference is dropped; if it was the last one, one more process reclaims. -/
theorem Objs.decRef (h : Objs s f) (hlt : s.opens.count (p, x) < s.refs.count (p, x))
    (hg : ∀ y, y ≠ x → g y = f y) (hgx : g x = f x + if (s.obj x).refCount = 1 then 1 else 0) :
    Objs (s.decRef p x) g := by
  obtain ⟨hpos, hx⟩ := h.referenced hlt
  have hcount := h.count x hx
  rw [if_pos hpos] at hcount
  refine h.move hx rfl rfl ?_ hg ?_ (h.positive x hx)
  · have hheld := h.held.refDec hlt
    rw [← Function.update_eq_self x fun y => (s.obj y).openCount] at hheld
    exact hheld
  · dsimp only
    rw [hcount, hgx]
    split <;> split <;> omega

/-- `lookup_pipe_nolock` has found `x`. -/
theorem Objs.found (h : Objs s f) (hx : x ∈ s.list) (p : ℕ) : Objs (s.lookupFound p x) f := by
  have hcount := h.count x hx
  rw [lookupFound_eq]
  refine h.move hx rfl rfl ?_ (fun _ _ => rfl) ?_ ?_
  · have hheld := h.held.refInc p x
    rw [← Function.update_eq_self x fun y => (s.obj y).openCount] at hheld
    exact hheld
  · dsimp only
    rw [hcount, if_pos (Nat.succ_pos _)]
    split <;> split <;> omega
  · exact Nat.lt_of_lt_of_le (h.positive x hx) (Nat.le_add_right _ _)

end Tokens

/-! ## The last reference of a call -/

section Calls

theorem refDec_eq {k : Cont} {rest : State N → Option (State N)} (hpos : 0 < (s.obj x).refCount) :
    s.refDec p x k rest = if (s.obj x).refCount = 1 then
      some (((s.decRef p x).setPhase p (.reclaim x k)).lockPipe p) else rest (s.decRef p x) := by
  have hone : (s.obj x).refCount - 1 = 0 ↔ (s.obj x).refCount = 1 := by omega
  exact (if_pos hpos).trans (if_congr hone rfl rfl)

/-- **`vop_ref_dec` by a process that has no semaphore.** -/
theorem Inv.drop_spec (h : Inv s) (hidle : s.phase p = .idle) (hlt : s.opens.count (p, x) < s.refs.count (p, x)) :
    ∃ t, s.drop p x = some t ∧ Inv t := by
  obtain ⟨hpos, hx⟩ := h.objs.referenced hlt
  have hframe := Frame.decRef s p x
  have hmake := idle_not_making hidle
  have hidle' : (s.decRef p x).phase p = .idle := hidle
  unfold State.drop
  rw [refDec_eq hpos]
  by_cases hone : (s.obj x).refCount = 1
  · rw [if_pos hone]
    refine ⟨_, rfl, enter_inv (hframe.sem h.sem) hidle' nofun id (fun y k heq => ?_) ?_ ?_
      (hframe.makers h.makers hmake)⟩
    · exact (Phase.reclaim.inj heq).2.symm
    · obtain ⟨hself, hother⟩ := (hframe.sem h.sem).pending_enter (idle_not_reclaim hidle') x
      rw [hframe.pending] at hself hother
      refine h.objs.decRef hlt hother ?_
      rw [if_pos hone]
      exact hself
    · rw [hframe.making]
      exact hframe.states h.states
  · rw [if_neg hone]
    refine ⟨_, rfl, h.frame hframe (h.objs.decRef hlt (fun _ _ => rfl) ?_) hmake⟩
    rw [if_neg hone, Nat.add_zero]

/-- **The end of a call that has the semaphore.** -/
theorem out_spec (h : Inv (s.leave p)) {node : Option ℕ}
    (hnode : ∀ y, node = some y → s.opens.count (p, y) < s.refs.count (p, y)) : ∃ t, s.out p node = some t ∧
    Inv t := by
  cases node with
  | none => exact ⟨_, rfl, h⟩
  | some y =>
    refine h.drop_spec leave_phase ?_
    rw [leave_tokens.1, leave_tokens.2]
    exact hnode y rfl

variable [DecidableEq N]

/-! ## `lookup_pipe_nolock` -/

/-- The references of a process have grown. -/
structure Grown (p : ℕ) (s t : State N) : Prop where
  frame : Frame p s t
  opens : t.opens = s.opens
  refs : ∀ y, s.refs.count (p, y) ≤ t.refs.count (p, y)

omit [DecidableEq N] in
theorem Grown.found (s : State N) (p x : ℕ) : Grown p s (s.lookupFound p x) ∧
    (s.lookupFound p x).refs.count (p, x) = s.refs.count (p, x) + 1 ∧
    ((s.lookupFound p x).obj x).refCount = (s.obj x).refCount + 1 ∧
    ∀ y, y ≠ x → ((s.lookupFound p x).obj y).refCount = (s.obj y).refCount := by
  rw [lookupFound_eq]
  refine ⟨⟨Frame.setObj rfl rfl rfl (fun q y hq => ?_) fun _ _ _ => rfl, rfl, fun y => List.count_le_count_cons⟩,
    List.count_cons_self, ?_, fun y hy => ?_⟩
  · exact List.count_cons_of_ne fun heq => hq (congrArg Prod.fst heq).symm
  · show ((s.setObj x _).obj x).refCount = _
    rw [setObj_obj]
  · show ((s.setObj x _).obj y).refCount = _
    rw [setObj_obj_of_ne hy]

end Calls

section Lookup

/-- `lookup_pipe_nolock` has found `x`, and the process has a reference to it. -/
structure Found (p : ℕ) (s t : State N) (name : N) (readonly : Bool) (x : ℕ) : Prop where
  mem : x ∈ s.list
  name_eq : (s.obj x).name = name
  end_eq : (s.obj x).readonly = readonly
  token : t.opens.count (p, x) < t.refs.count (p, x)
  count : (t.obj x).refCount = (s.obj x).refCount + 1

/-- What it has found of one end among some of the inodes. -/
def Looked (p : ℕ) (s t : State N) (name : N) (readonly : Bool) (l : List ℕ) : Option ℕ → Prop
  | none => ∀ x ∈ l, (s.obj x).name = name → (s.obj x).readonly ≠ readonly
  | some x => Found p s t name readonly x

variable {name : N} {readonly : Bool} {l : List ℕ} {res : Option ℕ}

theorem Grown.trans (h : Grown p s t) (h' : Grown p t u) : Grown p s u :=
  ⟨h.frame.trans h'.frame, h'.opens.trans h.opens, fun y => (h.refs y).trans (h'.refs y)⟩

/-- One more inode has been passed, which is not the end in question. -/
theorem Looked.cons (h : Grown p s t) (hl : Looked p t u name readonly l res)
    (hsame : ∀ y, y ≠ x → (t.obj y).refCount = (s.obj y).refCount)
    (hx : (s.obj x).name = name → (s.obj x).readonly ≠ readonly) : Looked p s u name readonly (x :: l) res := by
  cases res with
  | none =>
    intro y hy hname
    rcases List.mem_cons.mp hy with rfl | hin
    · exact hx hname
    · have hy' := hl y hin
      rw [h.frame.name, h.frame.readonly] at hy'
      exact hy' hname
  | some y =>
    have hname : (s.obj y).name = name := by
      rw [← h.frame.name]
      exact hl.name_eq
    have hend : (s.obj y).readonly = readonly := by
      rw [← h.frame.readonly]
      exact hl.end_eq
    have hyx : y ≠ x := by
      rintro rfl
      exact hx hname hend
    refine ⟨?_, hname, hend, hl.token, ?_⟩
    · rw [← h.frame.list]
      exact hl.mem
    · rw [← hsame y hyx]
      exact hl.count

variable [DecidableEq N]

/-- The loop of `lookup_pipe_nolock` over the rest of the list: the assertions hold, and what is found is kept. -/
theorem lookupPipe_spec (name : N) (h : Inv s) (hp : ¬ (s.phase p).Making) (hmem : ∀ x ∈ l, x ∈ s.list)
    (hnodup : l.Nodup) {rnode wnode : Option ℕ}
    (hr : rnode ≠ none → ∀ x ∈ l, (s.obj x).name = name → (s.obj x).readonly ≠ true)
    (hw : wnode ≠ none → ∀ x ∈ l, (s.obj x).name = name → (s.obj x).readonly ≠ false) :
    ∃ t rnode' wnode', State.lookupPipe p name l s rnode wnode = some (t, rnode', wnode') ∧ Inv t ∧ Grown p s t ∧
      (∀ y, y ∉ l → (t.obj y).refCount = (s.obj y).refCount) ∧
      (rnode ≠ none → rnode' = rnode) ∧ (rnode = none → Looked p s t name true l rnode') ∧
      (wnode ≠ none → wnode' = wnode) ∧ (wnode = none → Looked p s t name false l wnode') := by
  induction l generalizing s rnode wnode with
  | nil =>
    refine ⟨s, rnode, wnode, rfl, h, ⟨.refl p s, rfl, fun _ => le_rfl⟩, fun _ _ => rfl, fun _ => rfl, fun hnone => ?_,
      fun _ => rfl, fun hnone => ?_⟩
    · rw [hnone]
      exact nofun
    · rw [hnone]
      exact nofun
  | cons x rest ih =>
    obtain ⟨hx, hrest⟩ := List.nodup_cons.mp hnodup
    have hin := hmem x List.mem_cons_self
    -- no other inode has the same name and end
    have hother : ∀ y ∈ rest, (s.obj y).name = (s.obj x).name → (s.obj y).readonly ≠ (s.obj x).readonly := by
      intro y hy hname hend
      have heq := h.objs.unique (hmem y (List.mem_cons_of_mem x hy)) hin hname hend
      rw [heq] at hy
      exact hx hy
    unfold State.lookupPipe
    by_cases hname : (s.obj x).name = name
    · rw [if_pos hname]
      obtain ⟨hgrown, htoken, href, hsame⟩ := Grown.found s p x
      have hframe := hgrown.frame
      have hinv : Inv (s.lookupFound p x) := h.frame hframe (h.objs.found hin p) hp
      have hp' : ¬ ((s.lookupFound p x).phase p).Making := by
        rw [hframe.phase]
        exact hp
      have hmem' : ∀ y ∈ rest, y ∈ (s.lookupFound p x).list := by
        intro y hy
        rw [hframe.list]
        exact hmem y (List.mem_cons_of_mem x hy)
      have hkeep : ∀ b, (∀ y ∈ rest, (s.obj y).name = name → (s.obj y).readonly ≠ b) →
          ∀ y ∈ rest, ((s.lookupFound p x).obj y).name = name → ((s.lookupFound p x).obj y).readonly ≠ b := by
        intro b hb y hy
        rw [hframe.name, hframe.readonly]
        exact hb y hy
      have hfound : ∀ t, Grown p (s.lookupFound p x) t → (t.obj x).refCount = ((s.lookupFound p x).obj x).refCount →
          Found p s t name (s.obj x).readonly x := by
        intro t ht hcount
        refine ⟨hin, hname, rfl, ?_, ?_⟩
        · have hle := h.objs.held.le (p, x)
          have hmore := ht.refs x
          rw [ht.opens, hgrown.opens]
          omega
        · rw [hcount, href]
      have hpassed : ∀ t : State N, (∀ y, y ∉ rest → (t.obj y).refCount = ((s.lookupFound p x).obj y).refCount) →
          ∀ y, y ∉ x :: rest → (t.obj y).refCount = (s.obj y).refCount := by
        intro t ht y hy
        rw [List.mem_cons, not_or] at hy
        rw [ht y hy.2, hsame y hy.1]
      by_cases hend : (s.obj x).readonly = true
      · rw [if_pos hend]
        have hrnone : rnode = none := by
          by_contra hne
          exact hr hne x List.mem_cons_self hname hend
        rw [if_pos hrnone]
        obtain ⟨t, rnode', wnode', hloop, hinv', hgrown', hkept, hr', -, hw', hwl⟩ := ih hinv hp' hmem' hrest
          (fun _ => hkeep true fun y hy hy' => hend ▸ hother y hy (hy'.trans hname.symm))
          (fun hne => hkeep false fun y hy => hw hne y (List.mem_cons_of_mem x hy))
        refine ⟨t, rnode', wnode', hloop, hinv', hgrown.trans hgrown', hpassed t hkept, fun hne => absurd hrnone hne,
          fun _ => ?_, hw', fun hnone => (hwl hnone).cons hgrown hsame fun _ => by rw [hend]; decide⟩
        rw [hr' (Option.some_ne_none x)]
        have hfound' := hfound t hgrown' (hkept x hx)
        rw [hend] at hfound'
        exact hfound'
      · rw [if_neg hend]
        have hend' : (s.obj x).readonly = false := Bool.eq_false_iff.mpr hend
        have hwnone : wnode = none := by
          by_contra hne
          exact hw hne x List.mem_cons_self hname hend'
        rw [if_pos hwnone]
        obtain ⟨t, rnode', wnode', hloop, hinv', hgrown', hkept, hr', hrl, hw', -⟩ := ih hinv hp' hmem' hrest
          (fun hne => hkeep true fun y hy => hr hne y (List.mem_cons_of_mem x hy))
          (fun _ => hkeep false fun y hy hy' => hend' ▸ hother y hy (hy'.trans hname.symm))
        refine ⟨t, rnode', wnode', hloop, hinv', hgrown.trans hgrown', hpassed t hkept, hr',
          fun hnone => (hrl hnone).cons hgrown hsame fun _ => hend, fun hne => absurd hwnone hne, fun _ => ?_⟩
        rw [hw' (Option.some_ne_none x)]
        have hfound' := hfound t hgrown' (hkept x hx)
        rw [hend'] at hfound'
        exact hfound'
    · rw [if_neg hname]
      obtain ⟨t, rnode', wnode', hloop, hinv', hgrown', hkept, hr', hrl, hw', hwl⟩ := ih h hp
        (fun y hy => hmem y (List.mem_cons_of_mem x hy)) hrest
        (fun hne y hy => hr hne y (List.mem_cons_of_mem x hy)) (fun hne y hy => hw hne y (List.mem_cons_of_mem x hy))
      have hself : Grown p s s := ⟨.refl p s, rfl, fun _ => le_rfl⟩
      exact ⟨t, rnode', wnode', hloop, hinv', hgrown', fun y hy => hkept y fun hin => hy (List.mem_cons_of_mem x hin),
        hr', fun hnone => (hrl hnone).cons hself (fun _ _ => rfl) fun heq => absurd heq hname,
        hw', fun hnone => (hwl hnone).cons hself (fun _ _ => rfl) fun heq => absurd heq hname⟩

/-- **`lookup_pipe_nolock`.** -/
theorem Inv.lookup_spec (h : Inv s) (hp : ¬ (s.phase p).Making) (name : N) (readonly : Bool) :
    ∃ t node0 node1, s.lookupNodes p name readonly = some (t, node0, node1) ∧ Inv t ∧ Grown p s t ∧
      Looked p s t name readonly s.list node0 ∧ Looked p s t name (!readonly) s.list node1 := by
  obtain ⟨t, rnode, wnode, hloop, hinv, hgrown, -, -, hr, -, hw⟩ := lookupPipe_spec name h hp
    (fun _ hx => hx) h.objs.list_nodup (fun hne => absurd rfl hne) (fun hne => absurd rfl hne)
  unfold State.lookupNodes
  rw [hloop]
  cases readonly with
  | true => exact ⟨t, rnode, wnode, rfl, hinv, hgrown, hr rfl, hw rfl⟩
  | false => exact ⟨t, wnode, rnode, rfl, hinv, hgrown, hw rfl, hr rfl⟩

end Lookup

end Ucore.PipeFs
