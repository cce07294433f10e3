import Ucore.Pipe.PipeTableStep

/-!
# The table of named pipes: runs

* `Inv.step_spec` — no assertion fails, and every step that is `Safe` keeps the invariant;
* `pipe_table` — what holds in every state of a safe run, and that only an unsafe step can leave a process
  waiting for the semaphore that it has;
* `pipe_table_deadlock` — a run with an unsafe step.
-/

namespace Ucore.PipeFs

open Occurrence Tokens

variable {N : Type} {s t : State N} {p q x y st : ℕ} {ph : Phase N} {name : N} {readonly : Bool}

/-- Only the process that has the semaphore makes an inode. -/
theorem stay_makers (hsem : Sem s) (ho : s.owner = some p)
    (hstate : ∀ name readonly, ph = .makeState name readonly → ∀ x ∈ s.list, (s.obj x).name ≠ name)
    (hinode : ∀ name readonly st node, ph = .makeInode name readonly st node →
      (∀ x ∈ s.list, (s.obj x).name = name → (s.obj x).readonly ≠ readonly ∧ (s.obj x).state = st) ∧
      ∀ y, node = some y → s.opens.count (p, y) < s.refs.count (p, y)) : Makers (s.setPhase p ph) := by
  have hself : ∀ q, ((s.setPhase p ph).phase q).Making → q = p := by
    intro q hq
    by_contra hqp
    rw [setPhase_phase_of_ne hqp] at hq
    have hown := hsem.made q hq
    rw [ho] at hown
    exact hqp (Option.some.inj hown).symm
  refine ⟨fun q name readonly hq => ?_, fun q name readonly st node hq => ?_⟩
  · have hqp := hself q (by rw [hq]; trivial)
    rw [hqp, setPhase_phase] at hq
    exact hstate name readonly hq
  · have hqp := hself q (by rw [hq]; trivial)
    rw [hqp, setPhase_phase] at hq
    rw [hqp]
    exact hinode name readonly st node hq

theorem makeState_ne_reclaim (name : N) (readonly : Bool) (x : ℕ) :
    Phase.makeState name readonly ≠ .reclaim x .done := nofun

theorem makeInode_ne_reclaim (name : N) (readonly : Bool) (st : ℕ) (node : Option ℕ) (x : ℕ) :
    Phase.makeInode name readonly st node ≠ .reclaim x .done := nofun

section Steps

/-- The two ends of a name. -/
theorem looked_none {node : Option ℕ} (h : Looked p s t name readonly s.list none)
    (h' : Looked p s t name (!readonly) s.list node) (hnode : node = none) : ∀ x ∈ s.list, (s.obj x).name ≠ name := by
  subst hnode
  intro x hx hname
  have hend := h x hx hname
  have hend' := h' x hx hname
  cases hr : (s.obj x).readonly <;> cases readonly <;> simp_all

variable [DecidableEq N]

/-- **`pipe_root_create` with the semaphore.** -/
theorem Inv.create_spec (h : Inv s) {excl : Bool} (hp : s.phase p = .create name readonly excl)
    (ho : s.owner = some p)
    (hsafe : excl = true → ∀ x ∈ s.list, (s.obj x).name = name → (s.obj x).readonly = readonly →
    0 < (s.obj x).refCount) :
    ∃ t, s.createLocked p name readonly excl = some t ∧ Inv t := by
  have hmake : ¬ (s.phase p).Making := by
    rw [hp]
    exact id
  obtain ⟨t, node0, node1, hlookup, hinv, hgrown, h0, h1⟩ := h.lookup_spec hmake name readonly
  have hframe := hgrown.frame
  have hp' : t.phase p = .create name readonly excl := by
    rw [hframe.phase]
    exact hp
  have ho' : t.owner = some p := hframe.owner.trans ho
  have hmakes : ∀ st, ¬ (t.phase p).Makes st := fun st => by
    rw [hp']
    exact id
  have hnot : ∀ x k, t.phase p ≠ .reclaim x k := fun x k => by
    rw [hp']
    exact nofun
  have hleave := hinv.leave ho' hmakes hnot
  have htoken : ∀ y, node1 = some y → t.opens.count (p, y) < t.refs.count (p, y) := by
    rintro y rfl
    exact h1.token
  unfold State.createLocked
  rw [hlookup]
  cases node0 with
  | some x =>
    show ∃ u, (if excl then t.refDec p x (.out node1) (·.out p node1) else t.out p node1) = some u ∧ Inv u
    cases excl with
    | false => exact out_spec hleave htoken
    | true =>
      -- the inode was referenced before, so the reference of the lookup is not the last one
      have hpos := hsafe rfl x h0.mem h0.name_eq h0.end_eq
      have hmore := h0.count
      have hlt := h0.token
      rw [if_pos rfl, refDec_eq (by omega), if_neg (by omega)]
      have hobjs : Objs (t.decRef p x) t.pending := by
        refine hinv.objs.decRef hlt (fun _ _ => rfl) ?_
        rw [if_neg (by omega), Nat.add_zero]
      have hdec := hinv.frame (Frame.decRef t p x) hobjs (by rw [hp']; exact id)
      refine out_spec (hdec.leave ho' hmakes hnot) fun y hy => ?_
      have hyx : y ≠ x := by
        rintro rfl
        subst hy
        have hend := h0.end_eq
        rw [h1.end_eq] at hend
        cases readonly <;> cases hend
      show t.opens.count (p, y) < (t.refs.erase (p, x)).count (p, y)
      rw [List.count_erase_of_ne fun heq => hyx (congrArg Prod.snd heq)]
      exact htoken y hy
  | none =>
    cases node1 with
    | none =>
      have hnone : ∀ x ∈ t.list, (t.obj x).name ≠ name := by
        intro x hx
        rw [hframe.list] at hx
        rw [hframe.name]
        exact looked_none h0 h1 rfl x hx
      refine ⟨_, rfl, hinv.sem.stay ho' nofun nofun, ?_, ?_,
        stay_makers hinv.sem ho' (fun name' readonly' heq => ?_) nofun⟩
      · rw [hinv.sem.pending_same (fun x => hnot x .done) (makeState_ne_reclaim name readonly)]
        exact { hinv.objs with }
      · rw [hinv.sem.making_same hmakes fun _ => id]
        exact { hinv.states with }
      · cases heq
        exact hnone
    | some y =>
      have hy : y ∈ t.list := by
        rw [hframe.list]
        exact h1.mem
      have hholders : 0 < t.holders t.making (t.obj y).state := by
        unfold State.holders
        have hcount : 0 < t.list.countP fun x => decide ((t.obj x).state = (t.obj y).state) :=
          List.countP_pos_iff.mpr ⟨y, hy, by simp⟩
        omega
      have hpos : 0 < t.refCount (t.obj y).state := by
        rw [hinv.states.counted.count]
        exact hholders
      show ∃ u, (t.acquire (t.obj y).state).map _ = some u ∧ Inv u
      unfold State.acquire
      rw [if_pos hpos]
      set u : State N := { t with
        refCount := Function.update t.refCount (t.obj y).state (t.refCount (t.obj y).state + 1) } with hu
      have hsem : Sem u := { hinv.sem with }
      obtain ⟨hmaking, hother⟩ :=
        hsem.making_enter hmakes name readonly (t.obj y).state (some y)
      refine ⟨_, rfl, hsem.stay ho' nofun nofun, ?_, ⟨hinv.states.share, ?_⟩,
        stay_makers hsem ho' nofun fun name' readonly' st node heq => ?_⟩
      · rw [hsem.pending_same (fun x => hnot x .done) (makeInode_ne_reclaim name readonly _ _)]
        exact { hinv.objs with }
      · refine hinv.states.counted.acquire hholders ?_ fun st' hst => ?_
        · show _ + State.making _ _ = _ + State.making _ _ + 1
          rw [hmaking]
          rfl
        · show _ + State.making _ _ = _ + State.making _ _
          rw [hother st' hst]
          rfl
      · cases heq
        refine ⟨fun x hx hname => ?_, htoken⟩
        have hx' : x ∈ s.list := by
          rw [← hframe.list]
          exact hx
        have hname' : (s.obj x).name = name := by
          rw [← hframe.name]
          exact hname
        refine ⟨?_, hinv.states.share x hx y hy ?_⟩
        · show (t.obj x).readonly ≠ readonly
          rw [hframe.readonly]
          exact h0 x hx' hname'
        · rw [hframe.name, hframe.name, hname']
          exact h1.name_eq.symm

omit [DecidableEq N] in
/-- **`pipe_root_create` after `pipe_state_create`.** -/
theorem Inv.madeState_spec (h : Inv s) (hp : s.phase p = .makeState name readonly) (ok : Bool) :
    ∃ t, s.madeState p name readonly ok = some t ∧ Inv t := by
  have ho : s.owner = some p := h.sem.made p (by rw [hp]; trivial)
  have hmakes : ∀ st, ¬ (s.phase p).Makes st := fun st => by
    rw [hp]
    exact id
  have hnot : ∀ x k, s.phase p ≠ .reclaim x k := fun x k => by
    rw [hp]
    exact nofun
  unfold State.madeState
  cases ok with
  | false =>
    rw [if_neg (by simp)]
    exact out_spec (h.leave ho hmakes hnot) fun y (hy : none = some y) => nomatch hy
  | true =>
    rw [if_pos rfl]
    set u : State N := { s with
      refCount := Function.update s.refCount s.nextState 1, nextState := s.nextState + 1 } with hu
    have hsem : Sem u := { h.sem with }
    obtain ⟨hmaking, hother⟩ := hsem.making_enter hmakes name readonly s.nextState none
    refine ⟨_, rfl, hsem.stay ho nofun nofun, ?_, ⟨h.states.share, ?_⟩,
      stay_makers hsem ho nofun fun name' readonly' st node heq => ?_⟩
    · rw [hsem.pending_same (fun x => hnot x .done) (makeInode_ne_reclaim name readonly _ _)]
      exact { h.objs with }
    · have hfresh : s.list.countP (fun x => decide ((s.obj x).state = s.nextState)) + s.making s.nextState = 0 :=
        h.states.counted.fresh s.nextState le_rfl
      refine h.states.counted.create ?_ fun st hst => ?_
      · show s.list.countP (fun x => decide ((s.obj x).state = s.nextState)) + State.making _ _ = 1
        rw [hmaking, ← Nat.add_assoc]
        exact congrArg (· + 1) hfresh
      · show _ + State.making _ _ = _ + State.making _ _
        rw [hother st hst]
        rfl
    · cases heq
      exact ⟨fun x hx hname => absurd hname (h.makers.makeState p name readonly hp x hx), nofun⟩

/-- **`pipe_root_create` after `pipe_create_inode`.** -/
theorem Inv.madeInode_spec (h : Inv s) {node : Option ℕ} (hp : s.phase p = .makeInode name readonly st node)
    (ok : Bool) :
    ∃ t, s.madeInode p name readonly st node ok = some t ∧ Inv t := by
  have ho : s.owner = some p := h.sem.made p (by rw [hp]; trivial)
  have hnot : ∀ x, s.phase p ≠ .reclaim x .done := fun x => by
    rw [hp]
    exact nofun
  obtain ⟨hlist, hnode⟩ := h.makers.makeInode p name readonly st node hp
  obtain ⟨hmaking, hother⟩ := h.sem.making_leave hp not_makes_idle
  have hpending : (s.setPhase p .idle).pending = s.pending := h.sem.pending_same hnot idle_ne_reclaim
  unfold State.madeInode
  cases ok with
  | true =>
    rw [if_pos rfl]
    set u := s.addInode p name readonly st with hu
    have hout : s.next ∉ s.list := fun hin => lt_irrefl _ (h.objs.lt_next (List.mem_append_left _ hin))
    have hold : ∀ y ∈ s.list, u.obj y = s.obj y := by
      intro y hy
      refine setObj_obj_of_ne ?_
      rintro rfl
      exact hout hy
    have hself : u.obj s.next = ⟨name, readonly, st, 1, 0, 1⟩ := setObj_obj
    have hobjs := h.objs.add p st fun x hx hname => (hlist x hx hname).1
    have hstates : States u (s.setPhase p .idle).making := by
      refine ⟨fun x hx y hy hname => ?_, ?_⟩
      · rcases List.mem_cons.mp hx with rfl | hx <;> rcases List.mem_cons.mp hy with rfl | hy
        · rfl
        · rw [hself, hold y hy] at hname ⊢
          exact (hlist y hy hname.symm).2.symm
        · rw [hself, hold x hx] at hname ⊢
          exact (hlist x hx hname).2
        · rw [hold x hx, hold y hy] at hname ⊢
          exact h.states.share x hx y hy hname
      · -- the inode takes the place of the call that has made it
        have hholders : u.holders (s.setPhase p .idle).making = s.holders s.making := by
          funext st'
          have hrest : s.list.countP (fun x => decide ((u.obj x).state = st')) =
              s.list.countP (fun x => decide ((s.obj x).state = st')) :=
            List.countP_congr fun x hx => by rw [hold x hx]
          unfold State.holders
          show (s.next :: s.list).countP (fun x => decide ((u.obj x).state = st')) + _ = _
          by_cases hst : st' = st
          · rw [hst] at hrest ⊢
            rw [List.countP_cons_of_pos (by rw [hself]; simp), hrest, ← hmaking]
            omega
          · rw [List.countP_cons_of_neg (by rw [hself]; simpa using Ne.symm hst), hrest, hother st' hst]
        rw [hholders]
        exact h.states.counted
    have hsem : Sem u := { h.sem with }
    refine out_spec (leave_inv hsem ho ?_ hstates) fun y hy => ?_
    · show Objs u (s.setPhase p .idle).pending
      rw [hpending]
      exact hobjs
    · exact Nat.lt_of_lt_of_le (hnode y hy) List.count_le_count_cons
  | false =>
    rw [if_neg (by simp)]
    obtain ⟨refCount, frees, hrelease, hcounted⟩ :=
      h.states.counted.release (g := s.holders (s.setPhase p .idle).making)
        (by unfold State.holders; rw [Nat.add_assoc, hmaking])
        fun st' hst => by unfold State.holders; rw [hother st' hst]
    rw [hrelease]
    set u : State N := { s with refCount := refCount, frees := frees } with hu
    have hsem : Sem u := { h.sem with }
    refine out_spec (leave_inv hsem ho ?_ ⟨h.states.share, hcounted⟩) hnode
    show Objs u (s.setPhase p .idle).pending
    rw [hpending]
    exact { h.objs with }

omit [DecidableEq N] in
/-- `unlock_pipe` looks at nothing but the semaphore. -/
theorem unlockPipe_same {owner : Option ℕ} {queue : List ℕ}
    (heq : s.unlockPipe = { s with owner := owner, queue := queue })
    (hqueue : t.queue = s.queue) : t.unlockPipe = { t with owner := owner, queue := queue } := by
  have hown := congrArg State.owner heq
  have hrest := congrArg State.queue heq
  cases hs : s.queue with
  | nil =>
    rw [unlockPipe_nil hs] at hown hrest
    rw [unlockPipe_nil (hqueue.trans hs)]
    dsimp only at hown hrest
    rw [← hown, ← hrest, ← hqueue]
  | cons r rest =>
    rw [unlockPipe_cons hs] at hown hrest
    rw [unlockPipe_cons (hqueue.trans hs)]
    dsimp only at hown hrest
    rw [← hown, ← hrest]

/-- **`pipe_inode_reclaim` with the semaphore.** -/
theorem Inv.reclaim_spec (h : Inv s) (hp : s.phase p = .reclaim x .done) (ho : s.owner = some p) :
    ∃ t, s.reclaimLocked p x .done = some t ∧ Inv t := by
  have hmakes : ∀ st, ¬ (s.phase p).Makes st := fun st => by
    rw [hp]
    exact id
  obtain ⟨hself, hother⟩ := h.sem.pending_leave hp idle_ne_reclaim
  have hmaking : (s.setPhase p .idle).making = s.making := h.sem.making_same hmakes not_makes_idle
  have hx : x ∈ s.list := by
    by_contra hout
    have hzero := h.objs.off x hout
    omega
  have hcount := h.objs.count x hx
  have hpos := h.objs.positive x hx
  have hheld := h.objs.held
  rw [← Function.update_eq_self x fun y => (s.obj y).refCount,
    ← Function.update_eq_self x fun y => (s.obj y).openCount] at hheld
  set i : Inode N := { s.obj x with reclaimCount := (s.obj x).reclaimCount - 1 } with hi
  have hframe : Frame p s { s.setObj x i with refs := s.refs, opens := s.opens } :=
    Frame.setObj rfl rfl rfl (fun _ _ _ => rfl) fun _ _ _ => rfl
  have hstates := hframe.states h.states
  unfold State.reclaimLocked
  dsimp only
  rw [if_pos hpos]
  by_cases hbusy : (s.obj x).reclaimCount - 1 ≠ 0 ∨ (s.obj x).refCount ≠ 0
  · rw [if_pos hbusy]
    have hobjs : Objs (s.setObj x i) (s.setPhase p .idle).pending := by
      refine h.objs.move hx rfl rfl hheld hother ?_ ?_
      · show (s.obj x).reclaimCount - 1 = (if 0 < (s.obj x).refCount then 1 else 0) + _
        omega
      · show 0 < (s.obj x).reclaimCount - 1
        split at hcount <;> omega
    have hsem : Sem (s.setObj x i) := { h.sem with }
    have hleave := leave_inv hsem ho hobjs (by
      show States _ (s.setPhase p .idle).making
      rw [hmaking]
      exact hstates)
    refine ⟨_, rfl, ?_⟩
    obtain ⟨owner, queue, heq⟩ := unlockPipe_eq (s.setObj x i)
    unfold State.leave at hleave
    rw [unlockPipe_same (t := (s.setObj x i).setPhase p .idle) heq rfl] at hleave
    show Inv ((s.setObj x i).unlockPipe.setPhase p .idle)
    rw [heq]
    exact hleave
  · rw [if_neg hbusy]
    rw [not_or, not_not, not_not] at hbusy
    obtain ⟨hlast, hzero⟩ := hbusy
    rw [hzero, if_neg (lt_irrefl 0)] at hcount
    have hopen : (s.obj x).openCount = 0 := h.objs.held.opn_eq_zero hzero
    -- what the inode held, the others and the calls hold on without it
    have herase : ∀ st, s.holders s.making st = ((if (s.obj x).state = st then 1 else 0) +
        (s.list.erase x).countP fun y => decide ((s.obj y).state = st)) + s.making st := by
      intro st
      unfold State.holders
      rw [(List.perm_cons_erase hx).countP_eq, List.countP_cons]
      simp only [decide_eq_true_eq]
      omega
    have hless : (s.list.erase x).countP (fun y => decide ((s.obj y).state = (s.obj x).state)) +
        s.making (s.obj x).state + 1 = s.holders s.making (s.obj x).state := by
      rw [herase, if_pos rfl]
      omega
    have hkept : ∀ st, st ≠ (s.obj x).state →
        (s.list.erase x).countP (fun y => decide ((s.obj y).state = st)) + s.making st = s.holders s.making st := by
      intro st hst
      rw [herase, if_neg (Ne.symm hst), Nat.zero_add]
    set v : State N := { s.setObj x i with list := s.list.erase x } with hv
    obtain ⟨owner, queue, heq⟩ := unlockPipe_eq v
    obtain ⟨refCount, frees, hrelease, hcounted⟩ := Counted.release
      (s := { v with owner := owner, queue := queue })
      (g := fun st => (s.list.erase x).countP (fun y => decide ((s.obj y).state = st)) + s.making st)
      h.states.counted hless hkept
    set u : State N := { s.setObj x i with
      list := s.list.erase x, refCount := refCount, frees := frees, kills := x :: s.kills } with hu
    have hkill : State.kill { v with owner := owner, queue := queue, refCount := refCount, frees := frees } x =
        some { u with owner := owner, queue := queue } := by
      refine if_pos ?_
      show ((s.setObj x i).obj x).refCount = 0 ∧ ((s.setObj x i).obj x).openCount = 0
      rw [setObj_obj]
      exact ⟨hzero, hopen⟩
    have hsem : Sem u := { h.sem with }
    have hobjs : Objs u (s.setPhase p .idle).pending := by
      refine { h.objs.kill hx (i := i) rfl rfl hzero hother ?_ with }
      omega
    have hstates' : States u (s.setPhase p .idle).making := by
      have hstate : ∀ y, (u.obj y).state = (s.obj y).state := hframe.state
      have hname : ∀ y, (u.obj y).name = (s.obj y).name := hframe.name
      refine ⟨fun y hy z hz hyz => ?_, ?_⟩
      · rw [hname, hname] at hyz
        rw [hstate, hstate]
        exact h.states.share y (List.mem_of_mem_erase hy) z (List.mem_of_mem_erase hz) hyz
      · have hholders : u.holders (s.setPhase p .idle).making =
            fun st => (s.list.erase x).countP (fun y => decide ((s.obj y).state = st)) + s.making st := by
          funext st
          unfold State.holders
          rw [hmaking]
          simp only [hstate]
          rfl
        rw [hholders]
        exact hcounted
    have hleave := leave_inv hsem ho hobjs hstates'
    unfold State.leave at hleave
    rw [unlockPipe_same (t := u.setPhase p .idle) heq rfl] at hleave
    show ∃ t, (v.unlockPipe.release (s.obj x).state).bind (fun s => (s.kill x).bind (·.resume p .done)) = some t
      ∧ Inv t
    rw [heq, hrelease, Option.bind_some, hkill, Option.bind_some]
    exact ⟨_, rfl, hleave⟩

omit [DecidableEq N] in
/-- **The steps of a process that waits for nothing and is in no call.** -/
theorem Inv.refInc (h : Inv s) (hidle : s.phase p = .idle) (hm : (p, x) ∈ s.refs) : Inv (s.refInc p x) := by
  have hpos : 0 < (s.obj x).refCount := h.objs.held.pos (p := p) hm
  have heq : s.lookupFound p x = s.refInc p x := by
    refine if_neg ?_
    show ((s.setObj x _).obj x).refCount ≠ 1
    rw [setObj_obj]
    exact fun hone => (Nat.pos_iff_ne_zero.mp hpos) (Nat.succ_injective hone)
  rw [← heq]
  exact h.frame (Grown.found s p x).1.frame (h.objs.found (h.objs.live x hpos) p) (idle_not_making hidle)

omit [DecidableEq N] in
theorem Inv.openInc (h : Inv s) (hidle : s.phase p = .idle) (hlt : s.opens.count (p, x) < s.refs.count (p, x)) :
    Inv { s.setObj x { s.obj x with openCount := (s.obj x).openCount + 1 } with opens := (p, x) :: s.opens } := by
  obtain ⟨hpos, hx⟩ := h.objs.referenced hlt
  refine h.frame (p := p) (Frame.setObj rfl rfl rfl (fun _ _ _ => rfl) fun q y hq => ?_) ?_ (idle_not_making hidle)
  · exact List.count_cons_of_ne fun heq => hq (congrArg Prod.fst heq).symm
  · have hheld := h.objs.held.openInc hlt
    rw [← Function.update_eq_self x fun y => (s.obj y).refCount] at hheld
    exact h.objs.move hx rfl rfl hheld (fun _ _ => rfl) (h.objs.count x hx) (h.objs.positive x hx)

omit [DecidableEq N] in
theorem Inv.openDec (h : Inv s) (hidle : s.phase p = .idle) (hm : (p, x) ∈ s.opens) :
    Inv { s.setObj x { s.obj x with openCount := (s.obj x).openCount - 1 } with opens := s.opens.erase (p, x) } := by
  have hle := h.objs.held.le (p, x)
  have hcount : 0 < s.opens.count (p, x) := List.count_pos_iff.mpr hm
  have hpos : 0 < (s.obj x).refCount := h.objs.held.pos (p := p) (List.count_pos_iff.mp (by omega))
  have hx := h.objs.live x hpos
  refine h.frame (p := p) (Frame.setObj rfl rfl rfl (fun _ _ _ => rfl) fun q y hq => ?_) ?_ (idle_not_making hidle)
  · exact List.count_erase_of_ne fun heq => hq (congrArg Prod.fst heq)
  · have hheld := h.objs.held.openDec hm
    rw [← Function.update_eq_self x fun y => (s.obj y).refCount] at hheld
    exact h.objs.move hx rfl rfl hheld (fun _ _ => rfl) (h.objs.count x hx) (h.objs.positive x hx)

/-- No `pipe_root_create` with `excl` finds an inode whose last reference is gone. -/
def State.Safe (s : State N) : Act N → Prop
  | .run p _ => ∀ name readonly, s.phase p = .create name readonly true →
    ∀ x ∈ s.list, (s.obj x).name = name → (s.obj x).readonly = readonly → 0 < (s.obj x).refCount
  | _ => True

/-- **No assertion fails, and a safe step keeps the invariant.** -/
theorem Inv.step_spec (h : Inv s) {a : Act N} (he : s.Enabled a) (hsafe : s.Safe a) :
    ∃ t, s.step a = some t ∧ Inv t := by
  cases a with
  | create p name readonly excl => exact ⟨_, rfl, h.enter he nofun id nofun⟩
  | lookup p name readonly => exact ⟨_, rfl, h.enter he nofun id nofun⟩
  | refInc p x => exact ⟨_, rfl, h.refInc he.1 he.2⟩
  | refDec p x => exact h.drop_spec he.1 he.2
  | openInc p x => exact ⟨_, rfl, h.openInc he.1 he.2⟩
  | openDec p x => exact ⟨_, rfl, h.openDec he.1 he.2⟩
  | run p ok =>
    have ho := h.sem.owner_of_run he.1 he.2
    unfold State.step
    dsimp only
    cases hp : s.phase p with
    | idle => exact absurd hp he.1
    | create name readonly excl =>
      refine h.create_spec hp ho ?_
      rintro rfl
      exact hsafe name readonly hp
    | makeState name readonly => exact h.madeState_spec hp ok
    | makeInode name readonly st node => exact h.madeInode_spec hp ok
    | lookup name readonly =>
      have hmake : ¬ (s.phase p).Making := by
        rw [hp]
        exact id
      obtain ⟨t, node0, node1, hlookup, hinv, hgrown, -, h1⟩ := h.lookup_spec hmake name readonly
      have hp' : t.phase p = .lookup name readonly := by
        rw [hgrown.frame.phase]
        exact hp
      have hleave := hinv.leave (hgrown.frame.owner.trans ho) (fun st => by rw [hp']; exact id)
        (fun x k => by rw [hp']; exact nofun)
      dsimp only
      rw [hlookup]
      refine out_spec hleave ?_
      rintro y rfl
      exact h1.token
    | reclaim x k =>
      obtain rfl := h.sem.done p x k hp
      exact h.reclaim_spec hp ho

/-- A `pipe_root_create` with `excl` that finds an inode whose last reference is gone waits for the semaphore that it
has. -/
theorem Inv.unsafe_spec (h : Inv s) {ok : Bool} (he : s.Enabled (.run p ok)) (hbad : ¬ s.Safe (.run p ok)) :
    ∃ t, s.step (.run p ok) = some t ∧ t.owner = some p ∧ p ∈ t.queue := by
  have ho := h.sem.owner_of_run he.1 he.2
  unfold State.Safe at hbad
  push Not at hbad
  obtain ⟨name, readonly, hp, x, hx, hname, hend, hzero⟩ := hbad
  have hmake : ¬ (s.phase p).Making := by
    rw [hp]
    exact id
  obtain ⟨t, node0, node1, hlookup, hinv, hgrown, h0, -⟩ := h.lookup_spec hmake name readonly
  have ho' : t.owner = some p := hgrown.frame.owner.trans ho
  unfold State.step
  dsimp only
  rw [hp]
  dsimp only
  unfold State.createLocked
  rw [hlookup]
  cases node0 with
  | none => exact absurd hend (h0 x hx hname)
  | some y =>
    have hyx : y = x := h.objs.unique h0.mem hx (h0.name_eq.trans hname.symm) (h0.end_eq.trans hend.symm)
    have hone : (t.obj y).refCount = 1 := by
      rw [h0.count, hyx]
      omega
    show ∃ u, t.refDec p y (.out node1) (·.out p node1) = some u ∧ _
    rw [refDec_eq (by omega), if_pos hone]
    have howner : ((t.decRef p y).setPhase p (.reclaim y (.out node1))).owner = some p := ho'
    refine ⟨_, rfl, ?_⟩
    rw [lockPipe_some howner]
    exact ⟨ho', List.mem_append_right _ (List.mem_singleton.mpr rfl)⟩

end Steps

/-! ## Runs -/

/-- The states of the runs whose steps are all safe. -/
inductive SafeReachable {N : Type} [DecidableEq N] [Inhabited N] : State N → Prop where
  | init : SafeReachable (pipeFsInit N)
  | step {s t : State N} {a : Act N} (hr : SafeReachable s) (he : s.Enabled a) (hsafe : s.Safe a)
      (hs : s.step a = some t) : SafeReachable t

theorem init_inv [Inhabited N] : Inv (pipeFsInit N) := by
  have hocc : ∀ P : Phase N → Prop, ¬ P .idle → occ (fun _ : ℕ => (.idle : Phase N)) P = 0 := by
    exact fun P hP => (occ_eq_zero (Set.finite_empty.subset fun _ hx => hP hx)).mpr fun _ => hP
  refine ⟨⟨fun p => ?_, List.nodup_nil, fun p hp => absurd hp id, nofun⟩,
    ⟨List.Perm.nil, List.nodup_nil, ⟨fun _ => rfl, fun _ => rfl, fun _ => le_rfl⟩, nofun, nofun, nofun,
      fun x _ => ?_⟩,
    ⟨nofun, ⟨fun st => ?_, fun st => ?_, List.nodup_nil, fun st _ => ?_⟩⟩, nofun, nofun⟩
  · exact ⟨fun hne => absurd rfl hne, fun hin => hin.elim nofun nofun⟩
  · exact hocc (· = .reclaim x .done) nofun
  · exact ((Nat.zero_add _).trans (hocc (Phase.Makes st) (not_makes_idle st))).symm
  · exact ⟨nofun, fun hin => absurd hin.1 (Nat.not_lt_zero st)⟩
  · exact (Nat.zero_add _).trans (hocc (Phase.Makes st) (not_makes_idle st))

theorem SafeReachable.inv [DecidableEq N] [Inhabited N] (h : SafeReachable s) : Inv s := by
  induction h with
  | init => exact init_inv
  | step hr he hsafe hs ih =>
    obtain ⟨u, hs', hinv⟩ := ih.step_spec he hsafe
    rw [hs] at hs'
    cases hs'
    exact hinv

/-- Nothing can return the inode any more. -/
def State.Gone (s : State N) (x : ℕ) : Prop :=
  x ∉ s.list ∧ (∀ p, (p, x) ∉ s.refs ∧ (p, x) ∉ s.opens) ∧ (∀ p k, s.phase p ≠ .reclaim x k) ∧
    ∀ p name readonly st, s.phase p ≠ .makeInode name readonly st (some x)

/-- What holds of the table of named pipes. -/
structure Table (s : State N) : Prop where
  unique : ∀ x ∈ s.list, ∀ y ∈ s.list, (s.obj x).name = (s.obj y).name →
    (s.obj x).readonly = (s.obj y).readonly → x = y
  share : ∀ x ∈ s.list, ∀ y ∈ s.list, (s.obj x).name = (s.obj y).name → (s.obj x).state = (s.obj y).state
  /-- The inodes that hold the state, and the calls that are making one. -/
  refCount : ∀ st, s.refCount st = s.list.countP (fun x => (s.obj x).state = st) + s.making st
  listed : ∀ x ∈ s.list, (∃ p, (p, x) ∈ s.refs) ∨ ∃ p k, s.phase p = .reclaim x k
  allocated : ∀ x < s.next, x ∈ s.list ∨ x ∈ s.kills
  killed : s.kills.Nodup ∧ ∀ x ∈ s.kills, x < s.next ∧ s.Gone x
  freed : s.frees.Nodup ∧ ∀ st, st ∈ s.frees ↔ st < s.nextState ∧ (∀ x ∈ s.list, (s.obj x).state ≠ st) ∧
    ∀ p name readonly node, s.phase p ≠ .makeInode name readonly st node
  sem : ∀ p, s.owner = some p → p ∉ s.queue

theorem Inv.gone (h : Inv s) (hx : x ∈ s.kills) : s.Gone x := by
  have hout : x ∉ s.list := fun hin => (List.nodup_append.mp h.objs.nodup).2.2 x hin x hx rfl
  have hzero : (s.obj x).refCount = 0 := by
    by_contra hne
    exact hout (h.objs.live x (Nat.pos_of_ne_zero hne))
  have hrefs := h.objs.held.ref_eq_zero.mp hzero
  have hle := fun p => h.objs.held.le (p, x)
  refine ⟨hout, fun p => ⟨hrefs p, fun hin => ?_⟩, fun p k hp => ?_, fun p name readonly st hp => ?_⟩
  · have hcount : 0 < s.opens.count (p, x) := List.count_pos_iff.mpr hin
    have hpos := Nat.lt_of_lt_of_le hcount (hle p)
    exact hrefs p (List.count_pos_iff.mp hpos)
  · obtain rfl := h.sem.done p x k hp
    have hpending := h.objs.off x hout
    have hfin := h.sem.finite (P := (· = Phase.reclaim x .done)) nofun
    exact (occ_eq_zero hfin).mp hpending p hp
  · have hlt := (h.makers.makeInode p name readonly st _ hp).2 x rfl
    exact hrefs p (List.count_pos_iff.mp (Nat.zero_lt_of_lt hlt))

theorem Inv.table (h : Inv s) : Table s := by
  refine ⟨fun x hx y hy => h.objs.unique hx hy, h.states.share, h.states.counted.count, fun x hx => ?_,
    fun x hx => ?_,
    ⟨(List.nodup_append.mp h.objs.nodup).2.1, fun x hx => ⟨h.objs.lt_next (List.mem_append_right _ hx), h.gone hx⟩⟩,
    ⟨h.states.counted.nodup, fun st => ?_⟩, fun p => h.sem.not_queued⟩
  · have hcount := h.objs.count x hx
    have hpos := h.objs.positive x hx
    by_cases hzero : (s.obj x).refCount = 0
    · rw [if_neg (by omega)] at hcount
      right
      by_contra hnone
      push Not at hnone
      have hpending : s.pending x = 0 :=
        (occ_eq_zero (h.sem.finite (P := (· = .reclaim x .done)) nofun)).mpr fun p => hnone p .done
      omega
    · left
      by_contra hnone
      push Not at hnone
      exact hzero (h.objs.held.ref_eq_zero.mpr hnone)
  · exact List.mem_append.mp (h.objs.table.mem_iff.mpr (List.mem_range.mpr hx))
  · rw [h.states.counted.freed]
    refine and_congr_right fun _ => ?_
    unfold State.holders
    rw [Nat.add_eq_zero_iff, List.countP_eq_zero]
    refine and_congr ?_ ?_
    · simp
    · refine (occ_eq_zero (h.sem.finite (not_makes_idle st))).trans ⟨fun hno p name readonly node hp => ?_,
      fun hno p hp => ?_⟩
      · have hp' := hno p
        rw [hp] at hp'
        exact hp' (makes_self ..)
      · cases hph : s.phase p with
        | makeInode name readonly st' node =>
          rw [hph] at hp
          have hst : st' = st := hp
          rw [hst] at hph
          exact hno p name readonly node hph
        | _ =>
          rw [hph] at hp
          exact hp

/-- **The table of named pipes.**  In every state of a run in which no `pipe_root_create` with `excl` has found an
inode whose last reference was gone, the table is as it should be; no step fails an assertion; and it is
as it should be after the step if and only if this one finds no such inode either. -/
theorem pipe_table [DecidableEq N] [Inhabited N] (hr : SafeReachable s) : Table s ∧
    ∀ a, s.Enabled a → ∃ t, s.step a = some t ∧ (Table t ↔ s.Safe a) := by
  have h := hr.inv
  refine ⟨h.table, fun a he => ?_⟩
  by_cases hsafe : s.Safe a
  · obtain ⟨t, hs, hinv⟩ := h.step_spec he hsafe
    exact ⟨t, hs, fun _ => hsafe, fun _ => hinv.table⟩
  · cases a with
    | run p ok =>
      obtain ⟨t, hs, ho, hq⟩ := h.unsafe_spec he hsafe
      exact ⟨t, hs, fun htable => absurd hq (htable.sem p ho), fun hs => absurd hs hsafe⟩
    | _ => exact absurd trivial hsafe

/-- Process 1 makes the pipe `r_7`, and drops it. -/
theorem pipe_table_dropped : ∃ s : State ℕ, SafeReachable s ∧ s.list = [] ∧ s.kills = [0] ∧ s.frees = [0] ∧
    Table s := by
  have h₁ := (@SafeReachable.init ℕ _ _).step (a := .create 1 7 true false) rfl trivial rfl
  have h₂ := h₁.step (a := .run 1 true) ⟨nofun, nofun⟩ nofun rfl
  have h₃ := h₂.step (a := .run 1 true) ⟨nofun, nofun⟩ nofun rfl
  have h₄ := h₃.step (a := .run 1 true) ⟨nofun, nofun⟩ nofun rfl
  have h₅ := h₄.step (a := .refDec 1 0) ⟨rfl, by decide⟩ trivial rfl
  have h₆ := h₅.step (a := .run 1 true) ⟨nofun, nofun⟩ nofun rfl
  exact ⟨_, h₆, rfl, rfl, rfl, (pipe_table h₆).1⟩

/-- While process 2 waits for memory to make `r_8`, process 3 asks for a new `r_7` and process 1 drops the last
reference to the old one.  Process 3 is the first to get the semaphore. -/
theorem pipe_table_deadlock : ∃ s : State ℕ, Reachable s ∧ ∃ p, s.owner = some p ∧ p ∈ s.queue := by
  have h₁ := (@Reachable.init ℕ _ _).step (a := .create 1 7 true false) rfl rfl
  have h₂ := h₁.step (a := .run 1 true) ⟨nofun, nofun⟩ rfl
  have h₃ := h₂.step (a := .run 1 true) ⟨nofun, nofun⟩ rfl
  have h₄ := h₃.step (a := .run 1 true) ⟨nofun, nofun⟩ rfl
  have h₅ := h₄.step (a := .create 2 8 true false) rfl rfl
  have h₆ := h₅.step (a := .run 2 true) ⟨nofun, nofun⟩ rfl
  have h₇ := h₆.step (a := .create 3 7 true true) rfl rfl
  have h₈ := h₇.step (a := .refDec 1 0) ⟨rfl, by decide⟩ rfl
  have h₉ := h₈.step (a := .run 2 true) ⟨nofun, by decide⟩ rfl
  have h₁₀ := h₉.step (a := .run 2 true) ⟨nofun, by decide⟩ rfl
  have h₁₁ := h₁₀.step (a := .run 3 true) ⟨nofun, by decide⟩ rfl
  exact ⟨_, h₁₁, 3, rfl, by decide⟩

end Ucore.PipeFs
