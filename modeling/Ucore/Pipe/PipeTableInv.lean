import Mathlib.Data.List.Nodup
import Ucore.Lib.Count
import Ucore.Lib.Tokens
import Ucore.Pipe.PipeTable

/-!
# Invariant of the table of named pipes

`reclaim_count` of an inode in the table is the number of `pipe_inode_reclaim` calls that are still to
decrement it, plus one while the inode is referenced; `ref_count` of a pipe state is the number of inodes that
have it, plus one while an inode is made for it.

* `Sem`, `Objs`, `States`, `Makers` — the parts of the invariant `Inv`: the semaphore, the inodes, the pipe
  states, and what the process that makes an inode knows.
* `Inv.frame`, `Inv.drop_spec`, `Inv.out_spec` — what the pieces of a call do to it.
-/

namespace Ucore.PipeFs

open Occurrence Tokens

variable {N : Type}

/-- The process makes an inode. -/
def Phase.Making : Phase N → Prop
  | .makeState _ _ => True
  | .makeInode _ _ _ _ => True
  | _ => False

/-- The process makes an inode for the pipe state. -/
def Phase.Makes (st : ℕ) : Phase N → Prop
  | .makeInode _ _ st' _ => st' = st
  | _ => False

/-- The number of `pipe_inode_reclaim` calls on `x` that have not yet decremented `reclaim_count`. -/
noncomputable def State.pending (s : State N) (x : ℕ) : ℕ := occ s.phase (· = .reclaim x .done)

/-- The number of calls that are making an inode for a pipe state. -/
noncomputable def State.making (s : State N) (st : ℕ) : ℕ := occ s.phase (·.Makes st)

/-- Who is in a call has the semaphore or waits for it, and nobody does both. -/
structure Sem (s : State N) : Prop where
  busy : ∀ p, s.phase p ≠ .idle ↔ s.owner = some p ∨ p ∈ s.queue
  nodup : (s.owner.toList ++ s.queue).Nodup
  made : ∀ p, (s.phase p).Making → s.owner = some p
  done : ∀ p x k, s.phase p = .reclaim x k → k = .done

/-- The inodes; `pending` counts the reclaims. -/
structure Objs (s : State N) (pending : ℕ → ℕ) : Prop where
  table : (s.list ++ s.kills).Perm (List.range s.next)
  keys : (s.list.map fun x => ((s.obj x).name, (s.obj x).readonly)).Nodup
  held : Held (fun x => (s.obj x).refCount) (fun x => (s.obj x).openCount) s.refs s.opens
  live : ∀ x, 0 < (s.obj x).refCount → x ∈ s.list
  count : ∀ x ∈ s.list, (s.obj x).reclaimCount = (if 0 < (s.obj x).refCount then 1 else 0) + pending x
  positive : ∀ x ∈ s.list, 0 < (s.obj x).reclaimCount
  off : ∀ x, x ∉ s.list → pending x = 0

/-- A pipe state is freed when nothing holds it any more. -/
structure Counted (refCount : ℕ → ℕ) (nextState : ℕ) (frees : List ℕ) (holders : ℕ → ℕ) : Prop where
  count : ∀ st, refCount st = holders st
  freed : ∀ st, st ∈ frees ↔ st < nextState ∧ holders st = 0
  nodup : frees.Nodup
  fresh : ∀ st, nextState ≤ st → holders st = 0

/-- What holds a pipe state: the inodes that have it, and the calls that make one. -/
def State.holders (s : State N) (making : ℕ → ℕ) (st : ℕ) : ℕ :=
  s.list.countP (fun x => (s.obj x).state = st) + making st

/-- The pipe states. -/
structure States (s : State N) (making : ℕ → ℕ) : Prop where
  share : ∀ x ∈ s.list, ∀ y ∈ s.list, (s.obj x).name = (s.obj y).name → (s.obj x).state = (s.obj y).state
  counted : Counted s.refCount s.nextState s.frees (s.holders making)

/-- What a process that makes an inode knows of the table. -/
structure Makers (s : State N) : Prop where
  makeState : ∀ p name readonly, s.phase p = .makeState name readonly → ∀ x ∈ s.list, (s.obj x).name ≠ name
  makeInode : ∀ p name readonly st node, s.phase p = .makeInode name readonly st node →
    (∀ x ∈ s.list, (s.obj x).name = name → (s.obj x).readonly ≠ readonly ∧ (s.obj x).state = st) ∧
    ∀ y, node = some y → s.opens.count (p, y) < s.refs.count (p, y)

structure Inv (s : State N) : Prop where
  sem : Sem s
  objs : Objs s s.pending
  states : States s s.making
  makers : Makers s

variable {s t : State N} {p q x y st : ℕ} {ph : Phase N}

/-! ## The semaphore -/

@[simp] theorem setPhase_phase : (s.setPhase p ph).phase p = ph := Function.update_self ..

theorem setPhase_phase_of_ne (h : q ≠ p) : (s.setPhase p ph).phase q = s.phase q := Function.update_of_ne h ..

theorem Sem.owner_of_run (h : Sem s) (hp : s.phase p ≠ .idle) (hq : p ∉ s.queue) : s.owner = some p :=
  ((h.busy p).mp hp).resolve_right hq

theorem Sem.not_queued (h : Sem s) (hp : s.owner = some p) : p ∉ s.queue := by
  have hnodup := h.nodup
  rw [hp] at hnodup
  exact (List.nodup_cons.mp hnodup).1

theorem lockPipe_none (h : s.owner = none) (p : ℕ) : s.lockPipe p = { s with owner := some p } := by
  unfold State.lockPipe
  split
  · rfl
  · rename_i r ho
    rw [h] at ho
    cases ho

theorem lockPipe_some {r : ℕ} (h : s.owner = some r) (p : ℕ) :
    s.lockPipe p = { s with queue := s.queue ++ [p] } := by
  unfold State.lockPipe
  split
  · rename_i ho
    rw [h] at ho
    cases ho
  · rfl

theorem unlockPipe_nil (h : s.queue = []) : s.unlockPipe = { s with owner := none } := by
  unfold State.unlockPipe
  split
  · rfl
  · rename_i r rest hq
    rw [h] at hq
    cases hq

theorem unlockPipe_cons {r : ℕ} {rest : List ℕ} (h : s.queue = r :: rest) :
    s.unlockPipe = { s with owner := some r, queue := rest } := by
  unfold State.unlockPipe
  split
  · rename_i hq
    rw [h] at hq
    cases hq
  · rename_i r' rest' hq
    rw [h] at hq
    cases hq
    rfl

/-- A process enters a call, and waits if it must. -/
theorem Sem.enter (h : Sem s) (hp : s.phase p = .idle) (hne : ph ≠ .idle) (hmake : ¬ ph.Making)
    (hdone : ∀ x k, ph = .reclaim x k → k = .done) : Sem ((s.setPhase p ph).lockPipe p) := by
  have hout : ¬ (s.owner = some p ∨ p ∈ s.queue) := fun hin => (h.busy p).mpr hin hp
  have hmade : ∀ q, ((s.setPhase p ph).phase q).Making → s.owner = some q := by
    intro q hq
    by_cases hqp : q = p
    · rw [hqp, setPhase_phase] at hq
      exact absurd hq hmake
    · rw [setPhase_phase_of_ne hqp] at hq
      exact h.made q hq
  have hend : ∀ q x k, (s.setPhase p ph).phase q = .reclaim x k → k = .done := by
    intro q x k hq
    by_cases hqp : q = p
    · rw [hqp, setPhase_phase] at hq
      exact hdone x k hq
    · rw [setPhase_phase_of_ne hqp] at hq
      exact h.done q x k hq
  have hbusy : ∀ q, (s.setPhase p ph).phase q ≠ .idle ↔ q = p ∨ s.owner = some q ∨ q ∈ s.queue := by
    intro q
    by_cases hqp : q = p
    · rw [hqp, setPhase_phase]
      exact ⟨fun _ => Or.inl rfl, fun _ => hne⟩
    · rw [setPhase_phase_of_ne hqp, h.busy]
      exact ⟨Or.inr, fun hin => hin.resolve_left hqp⟩
  have hnodup := h.nodup
  cases ho : s.owner with
  | none =>
    have howner : (s.setPhase p ph).owner = none := ho
    rw [lockPipe_none howner]
    rw [ho] at hnodup hout
    refine ⟨fun q => ?_, List.nodup_cons.mpr ⟨fun hin => hout (Or.inr hin), hnodup⟩, fun q hq => ?_, hend⟩
    · refine (hbusy q).trans ?_
      rw [ho]
      show _ ↔ some p = some q ∨ q ∈ s.queue
      simp [eq_comm]
    · have hq' := hmade q hq
      rw [ho] at hq'
      cases hq'
  | some r =>
    have howner : (s.setPhase p ph).owner = some r := ho
    rw [lockPipe_some howner]
    refine ⟨fun q => ?_, ?_, hmade, hend⟩
    · refine (hbusy q).trans ?_
      show _ ↔ s.owner = some q ∨ q ∈ s.queue ++ [p]
      rw [List.mem_append, List.mem_singleton]
      tauto
    · show (s.owner.toList ++ (s.queue ++ [p])).Nodup
      rw [← List.append_assoc, List.nodup_append]
      refine ⟨hnodup, by simp, fun a ha b hb => ?_⟩
      rw [List.mem_singleton.mp hb]
      rintro rfl
      rw [List.mem_append, Option.mem_toList] at ha
      exact hout ha

/-- The process that has the semaphore gives it back. -/
theorem Sem.leave (h : Sem s) (ho : s.owner = some p) : Sem (s.leave p) := by
  have hq := h.not_queued ho
  have hnodup := h.nodup
  rw [ho] at hnodup
  have hmade : ∀ q, ¬ ((s.setPhase p .idle).phase q).Making := by
    intro q hq
    by_cases hqp : q = p
    · rw [hqp, setPhase_phase] at hq
      exact hq
    · rw [setPhase_phase_of_ne hqp] at hq
      have hown := h.made q hq
      rw [ho] at hown
      exact hqp (Option.some.inj hown).symm
  have hend : ∀ q x k, (s.setPhase p .idle).phase q = .reclaim x k → k = .done := by
    intro q x k hq
    by_cases hqp : q = p
    · rw [hqp, setPhase_phase] at hq
      cases hq
    · rw [setPhase_phase_of_ne hqp] at hq
      exact h.done q x k hq
  have hbusy : ∀ q, (s.setPhase p .idle).phase q ≠ .idle ↔ q ∈ s.queue := by
    intro q
    by_cases hqp : q = p
    · rw [hqp, setPhase_phase]
      exact ⟨fun hne => absurd rfl hne, fun hin => absurd hin hq⟩
    · rw [setPhase_phase_of_ne hqp, h.busy, ho]
      exact ⟨fun hin => hin.resolve_left fun heq => hqp (Option.some.inj heq).symm, Or.inr⟩
  unfold State.leave
  cases hqueue : s.queue with
  | nil =>
    have hqueue' : (s.setPhase p .idle).queue = [] := hqueue
    rw [unlockPipe_nil hqueue']
    refine ⟨fun q => ?_, ?_, fun q hq => absurd hq (hmade q), hend⟩
    · refine (hbusy q).trans ?_
      rw [hqueue]
      show _ ↔ none = some q ∨ q ∈ s.queue
      rw [hqueue]
      simp
    · show ([] ++ s.queue).Nodup
      rw [hqueue]
      exact List.nodup_nil
  | cons r rest =>
    have hqueue' : (s.setPhase p .idle).queue = r :: rest := hqueue
    rw [unlockPipe_cons hqueue']
    refine ⟨fun q => ?_, ?_, fun q hq => absurd hq (hmade q), hend⟩
    · refine (hbusy q).trans ?_
      rw [hqueue, List.mem_cons]
      show _ ↔ some r = some q ∨ q ∈ rest
      simp [eq_comm]
    · have htail := (List.nodup_cons.mp hnodup).2
      rw [hqueue] at htail
      exact htail

/-- The process that has the semaphore keeps it. -/
theorem Sem.stay (h : Sem s) (ho : s.owner = some p) (hne : ph ≠ .idle)
    (hdone : ∀ x k, ph = .reclaim x k → k = .done) : Sem (s.setPhase p ph) := by
  refine ⟨fun q => ?_, h.nodup, fun q hq => ?_, fun q x k hq => ?_⟩
  · by_cases hqp : q = p
    · rw [hqp, setPhase_phase]
      exact ⟨fun _ => Or.inl ho, fun _ => hne⟩
    · rw [setPhase_phase_of_ne hqp]
      exact h.busy q
  · by_cases hqp : q = p
    · rw [hqp]
      exact ho
    · rw [setPhase_phase_of_ne hqp] at hq
      exact h.made q hq
  · by_cases hqp : q = p
    · rw [hqp, setPhase_phase] at hq
      exact hdone x k hq
    · rw [setPhase_phase_of_ne hqp] at hq
      exact h.done q x k hq

/-! ## The inodes -/

@[simp] theorem setObj_obj {i : Inode N} : (s.setObj x i).obj x = i := Function.update_self ..

theorem setObj_obj_of_ne {i : Inode N} (h : y ≠ x) : (s.setObj x i).obj y = s.obj y := Function.update_of_ne h ..

theorem field_setObj {γ : Type} (f : Inode N → γ) (i : Inode N) :
    (fun y => f ((s.setObj x i).obj y)) = Function.update (fun y => f (s.obj y)) x (f i) := by
  funext y
  by_cases hy : y = x
  · rw [hy, setObj_obj, Function.update_self]
  · rw [setObj_obj_of_ne hy, Function.update_of_ne hy]

section Objs

variable {f g : ℕ → ℕ}

theorem Objs.list_nodup (h : Objs s f) : s.list.Nodup := h.keys.of_map

theorem Objs.lt_next (h : Objs s f) (hx : x ∈ s.list ++ s.kills) : x < s.next :=
  List.mem_range.mp (h.table.mem_iff.mp hx)

theorem Objs.nodup (h : Objs s f) : (s.list ++ s.kills).Nodup := h.table.nodup_iff.mpr List.nodup_range

/-- One inode for each name and end. -/
theorem Objs.unique (h : Objs s f) (hx : x ∈ s.list) (hy : y ∈ s.list) (hname : (s.obj x).name = (s.obj y).name)
    (hend : (s.obj x).readonly = (s.obj y).readonly) : x = y :=
  List.inj_on_of_nodup_map h.keys hx hy (by rw [hname, hend])

/-- An inode in the table changes its counters. -/
theorem Objs.move (h : Objs s f) (hx : x ∈ s.list) {i : Inode N} {refs opens : List (ℕ × ℕ)}
    (hname : i.name = (s.obj x).name) (hend : i.readonly = (s.obj x).readonly)
    (hheld : Held (Function.update (fun y => (s.obj y).refCount) x i.refCount)
      (Function.update (fun y => (s.obj y).openCount) x i.openCount) refs opens)
    (hg : ∀ y, y ≠ x → g y = f y) (hcount : i.reclaimCount = (if 0 < i.refCount then 1 else 0) + g x)
    (hpos : 0 < i.reclaimCount) : Objs { s.setObj x i with refs := refs, opens := opens } g := by
  have hkeys : (fun y => (((s.setObj x i).obj y).name, ((s.setObj x i).obj y).readonly)) =
      fun y => ((s.obj y).name, (s.obj y).readonly) := by
    funext y
    by_cases hy : y = x
    · rw [hy, setObj_obj, hname, hend]
    · rw [setObj_obj_of_ne hy]
  refine ⟨h.table, ?_, ?_, fun y hy => ?_, fun y hy => ?_, fun y hy => ?_, fun y hy => ?_⟩
  · show (s.list.map fun y => (((s.setObj x i).obj y).name, ((s.setObj x i).obj y).readonly)).Nodup
    rw [hkeys]
    exact h.keys
  · show Held (fun y => ((s.setObj x i).obj y).refCount) (fun y => ((s.setObj x i).obj y).openCount) refs opens
    rw [field_setObj (fun i => i.refCount), field_setObj (fun i => i.openCount)]
    exact hheld
  · by_cases hyx : y = x
    · rw [hyx]
      exact hx
    · refine h.live y ?_
      rw [← setObj_obj_of_ne (s := s) (i := i) hyx]
      exact hy
  · show ((s.setObj x i).obj y).reclaimCount = (if 0 < ((s.setObj x i).obj y).refCount then 1 else 0) + g y
    by_cases hyx : y = x
    · rw [hyx, setObj_obj]
      exact hcount
    · rw [setObj_obj_of_ne hyx, hg y hyx]
      exact h.count y hy
  · show 0 < ((s.setObj x i).obj y).reclaimCount
    by_cases hyx : y = x
    · rw [hyx, setObj_obj]
      exact hpos
    · rw [setObj_obj_of_ne hyx]
      exact h.positive y hy
  · have hyx : y ≠ x := by
      rintro rfl
      exact hy hx
    rw [hg y hyx]
    exact h.off y hy

/-- `pipe_inode_reclaim` takes an inode out of the table and kills it. -/
theorem Objs.kill (h : Objs s f) (hx : x ∈ s.list) {i : Inode N} (href : i.refCount = (s.obj x).refCount)
    (hopen : i.openCount = (s.obj x).openCount) (hzero : (s.obj x).refCount = 0) (hg : ∀ y, y ≠ x → g y = f y)
    (hgx : g x = 0) : Objs { s.setObj x i with list := s.list.erase x, kills := x :: s.kills } g := by
  have hnodup := h.list_nodup
  have hmem : ∀ y, y ∈ s.list.erase x ↔ y ≠ x ∧ y ∈ s.list := fun y => hnodup.mem_erase_iff
  have hold : ∀ y, y ≠ x → (s.setObj x i).obj y = s.obj y := fun y hy => setObj_obj_of_ne hy
  refine ⟨?_, ?_, ?_, fun y hy => ?_, fun y hy => ?_, fun y hy => ?_, fun y hy => ?_⟩
  · refine List.Perm.trans ?_ h.table
    show (s.list.erase x ++ x :: s.kills).Perm (s.list ++ s.kills)
    exact List.perm_middle.trans ((List.perm_cons_erase hx).symm.append_right s.kills)
  · show ((s.list.erase x).map fun y => (((s.setObj x i).obj y).name, ((s.setObj x i).obj y).readonly)).Nodup
    rw [List.map_congr_left fun y hy => by rw [hold y ((hmem y).mp hy).1]]
    exact h.keys.sublist (List.erase_sublist.map _)
  · show Held (fun y => ((s.setObj x i).obj y).refCount) (fun y => ((s.setObj x i).obj y).openCount) s.refs s.opens
    rw [field_setObj (fun i => i.refCount), field_setObj (fun i => i.openCount), href, hopen,
      Function.update_eq_self, Function.update_eq_self]
    exact h.held
  · show y ∈ s.list.erase x
    replace hy : 0 < ((s.setObj x i).obj y).refCount := hy
    have hyx : y ≠ x := by
      rintro rfl
      rw [setObj_obj, href, hzero] at hy
      exact lt_irrefl 0 hy
    rw [hold y hyx] at hy
    exact (hmem y).mpr ⟨hyx, h.live y hy⟩
  · obtain ⟨hyx, hin⟩ := (hmem y).mp hy
    show ((s.setObj x i).obj y).reclaimCount = (if 0 < ((s.setObj x i).obj y).refCount then 1 else 0) + g y
    rw [hold y hyx, hg y hyx]
    exact h.count y hin
  · obtain ⟨hyx, hin⟩ := (hmem y).mp hy
    show 0 < ((s.setObj x i).obj y).reclaimCount
    rw [hold y hyx]
    exact h.positive y hin
  · by_cases hyx : y = x
    · rw [hyx]
      exact hgx
    · rw [hg y hyx]
      exact h.off y fun hin => hy ((hmem y).mpr ⟨hyx, hin⟩)

/-- `pipe_create_inode` and `list_add`. -/
theorem Objs.add (h : Objs s f) (p : ℕ) {name : N} {readonly : Bool} (st : ℕ)
    (hnew : ∀ x ∈ s.list, (s.obj x).name = name → (s.obj x).readonly ≠ readonly) :
    Objs (s.addInode p name readonly st) f := by
  have hout : s.next ∉ s.list := fun hin => lt_irrefl _ (h.lt_next (List.mem_append_left _ hin))
  have hzero : (s.obj s.next).refCount = 0 := by
    by_contra hne
    exact hout (h.live _ (Nat.pos_of_ne_zero hne))
  have hold : ∀ y ∈ s.list, (s.addInode p name readonly st).obj y = s.obj y := by
    intro y hy
    refine setObj_obj_of_ne ?_
    rintro rfl
    exact hout hy
  have hself : (s.addInode p name readonly st).obj s.next = ⟨name, readonly, st, 1, 0, 1⟩ := setObj_obj
  have hopen := h.held.opn_eq_zero hzero
  refine ⟨?_, ?_, ?_, fun y hy => ?_, fun y hy => ?_, fun y hy => ?_, fun y hy => ?_⟩
  · show (s.next :: s.list ++ s.kills).Perm (List.range (s.next + 1))
    rw [List.range_succ]
    exact (h.table.cons s.next).trans (List.perm_append_singleton _ _).symm
  · refine List.nodup_cons.mpr ⟨fun hin => ?_, ?_⟩
    · obtain ⟨y, hy, heq⟩ := List.mem_map.mp hin
      dsimp only at heq
      rw [hold y hy, hself] at heq
      exact hnew y hy (congrArg Prod.fst heq) (congrArg Prod.snd heq)
    · rw [List.map_congr_left fun y hy => by rw [hold y hy]]
      exact h.keys
  · have hinc := h.held.refInc p s.next
    have href : (fun y => ((s.addInode p name readonly st).obj y).refCount) =
        Function.update (fun y => (s.obj y).refCount) s.next ((s.obj s.next).refCount + 1) := by
      rw [hzero]
      exact field_setObj (fun i => i.refCount) _
    have hopn : (fun y => ((s.addInode p name readonly st).obj y).openCount) = fun y => (s.obj y).openCount := by
      refine (field_setObj (fun i => i.openCount) _).trans ?_
      conv_rhs => rw [← Function.update_eq_self s.next fun y => (s.obj y).openCount]
      rw [hopen]
    rw [href, hopn]
    exact hinc
  · by_cases hyn : y = s.next
    · rw [hyn]
      exact List.mem_cons_self
    · refine List.mem_cons_of_mem _ (h.live y ?_)
      rw [← setObj_obj_of_ne hyn]
      exact hy
  · rcases List.mem_cons.mp hy with hyn | hin
    · rw [hyn, hself, h.off _ hout]
      rfl
    · rw [hold y hin]
      exact h.count y hin
  · rcases List.mem_cons.mp hy with hyn | hin
    · rw [hyn, hself]
      exact Nat.one_pos
    · rw [hold y hin]
      exact h.positive y hin
  · exact h.off y fun hin => hy (List.mem_cons_of_mem _ hin)

end Objs

/-! ## The pipe states -/

section Counted

variable {refCount : ℕ → ℕ} {nextState : ℕ} {frees : List ℕ} {f g : ℕ → ℕ}

theorem Counted.lt_next (h : Counted refCount nextState frees f) (hpos : 0 < f st) : st < nextState := by
  by_contra hge
  rw [h.fresh st (Nat.not_lt.mp hge)] at hpos
  exact lt_irrefl 0 hpos

/-- `pipe_state_acquire`. -/
theorem Counted.acquire (h : Counted refCount nextState frees f) (hpos : 0 < f st) (hg : g st = f st + 1)
    (hother : ∀ st', st' ≠ st → g st' = f st') :
    Counted (Function.update refCount st (refCount st + 1)) nextState frees g := by
  have hlt := h.lt_next hpos
  refine ⟨fun st' => ?_, fun st' => ?_, h.nodup, fun st' hge => ?_⟩
  · by_cases hst : st' = st
    · rw [hst, Function.update_self, hg, h.count]
    · rw [Function.update_of_ne hst, hother st' hst, h.count]
  · by_cases hst : st' = st
    · rw [hst, h.freed, hg]
      exact ⟨fun hin => absurd hin.2 (Nat.pos_iff_ne_zero.mp hpos), fun hin => absurd hin.2 (Nat.succ_ne_zero _)⟩
    · rw [hother st' hst]
      exact h.freed st'
  · rw [hother st' (by omega)]
    exact h.fresh st' hge

/-- `pipe_state_create`. -/
theorem Counted.create (h : Counted refCount nextState frees f) (hg : g nextState = 1)
    (hother : ∀ st, st ≠ nextState → g st = f st) :
    Counted (Function.update refCount nextState 1) (nextState + 1) frees g := by
  refine ⟨fun st => ?_, fun st => ?_, h.nodup, fun st hge => ?_⟩
  · by_cases hst : st = nextState
    · rw [hst, Function.update_self, hg]
    · rw [Function.update_of_ne hst, hother st hst, h.count]
  · by_cases hst : st = nextState
    · rw [hst, h.freed, hg]
      exact ⟨fun hin => absurd hin.1 (lt_irrefl _), fun hin => absurd hin.2 Nat.one_ne_zero⟩
    · rw [hother st hst, h.freed]
      exact and_congr_left fun _ => by omega
  · rw [hother st (by omega)]
    exact h.fresh st (by omega)

/-- `pipe_state_release`. -/
theorem Counted.release [DecidableEq N] {s : State N} (h : Counted s.refCount s.nextState s.frees f)
    (hg : g st + 1 = f st) (hother : ∀ st', st' ≠ st → g st' = f st') :
    ∃ refCount frees, s.release st = some { s with refCount := refCount, frees := frees } ∧
      Counted refCount s.nextState frees g := by
  have hpos : 0 < f st := by omega
  have hcount := h.count st
  have hlt := h.lt_next hpos
  have hnot : st ∉ s.frees := fun hin => absurd ((h.freed st).mp hin).2 (Nat.pos_iff_ne_zero.mp hpos)
  have hdec : ∀ st', Function.update s.refCount st (s.refCount st - 1) st' = g st' := by
    intro st'
    by_cases hst : st' = st
    · rw [hst, Function.update_self]
      omega
    · rw [Function.update_of_ne hst, hother st' hst, h.count]
  have hfresh : ∀ st', s.nextState ≤ st' → g st' = 0 := by
    intro st' hge
    rw [hother st' (by omega)]
    exact h.fresh st' hge
  have hkept : ∀ st', st' ≠ st → (st' ∈ s.frees ↔ st' < s.nextState ∧ g st' = 0) := by
    intro st' hst
    rw [hother st' hst]
    exact h.freed st'
  unfold State.release
  rw [if_pos (by omega)]
  dsimp only
  by_cases hzero : g st = 0
  · rw [if_pos ((hdec st).trans hzero)]
    refine ⟨_, _, rfl, hdec, fun st' => ?_, List.nodup_cons.mpr ⟨hnot, h.nodup⟩, hfresh⟩
    by_cases hst : st' = st
    · rw [hst]
      exact ⟨fun _ => ⟨hlt, hzero⟩, fun _ => List.mem_cons_self⟩
    · rw [List.mem_cons, ← hkept st' hst]
      exact ⟨fun hin => hin.resolve_left hst, Or.inr⟩
  · rw [if_neg (fun heq => hzero ((hdec st).symm.trans heq))]
    refine ⟨_, _, rfl, hdec, fun st' => ?_, h.nodup, hfresh⟩
    by_cases hst : st' = st
    · rw [hst]
      exact ⟨fun hin => absurd hin hnot, fun hin => absurd hin.2 hzero⟩
    · exact hkept st' hst

end Counted

/-! ## Who reclaims, and who makes an inode -/

theorem Sem.finite (h : Sem s) {P : Phase N → Prop} (hP : ¬ P .idle) : {p | P (s.phase p)}.Finite := by
  refine (s.owner.toList ++ s.queue).toFinset.finite_toSet.subset fun p hp => ?_
  have hne : s.phase p ≠ .idle := by
    intro hidle
    have hp' : P (s.phase p) := hp
    rw [hidle] at hp'
    exact hP hp'
  rw [Finset.mem_coe, List.mem_toFinset, List.mem_append, Option.mem_toList]
  exact (h.busy p).mp hne

open Classical in
theorem Sem.occ_setPhase (h : Sem s) {P : Phase N → Prop} (hP : ¬ P .idle) (p : ℕ) (ph : Phase N) :
    occ (s.setPhase p ph).phase P + (if P (s.phase p) then 1 else 0) = occ s.phase P + (if P ph then 1 else 0) :=
  occ_update p ph (h.finite hP)

theorem not_makes_idle (st : ℕ) : ¬ Phase.Makes st (.idle : Phase N) := id

theorem makes_self (name : N) (readonly : Bool) (st : ℕ) (node : Option ℕ) :
    (Phase.makeInode name readonly st node).Makes st := rfl

theorem not_makes {st' : ℕ} (h : st' ≠ st) (name : N) (readonly : Bool) (node : Option ℕ) :
    ¬ (Phase.makeInode name readonly st node).Makes st' := fun heq => h heq.symm

theorem Phase.Makes.making (h : ph.Makes st) : ph.Making := by
  cases ph with
  | makeInode => trivial
  | _ => exact absurd h id

theorem Sem.pending_same (h : Sem s) (hold : ∀ x, s.phase p ≠ .reclaim x .done) (hnew : ∀ x, ph ≠ .reclaim x .done) :
    (s.setPhase p ph).pending = s.pending := by
  funext x
  have hocc := h.occ_setPhase (P := (· = .reclaim x .done)) nofun p ph
  rw [if_neg (hold x), if_neg (hnew x)] at hocc
  exact hocc

theorem Sem.making_same (h : Sem s) (hold : ∀ st, ¬ (s.phase p).Makes st) (hnew : ∀ st, ¬ ph.Makes st) :
    (s.setPhase p ph).making = s.making := by
  funext st
  have hocc := h.occ_setPhase (P := Phase.Makes st) (not_makes_idle st) p ph
  rw [if_neg (hold st), if_neg (hnew st)] at hocc
  exact hocc

/-- A process goes on to reclaim `x`. -/
theorem Sem.pending_enter (h : Sem s) (hold : ∀ x, s.phase p ≠ .reclaim x .done) (x : ℕ) :
    (s.setPhase p (.reclaim x .done)).pending x = s.pending x + 1 ∧
      ∀ y, y ≠ x → (s.setPhase p (.reclaim x .done)).pending y = s.pending y := by
  have hocc := fun y => h.occ_setPhase (P := (· = .reclaim y .done)) nofun p (.reclaim x .done)
  refine ⟨?_, fun y hy => ?_⟩
  · have hx := hocc x
    rw [if_neg (hold x), if_pos rfl] at hx
    exact hx
  · have hy' := hocc y
    rw [if_neg (hold y), if_neg fun heq => hy (Phase.reclaim.inj heq).1.symm] at hy'
    exact hy'

/-- A process has reclaimed `x`. -/
theorem Sem.pending_leave (h : Sem s) (hp : s.phase p = .reclaim x .done) (hnew : ∀ x, ph ≠ .reclaim x .done) :
    (s.setPhase p ph).pending x + 1 = s.pending x ∧ ∀ y, y ≠ x → (s.setPhase p ph).pending y = s.pending y := by
  have hocc := fun y => h.occ_setPhase (P := (· = .reclaim y .done)) nofun p ph
  refine ⟨?_, fun y hy => ?_⟩
  · have hx := hocc x
    rw [if_pos hp, if_neg (hnew x)] at hx
    exact hx
  · have hy' := hocc y
    rw [hp, if_neg (fun heq => hy (Phase.reclaim.inj heq).1.symm), if_neg (hnew y)] at hy'
    exact hy'

/-- A process goes on to make an inode. -/
theorem Sem.making_enter (h : Sem s) (hold : ∀ st, ¬ (s.phase p).Makes st) (name : N) (readonly : Bool) (st : ℕ)
    (node : Option ℕ) :
    (s.setPhase p (.makeInode name readonly st node)).making st = s.making st + 1 ∧
      ∀ st', st' ≠ st → (s.setPhase p (.makeInode name readonly st node)).making st' = s.making st' := by
  have hocc := fun st' => h.occ_setPhase (not_makes_idle st') p (.makeInode name readonly st node)
  refine ⟨?_, fun st' hst => ?_⟩
  · have hst := hocc st
    rw [if_neg (hold st), if_pos (makes_self ..)] at hst
    exact hst
  · have hst' := hocc st'
    rw [if_neg (hold st'), if_neg (not_makes hst _ _ _)] at hst'
    exact hst'

/-- A process has made an inode, or has failed. -/
theorem Sem.making_leave (h : Sem s) {name : N} {readonly : Bool} {node : Option ℕ}
    (hp : s.phase p = .makeInode name readonly st node) (hnew : ∀ st, ¬ ph.Makes st) :
    (s.setPhase p ph).making st + 1 = s.making st ∧
      ∀ st', st' ≠ st → (s.setPhase p ph).making st' = s.making st' := by
  have hocc := fun st' => h.occ_setPhase (not_makes_idle st') p ph
  refine ⟨?_, fun st' hst => ?_⟩
  · have hst := hocc st
    rw [hp, if_pos (makes_self ..), if_neg (hnew st)] at hst
    exact hst
  · have hst' := hocc st'
    rw [hp, if_neg (not_makes hst _ _ _), if_neg (hnew st')] at hst'
    exact hst'

end Ucore.PipeFs
