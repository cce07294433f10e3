import Ucore.Proc.Pid

/-!
# The invariant of the process table

In four parts, by the fields that they read: the pids and the hash lists (`Pids`), the links between
parents and children (`Links`), the thread groups (`Circular.Ring`), and what the processes are doing
(`Running`).  The list of the children of each process and the permutation of the thread groups are
parameters.

* `Inv.threads_spec`, `Inv.candidates_spec`, `Inv.findProc_iff` — what the loops over these
  structures visit;
* `Inv.touch` — steps that leave lists and links alone.
-/

namespace Ucore.Process

open Ksem (ProcState WT_INTERRUPTED)
open Chain (Linked)
open Circular (Ring)
open Equiv (swap)

/-- In `do_fork`. -/
def Pc.forking : Pc → Bool
  | .fork _ => true
  | _ => false

theorem Pc.forking_iff {pc : Pc} : pc.forking = true ↔ ∃ c, pc = .fork c := by
  cases pc <;> simp [forking]

namespace Table

/-- The pids, `proc_list` and the hash lists. -/
structure Pids (s : Table) : Prop where
  idle : s.idleproc ∉ s.procList
  nodup : s.procList.Nodup
  range : ∀ p ∈ s.procList, 1 ≤ s.pid p ∧ s.pid p < MAX_PID
  inj : ∀ p ∈ s.procList, ∀ q ∈ s.procList, s.pid p = s.pid q → p = q
  hash : ∀ b p, p ∈ s.hashList b ↔ p ∈ s.procList ∧ pidHashfn (s.pid p) = b
  hashNodup : ∀ b, (s.hashList b).Nodup
  count : s.nrProcess = s.procList.length + 1
  lastPid : 1 ≤ s.lastPid
  clear : Clear (s.procList.map s.pid) (s.lastPid + 1) s.nextSafe

/-- The children of `p` are `kids p`, youngest first. -/
structure Links (s : Table) (kids : ℕ → List ℕ) : Prop where
  linked : ∀ p, s.Listed p → Linked s.optr s.yptr none (s.cptr p) (kids p)
  nodup : ∀ p, s.Listed p → (kids p).Nodup
  mem : ∀ p, s.Listed p → ∀ c, c ∈ kids p ↔ c ∈ s.procList ∧ s.parent c = some p
  parent : ∀ c ∈ s.procList, ∃ p, s.parent c = some p ∧ s.Listed p

/-- `c` is the structure that the `do_fork` of `p` has made. -/
structure Fresh (s : Table) (p c : ℕ) : Prop where
  out : ¬ s.Listed c
  parent : s.parent c = some p
  state : s.state c = .uninit
  waitState : s.waitState c = 0
  cptr : s.cptr c = none
  next : s.nextThread c = c
  prev : s.prevThread c = c

/-- `p` is in `do_fork`. -/
def forking (s : Table) (p : ℕ) : Bool := (s.pc p).forking

/-- What the processes are doing. -/
structure Running (s : Table) (σ : Equiv.Perm ℕ) : Prop where
  idle : s.state s.idleproc ≠ .zombie
  parent : ∀ c ∈ s.procList, ∀ p, s.parent c = some p → s.state p ≠ .zombie
  zombie : ∀ p, s.Listed p → s.state p = .zombie → σ p = p
  forker : ∀ p c, s.pc p = .fork c → s.Listed p ∧ s.state p ≠ .zombie
  fresh : ∀ p c, s.pc p = .fork c → s.Fresh p c
  live : ∀ p, s.live p = true ↔ s.Listed p ∨ ∃ q, s.pc q = .fork p
  room : s.nrProcess + (s.idleproc :: s.procList).countP s.forking ≤ 8190
  awake : ∀ p, s.Listed p → s.state p ≠ .sleeping → s.waitState p = 0
  waiting : ∀ p pid, s.Listed p → s.pc p = .wait pid → s.state p = .sleeping →
    s.waitState p = WT_CHILD

structure Inv (s : Table) (kids : ℕ → List ℕ) (σ : Equiv.Perm ℕ) : Prop where
  pids : Pids s
  links : Links s kids
  ring : Ring s.Listed s.nextThread s.prevThread σ
  running : Running s σ

/-- `idleproc` and its child `initproc` are there, from the end of `proc_init` on. -/
structure InitUp (s : Table) : Prop where
  mem : s.initproc ∈ s.procList
  up : s.state s.initproc ≠ .zombie
  parent : s.parent s.initproc = some s.idleproc
  root : s.parent s.idleproc = none

variable {s s' : Table} {kids : ℕ → List ℕ} {σ : Equiv.Perm ℕ} {p q c h : ℕ} {pid : ℤ}

/-! ## The loops over lists and groups -/

theorem wt_child_ne : WT_CHILD ≠ 0 := by decide

theorem Inv.mem_group (hinv : Inv s kids σ) (hp : s.Listed p) (hpq : σ.SameCycle p q) : s.Listed q :=
  hinv.ring.mem_sameCycle hp hpq

/-- **The thread group of `p`**. -/
theorem Inv.threads_spec (hinv : Inv s kids σ) (hp : s.Listed p) :
    ∃ ts, s.threads p = some (p :: ts) ∧ (p :: ts).Nodup ∧ ∀ a, a ∈ p :: ts ↔ σ.SameCycle p a := by
  refine hinv.ring.walk_spec hp (l := s.idleproc :: s.procList) ?_ (le_refl _)
  rintro a (rfl | ha)
  · exact List.mem_cons_self
  · exact List.mem_cons_of_mem _ ha

theorem Links.length_le (hlinks : Links s kids) (hp : s.Listed p) :
    (kids p).length ≤ s.procList.length :=
  ((hlinks.nodup p hp).subperm fun c hc => ((hlinks.mem p hp c).mp hc).1).length_le

theorem Links.children_eq (hlinks : Links s kids) (hp : s.Listed p) : s.children p = some (kids p) :=
  (hlinks.linked p hp).follow_eq (hlinks.length_le hp)

theorem Links.childrenOf_eq (hlinks : Links s kids) {ps : List ℕ} (hps : ∀ p ∈ ps, s.Listed p) :
    s.childrenOf ps = some (ps.flatMap kids) := by
  induction ps with
  | nil => rfl
  | cons p ps ih =>
    have hrest := ih fun q hq => hps q (List.mem_cons_of_mem p hq)
    have hp := hlinks.children_eq (hps p List.mem_cons_self)
    simp [childrenOf, hp, hrest]

/-- **`find_proc`**. -/
theorem Pids.findProc_iff (h : Pids s) : s.findProc pid = some p ↔ p ∈ s.procList ∧ s.pid p = pid := by
  unfold findProc
  constructor
  · intro hfind
    split at hfind
    · have hmem := List.mem_of_find?_eq_some hfind
      have hpid := List.find?_some hfind
      exact ⟨((h.hash _ p).mp hmem).1, of_decide_eq_true hpid⟩
    · cases hfind
  · rintro ⟨hp, rfl⟩
    obtain ⟨hpos, hlt⟩ := h.range p hp
    rw [if_pos ⟨by omega, hlt⟩]
    have hmem : p ∈ s.hashList (pidHashfn (s.pid p)) := (h.hash _ p).mpr ⟨hp, rfl⟩
    cases hfind : (s.hashList (pidHashfn (s.pid p))).find? fun q => decide (s.pid q = s.pid p) with
    | none =>
      have hno := List.find?_eq_none.mp hfind p hmem
      simp at hno
    | some q =>
      have hq := ((h.hash _ q).mp (List.mem_of_find?_eq_some hfind)).1
      have hpid := List.find?_some hfind
      rw [h.inj q hq p hp (of_decide_eq_true hpid)]

/-- `c` is a child of the group of `p` that `do_wait(pid)` waits for. -/
def Candidate (s : Table) (σ : Equiv.Perm ℕ) (p : ℕ) (pid : ℤ) (c : ℕ) : Prop :=
  c ∈ s.procList ∧ (pid = 0 ∨ s.pid c = pid) ∧ ∃ t, σ.SameCycle p t ∧ s.parent c = some t

/-- **The children that `do_wait(pid)` looks at**. -/
theorem Inv.candidates_spec (hinv : Inv s kids σ) (hp : s.Listed p) (pid : ℤ) :
    ∃ l, s.candidates p pid = some l ∧ ∀ c, c ∈ l ↔ s.Candidate σ p pid c := by
  obtain ⟨ts, hts, -, hmem⟩ := hinv.threads_spec hp
  unfold candidates
  by_cases hpid : pid = 0
  · subst hpid
    have hlisted : ∀ t ∈ p :: ts, s.Listed t := fun t ht => hinv.mem_group hp ((hmem t).mp ht)
    rw [if_neg (not_not.mpr rfl), hts]
    refine ⟨_, hinv.links.childrenOf_eq hlisted, fun c => ?_⟩
    rw [List.mem_flatMap]
    constructor
    · rintro ⟨t, ht, hc⟩
      obtain ⟨hmemc, hparent⟩ := (hinv.links.mem t (hlisted t ht) c).mp hc
      exact ⟨hmemc, Or.inl rfl, t, (hmem t).mp ht, hparent⟩
    · rintro ⟨hmemc, -, t, ht, hparent⟩
      have ht := (hmem t).mpr ht
      exact ⟨t, ht, (hinv.links.mem t (hlisted t ht) c).mpr ⟨hmemc, hparent⟩⟩
  rw [if_pos hpid]
  cases hfind : s.findProc pid with
  | none =>
    refine ⟨[], rfl, fun c => ⟨nofun, ?_⟩⟩
    rintro ⟨hc, hcp, -⟩
    have hsome := hinv.pids.findProc_iff.mpr ⟨hc, hcp.resolve_left hpid⟩
    rw [hfind] at hsome
    cases hsome
  | some q =>
    obtain ⟨hq, hqp⟩ := hinv.pids.findProc_iff.mp hfind
    rw [hts]
    refine ⟨_, rfl, fun c => ?_⟩
    constructor
    · intro hc
      split at hc
      · rename_i hex
        obtain ⟨t, ht, hparent⟩ := hex
        cases List.mem_singleton.mp hc
        exact ⟨hq, Or.inr hqp, t, (hmem t).mp ht, hparent⟩
      · cases hc
    · rintro ⟨hc, hcp, t, ht, hparent⟩
      have heq : c = q := hinv.pids.inj c hc q hq ((hcp.resolve_left hpid).trans hqp.symm)
      subst heq
      rw [if_pos ⟨t, (hmem t).mpr ht, hparent⟩]
      exact List.mem_cons_self

/-! ## Steps that leave lists and links alone -/

/-- Only the states, and where the processes are, change; nobody becomes a zombie. -/
theorem Inv.touch (hinv : Inv s kids σ) {state : ℕ → ProcState} {waitState : ℕ → UInt32}
    {exiting : ℕ → Bool} {exitCode : ℕ → ℤ} {pc : ℕ → Pc}
    (hstate : ∀ p, state p = .zombie ↔ s.state p = .zombie)
    (hawake : ∀ p, s.Listed p → state p ≠ .sleeping → waitState p = 0)
    (hwaiting : ∀ p pid, s.Listed p → pc p = .wait pid → state p = .sleeping →
      waitState p = WT_CHILD)
    (hout : ∀ p, ¬ s.Listed p → state p = s.state p ∧ waitState p = s.waitState p)
    (hpc : ∀ p c, pc p = .fork c ↔ s.pc p = .fork c) :
    Inv
      { s with
        state := state
        waitState := waitState
        exiting := exiting
        exitCode := exitCode
        pc := pc } kids σ := by
  have hzombie : ∀ p, s.state p ≠ .zombie → state p ≠ .zombie := fun p hp hno => hp ((hstate p).mp hno)
  refine ⟨⟨hinv.pids.idle, hinv.pids.nodup, hinv.pids.range, hinv.pids.inj, hinv.pids.hash,
    hinv.pids.hashNodup, hinv.pids.count, hinv.pids.lastPid, hinv.pids.clear⟩,
    ⟨hinv.links.linked, hinv.links.nodup, hinv.links.mem, hinv.links.parent⟩, hinv.ring, ?_⟩
  have hrun := hinv.running
  refine ⟨hzombie _ hrun.idle, fun c hc p hp => hzombie p (hrun.parent c hc p hp),
    fun p hp hz => hrun.zombie p hp ((hstate p).mp hz),
    fun p c hp => ?_, fun p c hp => ?_, fun p => ?_, ?_, hawake, hwaiting⟩
  · obtain ⟨hl, hz⟩ := hrun.forker p c ((hpc p c).mp hp)
    exact ⟨hl, hzombie p hz⟩
  · have hf := hrun.fresh p c ((hpc p c).mp hp)
    obtain ⟨hst, hws⟩ := hout c hf.out
    exact ⟨hf.out, hf.parent, hst.trans hf.state, hws.trans hf.waitState, hf.cptr, hf.next, hf.prev⟩
  · simp only [hpc]
    exact hrun.live p
  · have hsame : (fun p => (pc p).forking) = s.forking := by
      funext p
      unfold forking
      rw [Bool.eq_iff_iff, Pc.forking_iff, Pc.forking_iff]
      simp only [hpc]
    show s.nrProcess + (s.idleproc :: s.procList).countP (fun p => (pc p).forking) ≤ 8190
    rw [hsame]
    exact hrun.room

end Table

end Ucore.Process
