import Ucore.Proc.TableFork

/-!
# The process table in every run

* `Does` — all that a step can do to the table;
* `Inv.step_spec` — a step does one of these things and keeps the invariant; it fails exactly where
  the source calls `panic`, when `idleproc` or `initproc` exits;
* `process_table` — the table is consistent in every reachable state, and a structure is freed once,
  when nothing refers to it.
-/

namespace Ucore.Process

open Ksem (ProcState WT_INTERRUPTED)
open Chain (Linked)
open Circular (Ring)
open Equiv (swap)

namespace Table

variable {s s' : Table} {kids : ℕ → List ℕ} {σ σ' : Equiv.Perm ℕ} {p q c z : ℕ} {pid : ℤ} {a : Action}

/-- The action is a pass of `do_wait(pid)` by `p`. -/
def Waits (s : Table) (a : Action) (p : ℕ) (pid : ℤ) : Prop :=
  a = .wait p pid ∧ s.pc p = .run ∨ a = .resume p ∧ s.pc p = .wait pid ∧ s.exiting p = false

/-- The action is `__do_exit` by `p`. -/
def ExitsBy (s : Table) (a : Action) (p : ℕ) : Prop :=
  (∃ errorCode, a = .exitThread p errorCode) ∨ a = .mayKilled p ∨ a = .resume p ∧ s.exiting p = true

/-- Nothing is freed, but the structure of a `do_fork` that fails. -/
def Keeps (s : Table) (a : Action) (s' : Table) : Prop :=
  ∀ z, s.live z = true → s'.live z = false → ∃ p, a = .forkFailed p ∧ s.pc p = .fork z

/-- What a step does to the table and to the thread groups. -/
inductive Does (s : Table) (kids : ℕ → List ℕ) (σ : Equiv.Perm ℕ) (a : Action) : Table → Equiv.Perm ℕ → Prop where
  /-- nothing -/
  | same {s' : Table} (h : Same s s') (hkeeps : s.Keeps a s') : Does s kids σ a s' σ
  /-- `p` sleeps in `do_wait(pid)` -/
  | slept (p : ℕ) (pid : ℤ) (hwaits : s.Waits a p pid) (hp : s.Listed p)
      (hsome : ∃ c, s.Candidate σ p pid c) (hnone : ∀ c, s.Candidate σ p pid c → s.state c ≠ .zombie) :
      Does s kids σ a (s.sleepChild p pid) σ
  /-- `do_wait(pid)` of `p` frees `z` -/
  | reaped {s₁ : Table} (p z : ℕ) (pid : ℤ) (hwaits : s.Waits a p pid) (hz : s.Candidate σ p pid z)
      (hzombie : s.state z = .zombie) (hr : Reaped s z s₁) : Does s kids σ a (s₁.setPc p .run) σ
  /-- `p` has a new child `c` -/
  | forked (p c : ℕ) (cloneFlags : UInt32) (last next : ℤ) (ha : a = .forked p cloneFlags)
      (hp : s.Listed p) (hz : s.state p ≠ .zombie) (hf : s.Fresh p c) :
      Does s kids σ a (s.forkedTable p c cloneFlags last next) (forkedGroup σ p c cloneFlags)
  /-- `p` exits -/
  | exited {s' : Table} (p : ℕ) (exitCode : ℕ → ℤ) (ha : s.ExitsBy a p) (hp : p ∈ s.procList)
      (hpi : p ≠ s.initproc) (hrun : s.state p = .runnable)
      (hx : Exits { s with exitCode := exitCode } kids σ p s') :
      Does s kids σ a s' (swap p (σ p) * σ)
  /-- `p` leaves its thread group -/
  | execed (p : ℕ) (ha : a = .execve p) (hp : s.At p .run) :
      Does s kids σ a (s.deThread p) (swap p (σ p) * σ)

/-- `idleproc` or `initproc` exits. -/
def Panics (s : Table) (a : Action) : Prop := ∃ p, s.ExitsBy a p ∧ (p = s.idleproc ∨ p = s.initproc)

theorem Same.initUp (h : Same s s') (hup : s.InitUp) : s'.InitUp := by
  refine ⟨?_, ?_, ?_, ?_⟩
  · rw [h.procList, h.initproc]
    exact hup.mem
  · rw [h.initproc, Ne, h.zombie _ (Or.inr hup.mem)]
    exact hup.up
  · rw [h.initproc, h.idleproc, h.parent _ (Or.inr hup.mem)]
    exact hup.parent
  · rw [h.idleproc, h.parent _ (Or.inl rfl)]
    exact hup.root

theorem Keeps.of_eq (h : s'.live = s.live) : s.Keeps a s' := fun z hz hz' => by
  rw [h, hz] at hz'
  cases hz'

theorem Quiet.keeps (h : Quiet s s') : s.Keeps a s' := Keeps.of_eq (by rw [h.frame])

theorem Inv.setExitCode (hinv : Inv s kids σ) (exitCode : ℕ → ℤ) :
    Inv { s with exitCode := exitCode } kids σ :=
  hinv.touch (fun _ => Iff.rfl) hinv.running.awake hinv.running.waiting (fun _ _ => ⟨rfl, rfl⟩)
    fun _ _ => Iff.rfl

/-- `__do_exit`, by a process other than `idleproc` and `initproc`. -/
theorem Inv.doExit_spec (hinv : Inv s kids σ) (hup : s.InitUp) (exitCode : ℕ → ℤ)
    (ha : s.ExitsBy a p) (hp : s.Listed p) (hrun : s.state p = .runnable)
    (hpc : ∀ c, s.pc p ≠ .fork c) (hpanic : ¬ s.Panics a) :
    ∃ s' kids' σ', { s with exitCode := exitCode }.doExit p = some s' ∧ Inv s' kids' σ' ∧ s'.InitUp ∧
      Does s kids σ a s' σ' := by
  have hidle : p ≠ s.idleproc := fun heq => hpanic ⟨p, ha, Or.inl heq⟩
  have hinit : p ≠ s.initproc := fun heq => hpanic ⟨p, ha, Or.inr heq⟩
  have hmem : p ∈ s.procList := hp.resolve_left hidle
  have hinv₀ := hinv.setExitCode exitCode
  have hup₀ : { s with exitCode := exitCode }.InitUp := ⟨hup.mem, hup.up, hup.parent, hup.root⟩
  obtain ⟨s', hexit, hx⟩ := hinv₀.becomeZombie_runs hup₀ hmem hinit hrun
  refine ⟨s', _, _, ?_, hx.inv hinv₀ hup₀ hmem hinit hpc, ?_, .exited p exitCode ha hmem hinit hrun hx⟩
  · unfold doExit
    rw [if_neg hidle, if_neg hinit]
    exact hexit
  · have hlist : s'.procList = s.procList := by rw [hx.frame]
    have hi : s'.initproc = s.initproc := by rw [hx.frame]
    have hidleEq : s'.idleproc = s.idleproc := by rw [hx.frame]
    refine ⟨by rw [hlist, hi]; exact hup.mem, ?_, ?_, ?_⟩
    · rw [hi, Ne, hx.zombie_iff hinv₀ (Or.inr hup.mem) hinit.symm]
      exact hup.up
    · have hno : s.initproc ∉ kids p := fun hk => by
        have hpar := ((hinv.links.mem p hp _).mp hk).2
        rw [hup.parent] at hpar
        exact hidle (Option.some.inj hpar).symm
      rw [hi, hidleEq, hx.parent, if_neg hno]
      exact hup.parent
    · have hno : s.idleproc ∉ kids p := fun hk => hinv.pids.idle ((hinv.links.mem p hp _).mp hk).1
      rw [hidleEq, hx.parent, if_neg hno]
      exact hup.root

/-- A pass of `do_wait`. -/
theorem Inv.doWait_does (hinv : Inv s kids σ) (hup : s.InitUp) (hwaits : s.Waits a p pid)
    (hp : s.Listed p) (hrun : s.state p = .runnable) :
    ∃ s' kids' σ', s.doWait p pid = some s' ∧ Inv s' kids' σ' ∧ s'.InitUp ∧ Does s kids σ a s' σ' := by
  have hpc : ∀ c, s.pc p ≠ .fork c := by
    intro c
    rcases hwaits with ⟨-, hpc⟩ | ⟨-, hpc, -⟩
    · rw [hpc]
      nofun
    · rw [hpc]
      nofun
  rcases hinv.doWait_spec hup hp pid with ⟨z, s₁, hz, hzombie, hr, hw⟩ | ⟨-, hw⟩ | ⟨hsome, hnone, hw⟩
  · have hinv₁ := hr.inv hinv hz.1 hzombie
    have hpc₁ : ∀ c, s₁.pc p ≠ .fork c := by
      rw [hr.frame]
      exact hpc
    refine ⟨_, _, _, hw, (hinv₁.setPc p .run hpc₁ nofun nofun).1, ?_, .reaped p z pid hwaits hz hzombie hr⟩
    have hne : s.initproc ≠ z := fun heq => hup.2 (heq ▸ hzombie)
    have hup₁ : s₁.InitUp := by
      rw [hr.frame]
      exact ⟨(hinv.pids.nodup.mem_erase_iff).mpr ⟨hne, hup.mem⟩, hup.up, hup.parent, hup.root⟩
    exact ⟨hup₁.mem, hup₁.up, hup₁.parent, hup₁.root⟩
  · obtain ⟨hinv', hquiet⟩ := hinv.setPc p .run hpc nofun nofun
    exact ⟨_, _, _, hw, hinv', hquiet.same.initUp hup, .same hquiet.same hquiet.keeps⟩
  · refine ⟨_, kids, σ, hw, ?_, ?_, .slept p pid hwaits hp hsome hnone⟩
    · refine hinv.sleep hp hrun _ _ (fun c => ⟨nofun, fun hno => absurd hno (hpc c)⟩) fun _ _ => rfl
    · refine ⟨hup.mem, ?_, hup.parent, hup.root⟩
      show Function.update s.state p .sleeping s.initproc ≠ _
      by_cases heq : s.initproc = p
      · rw [heq, Function.update_self]
        nofun
      · rw [Function.update_of_ne heq]
        exact hup.2

/-- `do_execve` that succeeds. -/
theorem Inv.deThread_spec (hinv : Inv s kids σ) (hp : s.Listed p) :
    Inv (s.deThread p) kids (swap p (σ p) * σ) := by
  have hrun := hinv.running
  have hout : ∀ {d}, ¬ s.Listed d → (s.deThread p).nextThread d = s.nextThread d ∧
      (s.deThread p).prevThread d = s.prevThread d := by
    intro d hd
    have hdp : d ≠ p := fun heq => hd (heq ▸ hp)
    have hdn : d ≠ s.nextThread p := by
      rintro rfl
      rw [hinv.ring.next p hp] at hd
      exact hd (hinv.ring.mem_apply hp)
    have hdv : d ≠ s.prevThread p := by
      rintro rfl
      rw [hinv.ring.prev p hp] at hd
      exact hd (hinv.ring.mem_symm hp)
    constructor
    · show Circular.delNext s.nextThread s.prevThread p d = _
      unfold Circular.delNext
      rw [Function.update_of_ne hdp, Function.update_of_ne hdv]
    · show Circular.delPrev s.nextThread s.prevThread p d = _
      unfold Circular.delPrev
      rw [Function.update_of_ne hdp, Function.update_of_ne hdn]
  refine ⟨⟨hinv.pids.idle, hinv.pids.nodup, hinv.pids.range, hinv.pids.inj, hinv.pids.hash,
    hinv.pids.hashNodup, hinv.pids.count, hinv.pids.lastPid, hinv.pids.clear⟩,
    ⟨hinv.links.linked, hinv.links.nodup, hinv.links.mem, hinv.links.parent⟩, hinv.ring.delInit hp,
    ⟨hrun.idle, hrun.parent, fun q hq hz => ?_, hrun.forker, fun q d hq => ?_, hrun.live, hrun.room,
      hrun.awake, hrun.waiting⟩⟩
  · have hfix := hrun.zombie q hq hz
    by_cases hqp : q = p
    · rw [hqp]
      exact Circular.swap_mul_apply_self σ p
    · rw [Circular.swap_mul_apply σ hqp, hfix, if_neg hqp]
  · have hf := hrun.fresh q d hq
    obtain ⟨hnext, hprev⟩ := hout hf.out
    exact ⟨hf.out, hf.parent, hf.state, hf.waitState, hf.cptr, hnext.trans hf.next, hprev.trans hf.prev⟩

/-- **A step** does one of the things of `Does` and keeps the invariant, unless it ends in a `panic`. -/
theorem Inv.step_spec (hinv : Inv s kids σ) (hup : s.InitUp) (henabled : s.Enabled a)
    (hpanic : ¬ s.Panics a) :
    ∃ s' kids' σ', s.step a = some s' ∧ Inv s' kids' σ' ∧ s'.InitUp ∧ Does s kids σ a s' σ' := by
  have hrunPc : ∀ {p c}, s.pc p = .run → s.pc p ≠ .fork c := fun hp hc => by
    rw [hp] at hc
    cases hc
  cases a with
  | fork p c =>
    obtain ⟨hp, hc, hnr⟩ := henabled
    obtain ⟨s', hstep, hinv', hsame, -, hlive⟩ := hinv.forkBegin_spec hp hc hnr
    refine ⟨s', _, _, hstep, hinv', hsame.initUp hup, .same hsame fun z hz hz' => ?_⟩
    rw [hlive] at hz'
    by_cases hzc : z = c
    · rw [hzc, hc] at hz
      cases hz
    · rw [Function.update_of_ne hzc, hz] at hz'
      cases hz'
  | forked p cloneFlags =>
    obtain ⟨c, hpl, hst, hpc⟩ := henabled
    have hf := hinv.running.fresh p c hpc
    obtain ⟨last, next, hstep, -, -, hinv'⟩ := hinv.forkEnd_spec hpc cloneFlags
    refine ⟨_, _, _, ?_, hinv', ?_, .forked p c cloneFlags last next rfl hpl (by rw [hst]; nofun) hf⟩
    · simp only [step, hpc]
      exact hstep
    · have hne : s.initproc ≠ c := fun heq => hf.out (heq ▸ Or.inr hup.1)
      refine ⟨List.mem_cons_of_mem c hup.1, ?_, hup.parent, hup.root⟩
      show Function.update s.state c .runnable s.initproc ≠ _
      rw [Function.update_of_ne hne]
      exact hup.2
  | forkFailed p =>
    obtain ⟨c, -, -, hpc⟩ := henabled
    obtain ⟨s', hstep, hinv', hsame, hlive⟩ := hinv.forkFail_spec hpc
    refine ⟨s', _, _, ?_, hinv', hsame.initUp hup, .same hsame fun z hz hz' => ?_⟩
    · simp only [step, hpc]
      exact hstep
    · by_cases hzc : z = c
      · rw [hzc]
        exact ⟨p, rfl, hpc⟩
      · rw [hlive, Function.update_of_ne hzc, hz] at hz'
        cases hz'
  | exitGroup p errorCode =>
    obtain ⟨hpl, -, hpc⟩ := henabled
    obtain ⟨s', hstep, hinv', hquiet⟩ := hinv.exitGroup_spec hpl (fun c => hrunPc hpc) errorCode
    exact ⟨s', _, _, hstep, hinv', hquiet.same.initUp hup, .same hquiet.same hquiet.keeps⟩
  | exitThread p errorCode =>
    have hat : s.Listed p ∧ s.state p = .runnable ∧ ∀ c, s.pc p ≠ .fork c := by
      rcases henabled with ⟨hpl, hst, hpc⟩ | ⟨hpl, hst, hpc⟩
      · exact ⟨hpl, hst, fun c => hrunPc hpc⟩
      · exact ⟨hpl, hst, fun c => by rw [hpc]; nofun⟩
    exact hinv.doExit_spec hup _ (Or.inl ⟨errorCode, rfl⟩) hat.1 hat.2.1 hat.2.2 hpanic
  | mayKilled p =>
    obtain ⟨⟨hpl, hst, hpc⟩, -⟩ := henabled
    exact hinv.doExit_spec hup s.exitCode (Or.inr (Or.inl rfl)) hpl hst (fun c => hrunPc hpc) hpanic
  | execve p =>
    have hinv' := hinv.deThread_spec henabled.1
    exact ⟨_, _, _, rfl, hinv', ⟨hup.mem, hup.up, hup.parent, hup.root⟩, .execed p rfl henabled⟩
  | kill p pid errorCode =>
    show ∃ s' kids' σ', s.doKill pid errorCode = some s' ∧ _
    unfold doKill
    cases hfind : s.findProc pid with
    | none => exact ⟨s, _, _, rfl, hinv, hup, .same (Quiet.refl s).same (Quiet.refl s).keeps⟩
    | some q =>
      have hq := (hinv.pids.findProc_iff.mp hfind).1
      obtain ⟨s', hstep, hinv', hquiet, -⟩ := hinv.doKillProc_spec (Or.inr hq) errorCode
      exact ⟨s', _, _, hstep, hinv', hquiet.same.initUp hup, .same hquiet.same hquiet.keeps⟩
  | wait p pid =>
    obtain ⟨hpl, hst, hpc⟩ := henabled
    exact hinv.doWait_does hup (Or.inl ⟨rfl, hpc⟩) hpl hst
  | resume p =>
    obtain ⟨pid, hpl, hst, hpc⟩ := henabled
    simp only [step, hpc]
    unfold resumeWait
    by_cases hex : s.exiting p = true
    · simp only [hex, if_true]
      exact hinv.doExit_spec hup s.exitCode (Or.inr (Or.inr ⟨rfl, hex⟩)) hpl hst
        (fun c => by rw [hpc]; nofun) hpanic
    · simp only [hex]
      exact hinv.doWait_does hup (Or.inr ⟨rfl, hpc, by simpa using hex⟩) hpl hst
  | block p waitState =>
    obtain ⟨hpl, hst, hpc, -⟩ := henabled
    obtain ⟨hinv', hquiet⟩ := hinv.block_spec hpl hst hpc waitState
    exact ⟨_, _, _, rfl, hinv', hquiet.same.initUp hup, .same hquiet.same hquiet.keeps⟩
  | wakeup p =>
    obtain ⟨hpl, hst, -⟩ := henabled
    obtain ⟨s', hstep, hinv', hquiet, -⟩ := hinv.wakeup_spec hpl (by rw [hst]; nofun)
    exact ⟨s', _, _, hstep, hinv', hquiet.same.initUp hup, .same hquiet.same hquiet.keeps⟩

/-- A step that ends in a `panic` has no result. -/
theorem Panics.step_eq_none (hpanic : s.Panics a) (henabled : s.Enabled a) : s.step a = none := by
  obtain ⟨p, ha, hp⟩ := hpanic
  have hexit : ∀ exitCode, { s with exitCode := exitCode }.doExit p = none := by
    intro exitCode
    unfold doExit
    rcases hp with heq | heq
    · exact if_pos heq
    · by_cases hidle : p = s.idleproc
      · exact if_pos hidle
      · exact (if_neg hidle).trans (if_pos heq)
  rcases ha with ⟨errorCode, rfl⟩ | rfl | ⟨rfl, hex⟩
  · exact hexit _
  · exact hexit s.exitCode
  · obtain ⟨pid, -, -, hpc⟩ := henabled
    simp only [step, hpc]
    unfold resumeWait
    rw [if_pos hex]
    exact hexit s.exitCode

theorem Inv.step_does (hinv : Inv s kids σ) (hup : s.InitUp) (henabled : s.Enabled a)
    (hstep : s.step a = some s') : ∃ kids' σ', Inv s' kids' σ' ∧ s'.InitUp ∧ Does s kids σ a s' σ' := by
  have hpanic : ¬ s.Panics a := fun hpanic => by
    rw [hpanic.step_eq_none henabled] at hstep
    cases hstep
  obtain ⟨t, kids', σ', hstep', hinv', hup', hdoes⟩ := hinv.step_spec hup henabled hpanic
  rw [hstep] at hstep'
  cases hstep'
  exact ⟨kids', σ', hinv', hup', hdoes⟩

/-! ## `proc_init` -/

theorem idleInit_inv (s : Table) (idle : ℕ) : Inv (s.idleInit idle) (fun _ => []) 1 := by
  have hlisted : ∀ q, (s.idleInit idle).Listed q → q = idle := fun q hq =>
    hq.resolve_right List.not_mem_nil
  have hcptr : (s.idleInit idle).cptr idle = none := by simp [idleInit, allocProc]
  have hstate : (s.idleInit idle).state idle = .runnable := by simp [idleInit, allocProc]
  have hwait : (s.idleInit idle).waitState idle = 0 := by simp [idleInit, allocProc]
  have hnext : (s.idleInit idle).nextThread idle = idle := by simp [idleInit, allocProc]
  have hprev : (s.idleInit idle).prevThread idle = idle := by simp [idleInit, allocProc]
  have hlive : ∀ q, (s.idleInit idle).live q = true ↔ q = idle := by
    intro q
    by_cases hq : q = idle <;> simp [idleInit, allocProc, hq]
  have hpc : ∀ q, (s.idleInit idle).pc q = .run := fun _ => rfl
  refine ⟨⟨List.not_mem_nil, List.nodup_nil, nofun, nofun, fun b p => ⟨nofun, nofun⟩,
    fun _ => List.nodup_nil, rfl, by show (1 : ℤ) ≤ 8192; decide, nofun⟩,
    ⟨fun q hq => ?_, fun _ _ => List.nodup_nil, fun q _ c => ⟨nofun, nofun⟩, nofun⟩,
    ⟨fun q hq => ?_, fun q hq => ?_, fun _ _ => rfl⟩,
    ⟨?_, nofun, fun _ _ _ => rfl, fun q c hq => ?_, fun q c hq => ?_, fun q => ?_, ?_,
      fun q hq _ => ?_, fun q n _ hq => ?_⟩⟩
  · rw [hlisted q hq]
    exact hcptr
  · rw [hlisted q hq]
    exact hnext
  · rw [hlisted q hq]
    exact hprev
  · show (s.idleInit idle).state idle ≠ _
    rw [hstate]
    nofun
  · rw [hpc] at hq
    cases hq
  · rw [hpc] at hq
    cases hq
  · rw [hlive]
    constructor
    · rintro rfl
      exact Or.inl (Or.inl rfl)
    · rintro (hq | ⟨r, hr⟩)
      · exact hlisted q hq
      · rw [hpc] at hr
        cases hr
  · show 1 + ([idle] : List ℕ).countP (fun _ => false) ≤ 8190
    simp
  · rw [hlisted q hq]
    exact hwait
  · rw [hpc] at hq
    cases hq

/-- **`proc_init`**. -/
theorem procInit_inv {s₀ : Table} {idle init : ℕ} (hne : idle ≠ init)
    (hinit : s₀.procInit idle init = some s) :
    ∃ kids σ, Inv s kids σ ∧ s.InitUp ∧ s.procList = [s.initproc] ∧ ∀ q pid, ¬ s.Sleeps q pid := by
  have hinv₀ := idleInit_inv s₀ idle
  have hat : (s₀.idleInit idle).At idle .run :=
    ⟨Or.inl rfl, by simp [idleInit, allocProc], rfl⟩
  have hlive : (s₀.idleInit idle).live init = false := by
    simp [idleInit, allocProc, Ne.symm hne]
  obtain ⟨s₁, hbegin, hinv₁, hsame, hpc, -⟩ := hinv₀.forkBegin_spec hat hlive
    (by show 1 < 4096; decide)
  obtain ⟨last, next, hend, -, -, hinv₂⟩ := hinv₁.forkEnd_spec hpc 0
  have hf := hinv₁.running.fresh idle init hpc
  simp only [procInit, Option.bind_eq_bind, Option.bind_eq_some_iff] at hinit
  obtain ⟨t₁, ht₁, t₂, ht₂, i, hfind, hs⟩ := hinit
  rw [hbegin] at ht₁
  obtain rfl := Option.some.inj ht₁
  rw [hend] at ht₂
  obtain rfl := Option.some.inj ht₂
  obtain rfl := Option.some.inj hs
  have hlist : (s₁.forkedTable idle init 0 last next).procList = [init] := by
    show init :: s₁.procList = [init]
    rw [hsame.procList]
    rfl
  have hi := (hinv₂.pids.findProc_iff.mp hfind).1
  rw [hlist] at hi
  obtain rfl := List.mem_singleton.mp hi
  have hidle : s₁.idleproc = idle := hsame.idleproc
  have hstate : Function.update s₁.state i .runnable i = .runnable := Function.update_self ..
  refine ⟨kidsForked (fun _ => []) idle i, forkedGroup 1 idle i 0,
    ⟨⟨hinv₂.pids.idle, hinv₂.pids.nodup, hinv₂.pids.range, hinv₂.pids.inj, hinv₂.pids.hash,
      hinv₂.pids.hashNodup, hinv₂.pids.count, hinv₂.pids.lastPid, hinv₂.pids.clear⟩,
      ⟨hinv₂.links.linked, hinv₂.links.nodup, hinv₂.links.mem, hinv₂.links.parent⟩, hinv₂.ring,
      ⟨hinv₂.running.idle, hinv₂.running.parent, hinv₂.running.zombie, hinv₂.running.forker,
        fun p c hp => ?_, hinv₂.running.live, hinv₂.running.room, hinv₂.running.awake,
        hinv₂.running.waiting⟩⟩, ⟨?_, ?_, ?_, ?_⟩, hlist,
      fun q pid hq => ?_⟩
  · have hfresh := hinv₂.running.fresh p c hp
    exact ⟨hfresh.out, hfresh.parent, hfresh.state, hfresh.waitState, hfresh.cptr, hfresh.next,
      hfresh.prev⟩
  · show i ∈ (s₁.forkedTable idle i 0 last next).procList
    rw [hlist]
    exact List.mem_singleton_self i
  · show Function.update s₁.state i .runnable i ≠ _
    rw [hstate]
    nofun
  · show s₁.parent i = some s₁.idleproc
    rw [hidle]
    exact hf.parent
  · show s₁.parent s₁.idleproc = none
    rw [hidle, hsame.parent idle (Or.inl rfl)]
    simp [idleInit, allocProc]
  · have hq : (s₁.forkedTable idle i 0 last next).Sleeps q pid := hq
    obtain ⟨-, -, hpcq⟩ := hsame.sleeps q pid (forkedTable_sleeps hq).2
    have hpcq : Pc.run = .wait pid := hpcq
    cases hpcq

/-- No list, hash list, thread group or parent field refers to `z`. -/
structure Unreferenced (s : Table) (z : ℕ) : Prop where
  procList : z ∉ s.procList
  hashList : ∀ b, z ∉ s.hashList b
  parent : ∀ q, s.live q = true → s.parent q ≠ some z
  cptr : ∀ q, s.live q = true → s.cptr q ≠ some z
  siblings : ∀ q ∈ s.procList, s.optr q ≠ some z ∧ s.yptr q ≠ some z
  threads : ∀ q, s.live q = true → s.nextThread q ≠ z ∧ s.prevThread q ≠ z

/-- What is not allocated is not referred to. -/
theorem Inv.unreferenced (hinv : Inv s kids σ) (hup : s.InitUp) (hz : s.live z = false) :
    s.Unreferenced z := by
  have hout : ¬ s.Listed z := (hinv.notLive hz).1
  have hlive : ∀ {q}, s.live q = true → s.Listed q ∨ ∃ p, s.Listed p ∧ s.Fresh p q := by
    intro q hq
    rcases (hinv.running.live q).mp hq with hl | ⟨p, hp⟩
    · exact Or.inl hl
    · exact Or.inr ⟨p, (hinv.running.forker p q hp).1, hinv.running.fresh p q hp⟩
  have hself : ∀ {q}, s.live q = true → q ≠ z := fun hq heq => by
    rw [heq, hz] at hq
    cases hq
  refine ⟨fun hmem => hout (Or.inr hmem), fun b hmem => hout (Or.inr ((hinv.pids.hash b z).mp hmem).1),
    fun q hq heq => ?_, fun q hq heq => ?_, fun q hq => ?_, fun q hq => ?_⟩
  · rcases hlive hq with (rfl | hl) | ⟨p, hp, hf⟩
    · rw [hup.root] at heq
      cases heq
    · obtain ⟨p, hqp, hp⟩ := hinv.links.parent q hl
      rw [heq] at hqp
      cases hqp
      exact hout hp
    · rw [hf.parent] at heq
      cases heq
      exact hout hp
  · rcases hlive hq with hl | ⟨p, hp, hf⟩
    · rw [(hinv.links.linked q hl).head_eq] at heq
      exact hout (Or.inr ((hinv.links.mem q hl z).mp (List.mem_of_mem_head? heq)).1)
    · rw [hf.cptr] at heq
      cases heq
  · obtain ⟨p, hqp, hp⟩ := hinv.links.parent q hq
    have hqk := (hinv.links.mem p hp q).mpr ⟨hq, hqp⟩
    have hlinked := hinv.links.linked p hp
    constructor
    · intro heq
      exact hout (Or.inr ((hinv.links.mem p hp z).mp (hlinked.next_mem hqk heq)).1)
    · intro heq
      have hzk := (hlinked.prev_mem hqk heq).resolve_left nofun
      exact hout (Or.inr ((hinv.links.mem p hp z).mp hzk).1)
  · rcases hlive hq with hl | ⟨p, hp, hf⟩
    · rw [hinv.ring.next q hl, hinv.ring.prev q hl]
      exact ⟨fun heq => hout (heq ▸ hinv.ring.mem_apply hl),
        fun heq => hout (heq ▸ hinv.ring.mem_symm hl)⟩
    · rw [hf.next, hf.prev]
      exact ⟨hself hq, hself hq⟩

/-- A step of `a` freed `z`: a `do_wait` that found it a zombie, or the `do_fork` that had made it. -/
def FreedBy (s : Table) (a : Action) (z : ℕ) : Prop :=
  (∃ p pid, s.Waits a p pid ∧ z ∈ s.procList ∧ s.state z = .zombie) ∨
    ∃ p, a = .forkFailed p ∧ s.pc p = .fork z

theorem Does.freedBy (hdoes : Does s kids σ a s' σ') (hz : s.live z = true) (hz' : s'.live z = false) :
    s.FreedBy a z := by
  have hkept : s'.live = s.live → s.FreedBy a z := fun heq => by
    rw [heq, hz] at hz'
    cases hz'
  cases hdoes with
  | same _ hkeeps => exact Or.inr (hkeeps z hz hz')
  | slept => exact hkept rfl
  | reaped p z₁ pid hwaits hz₁ hzombie hr =>
    left
    have hlive : Function.update s.live z₁ false z = false := by
      have hz' : Table.live _ z = false := hz'
      rw [hr.frame] at hz'
      exact hz'
    by_cases heq : z = z₁
    · rw [heq]
      exact ⟨p, pid, hwaits, hz₁.1, hzombie⟩
    · rw [Function.update_of_ne heq, hz] at hlive
      cases hlive
  | forked => exact hkept rfl
  | exited p exitCode _ _ _ _ hx => exact hkept (by rw [hx.frame])
  | execed => exact hkept rfl

end Table

open Table

/-- The table is reached from boot. -/
abbrev Reachable (s : Table) : Prop := Reaches (fun _ _ => True) s

theorem Reaches.inv {C : Table → Action → Prop} {s : Table} (h : Reaches C s) :
    ∃ kids σ, Inv s kids σ ∧ s.InitUp := by
  induction h with
  | boot idle init hne hinit =>
    obtain ⟨kids, σ, hinv, hup, -⟩ := procInit_inv hne hinit
    exact ⟨kids, σ, hinv, hup⟩
  | step a _ henabled _ hstep ih =>
    obtain ⟨kids, σ, hinv, hup⟩ := ih
    obtain ⟨kids', σ', hinv', hup', -⟩ := hinv.step_does hup henabled hstep
    exact ⟨kids', σ', hinv', hup'⟩

/-- The process table of a state, and what frees a `proc_struct`. -/
structure Consistent (s : Table) : Prop where
  pids : ∀ p ∈ s.procList, 1 ≤ s.pid p ∧ s.pid p < MAX_PID
  distinct : s.procList.Nodup ∧ ∀ p ∈ s.procList, ∀ q ∈ s.procList, s.pid p = s.pid q → p = q
  hash : ∀ b, (s.hashList b).Nodup ∧
    ∀ p, p ∈ s.hashList b ↔ p ∈ s.procList ∧ pidHashfn (s.pid p) = b
  find : ∀ pid p, s.findProc pid = some p ↔ p ∈ s.procList ∧ s.pid p = pid
  count : s.nrProcess = s.procList.length + 1
  /-- following `optr` from `cptr` visits the children, once each -/
  children : ∀ p, s.Listed p → ∃ l, s.children p = some l ∧ l.Nodup ∧
    (∀ c, c ∈ l ↔ c ∈ s.procList ∧ s.parent c = some p) ∧
    (∀ c, s.cptr p = some c → s.yptr c = none) ∧
    ∀ a ∈ l, ∀ b ∈ l, s.optr a = some b ↔ s.yptr b = some a
  /-- no step frees a structure twice, or ends otherwise than by a `panic` of the source -/
  runs : ∀ a, s.Enabled a → (s.step a = none ↔ s.Panics a)
  freed : ∀ a s' z, s.Enabled a → s.step a = some s' → s.live z = true → s'.live z = false →
    s.FreedBy a z ∧ s'.Unreferenced z

/-- **The process table** in every state that is reached. -/
theorem process_table {s : Table} (h : Reachable s) : Consistent s := by
  obtain ⟨kids, σ, hinv, hup⟩ := h.inv
  have hpids := hinv.pids
  refine ⟨hpids.range, ⟨hpids.nodup, hpids.inj⟩, fun b => ⟨hpids.hashNodup b, hpids.hash b⟩,
    fun pid p => hpids.findProc_iff, hpids.count, fun p hp => ?_, fun a henabled => ?_,
    fun a s' z henabled hstep hz hz' => ?_⟩
  · have hlinked := hinv.links.linked p hp
    refine ⟨kids p, hinv.links.children_eq hp, hinv.links.nodup p hp, hinv.links.mem p hp, fun c hc => ?_,
      fun a ha b hb => hlinked.inverse (hinv.links.nodup p hp) ha hb nofun⟩
    cases hkids : kids p with
    | nil =>
      rw [hkids] at hlinked
      have hnone : s.cptr p = none := hlinked
      rw [hnone] at hc
      cases hc
    | cons d l =>
      rw [hkids] at hlinked
      obtain ⟨hd, hyd, -⟩ := hlinked
      rw [hd] at hc
      cases hc
      exact hyd
  · constructor
    · intro hnone
      by_contra hpanic
      obtain ⟨s', -, -, hstep, -⟩ := hinv.step_spec hup henabled hpanic
      rw [hnone] at hstep
      cases hstep
    · exact fun hpanic => hpanic.step_eq_none henabled
  · obtain ⟨kids', σ', hinv', hup', hdoes⟩ := hinv.step_does hup henabled hstep
    exact ⟨hdoes.freedBy hz hz', hinv'.unreferenced hup' hz'⟩

/-- Memory before `proc_init`. -/
def blank : Table where
  live _ := false
  state _ := .uninit
  pid _ := 0
  parent _ := none
  exiting _ := false
  exitCode _ := 0
  waitState _ := 0
  cptr _ := none
  yptr _ := none
  optr _ := none
  nextThread _ := 0
  prevThread _ := 0
  procList := []
  hashList _ := []
  nrProcess := 0
  nextSafe := 0
  lastPid := 0
  idleproc := 0
  initproc := 0
  pc _ := .run

/-- `initproc` forks, and its child is a thread. -/
theorem process_table_thread : ∃ s, Reachable s ∧ s.procList = [2, 1] ∧ s.nextThread 1 = 2 ∧
    Consistent s := by
  have h₀ : Reachable _ := .boot (m := blank) 0 1 (by decide) rfl
  have h₁ := h₀.step (.fork 1 2) ⟨⟨Or.inr (by decide), rfl, rfl⟩, rfl, by decide⟩ trivial rfl
  have h₂ := h₁.step (.forked 1 CLONE_THREAD) ⟨2, Or.inr (by decide), rfl, rfl⟩ trivial rfl
  exact ⟨_, h₂, rfl, rfl, process_table h₂⟩

/-- A structure that is freed need not be a zombie: a `do_fork` that fails frees the one that it has
made. -/
theorem fork_failed_frees : ¬ ∀ (s s' : Table) (a : Action) (z : ℕ), Reachable s → s.Enabled a →
    s.step a = some s' → s.live z = true → s'.live z = false → s.state z = .zombie := by
  intro h
  have h₀ : Reachable _ := .boot (m := blank) 0 1 (by decide) rfl
  have h₁ := h₀.step (.fork 1 2) ⟨⟨Or.inr (by decide), rfl, rfl⟩, rfl, by decide⟩ trivial rfl
  have hzombie := h _ _ (.forkFailed 1) 2 h₁ ⟨2, Or.inr (by decide), rfl, rfl⟩ rfl rfl rfl
  cases hzombie

end Ucore.Process
