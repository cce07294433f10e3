import Ucore.Proc.TableRun

/-!
# Processes that sleep in `do_wait`

A process that sleeps in `do_wait` is woken by the exit of a child of its group.  That fails where the
only child is the caller itself, where the thread that has the child leaves the group by `do_execve`,
and where a zombie comes to `initproc` while another thread of its group waits for it.

* `Awaited` — what a sleeper relies on;
* `Does.awaited` — one step;
* `wait_not_in_vain` — every run without the three kinds of steps.
-/

namespace Ucore.Process

open Circular (Ring)
open Equiv (swap)

namespace Table

variable {s s' : Table} {kids : ℕ → List ℕ} {σ σ' : Equiv.Perm ℕ} {p q c w : ℕ} {pid : ℤ} {a : Action}

/-- `q` is in the thread group of `p`. -/
def InGroup (s : Table) (p q : ℕ) : Prop := ∃ ts, s.threads p = some ts ∧ q ∈ ts

/-- `c` is a child, of a thread of the group of `w`, that `do_wait(pid)` is about. -/
def WaitsFor (s : Table) (w : ℕ) (pid : ℤ) (c : ℕ) : Prop :=
  c ∈ s.procList ∧ (pid = 0 ∨ s.pid c = pid) ∧ ∃ t, s.InGroup w t ∧ s.parent c = some t

/-- When `c` runs and exits, `w` is woken. -/
def ExitWakes (s : Table) (c w : ℕ) : Prop :=
  ∃ s₁ s', s.wakeupProc c = some s₁ ∧ s₁.doExit c = some s' ∧ s'.state w = .runnable

/-- The steps that leave no process waiting in vain: a `do_wait` goes to sleep for a child other than
the caller (and `initproc`, which does not exit); a thread that leaves its group by `do_execve` leaves
a child of another thread to each one that waits; and when a process that is alone in its group exits,
no thread of the group of `initproc` but `initproc`, and those that the exit wakes anyway, waits for a
zombie that it hands over. -/
structure WaitStep (s : Table) (a : Action) : Prop where
  wait : ∀ p pid, s.Waits a p pid → (∃ c, s.WaitsFor p pid c) →
    (∀ c, s.WaitsFor p pid c → s.state c ≠ .zombie) →
    ∃ c, s.WaitsFor p pid c ∧ c ≠ p ∧ c ≠ s.initproc
  execve : ∀ p, a = .execve p → ∀ w pid, s.Sleeps w pid → s.InGroup p w →
    ∃ c, s.WaitsFor w pid c ∧ c ≠ w ∧ c ≠ s.initproc ∧ s.parent c ≠ some p
  exit : ∀ p, s.ExitsBy a p → s.nextThread p = p → ∀ w pid, s.Sleeps w pid → w ≠ s.initproc →
    s.InGroup s.initproc w → (∀ t, s.parent p = some t → ¬ s.InGroup t w) →
    ∀ c ∈ s.procList, s.parent c = some p → c = p ∨ s.state c = .zombie → pid ≠ 0 ∧ s.pid c ≠ pid

theorem Inv.inGroup_iff (hinv : Inv s kids σ) (hp : s.Listed p) : s.InGroup p q ↔ σ.SameCycle p q := by
  obtain ⟨ts, hts, -, hmem⟩ := hinv.threads_spec hp
  constructor
  · rintro ⟨ts', hts', hq⟩
    rw [hts] at hts'
    obtain rfl := Option.some.inj hts'
    exact (hmem q).mp hq
  · exact fun hq => ⟨_, hts, (hmem q).mpr hq⟩

theorem Inv.waitsFor_iff (hinv : Inv s kids σ) (hw : s.Listed w) :
    s.WaitsFor w pid c ↔ s.Candidate σ w pid c := by
  unfold WaitsFor Candidate
  simp only [hinv.inGroup_iff hw]

/-- What each sleeper in `do_wait` relies on: no child is a zombie, and there is one that can wake
it. -/
structure Awaited (s : Table) (σ : Equiv.Perm ℕ) : Prop where
  alive : ∀ w pid, s.Sleeps w pid → ∀ c, s.Candidate σ w pid c → s.state c ≠ .zombie
  child : ∀ w pid, s.Sleeps w pid → ∃ c, s.Candidate σ w pid c ∧ c ≠ w ∧ c ≠ s.initproc

/-- The sleepers and their children stay, up to what the steps `hc` and `hk` say. -/
theorem Awaited.of_step (h : Awaited s σ) (hinit : s'.initproc = s.initproc)
    (hsleeps : ∀ w pid, s'.Sleeps w pid → s.Sleeps w pid)
    (hnone : ∀ w pid, s'.Sleeps w pid → s.Sleeps w pid → ∀ c, s'.Candidate σ' w pid c →
      s'.state c = .zombie → s.Candidate σ w pid c ∧ s.state c = .zombie)
    (hsome : ∀ w pid, s'.Sleeps w pid → s.Sleeps w pid →
      (∃ c, s.Candidate σ w pid c ∧ c ≠ w ∧ c ≠ s.initproc) →
      (∃ c, s'.Candidate σ' w pid c ∧ c ≠ w ∧ c ≠ s.initproc)) : Awaited s' σ' := by
  refine ⟨fun w pid hw c hc hz => ?_, fun w pid hw => ?_⟩
  · have hs := hsleeps w pid hw
    obtain ⟨hc', hz'⟩ := hnone w pid hw hs c hc hz
    exact h.alive w pid hs c hc' hz'
  · have hs := hsleeps w pid hw
    rw [hinit]
    exact hsome w pid hw hs (h.child w pid hs)

theorem Awaited.same (h : Awaited s σ) (hsame : Same s s') : Awaited s' σ := by
  have hcand : ∀ w pid c, s'.Candidate σ w pid c ↔ s.Candidate σ w pid c := by
    intro w pid c
    unfold Candidate
    rw [hsame.procList]
    apply and_congr_right
    intro hc
    rw [hsame.pid c (Or.inr hc), hsame.parent c (Or.inr hc)]
  refine h.of_step hsame.initproc hsame.sleeps (fun w pid _ _ c hc hz => ?_) fun w pid _ _ hc => ?_
  · have hc := (hcand w pid c).mp hc
    exact ⟨hc, (hsame.zombie c (Or.inr hc.1)).mp hz⟩
  · simpa only [hcand] using hc

theorem Awaited.slept (h : Awaited s σ) (hnone : ∀ c, s.Candidate σ p pid c → s.state c ≠ .zombie)
    (hsome : ∃ c, s.Candidate σ p pid c ∧ c ≠ p ∧ c ≠ s.initproc) :
    Awaited (s.sleepChild p pid) σ := by
  have hzombie : ∀ c, (s.sleepChild p pid).state c = .zombie → s.state c = .zombie := by
    intro c hz
    have hz : Function.update s.state p .sleeping c = .zombie := hz
    by_cases hcp : c = p
    · rw [hcp, Function.update_self] at hz
      cases hz
    · rwa [Function.update_of_ne hcp] at hz
  have hold : ∀ w n, w ≠ p → (s.sleepChild p pid).Sleeps w n → s.Sleeps w n := by
    intro w n hwp hw
    obtain ⟨hl, hst, hpc⟩ := hw
    have hst : Function.update s.state p .sleeping w = .sleeping := hst
    have hpc : Function.update s.pc p (.wait pid) w = .wait n := hpc
    rw [Function.update_of_ne hwp] at hst hpc
    exact ⟨hl, hst, hpc⟩
  have hnew : ∀ n, (s.sleepChild p pid).Sleeps p n → n = pid := by
    intro n hw
    have hpc : Function.update s.pc p (.wait pid) p = .wait n := hw.2.2
    rw [Function.update_self] at hpc
    cases hpc
    rfl
  refine ⟨fun w n hw c hc hz => ?_, fun w n hw => ?_⟩
  · by_cases hwp : w = p
    · subst hwp
      rw [hnew n hw] at hc
      exact hnone c hc (hzombie c hz)
    · exact h.alive w n (hold w n hwp hw) c hc (hzombie c hz)
  · by_cases hwp : w = p
    · subst hwp
      rw [hnew n hw]
      exact hsome
    · exact h.child w n (hold w n hwp hw)

/-- A zombie is reaped: it is not the child that a sleeper relies on. -/
theorem Awaited.reaped (h : Awaited s σ) (hinv : Inv s kids σ) {s₁ : Table} {z : ℕ}
    (hz : z ∈ s.procList) (hzombie : s.state z = .zombie) (hr : Reaped s z s₁) :
    Awaited (s₁.setPc p .run) σ := by
  have hcand : ∀ w n c, (s₁.setPc p .run).Candidate σ w n c ↔ s.Candidate σ w n c ∧ c ≠ z := by
    intro w n c
    have hlist : (s₁.setPc p .run).procList = s.procList.erase z := by
      rw [hr.frame]
      rfl
    have hpid : (s₁.setPc p .run).pid = s.pid := by
      rw [hr.frame]
      rfl
    have hparent : (s₁.setPc p .run).parent = s.parent := by
      rw [hr.frame]
      rfl
    unfold Candidate
    rw [hlist, hpid, hparent, hinv.pids.nodup.mem_erase_iff]
    tauto
  have hstate : (s₁.setPc p .run).state = s.state := by
    rw [hr.frame]
    rfl
  have hinit : (s₁.setPc p .run).initproc = s.initproc := by
    rw [hr.frame]
    rfl
  refine h.of_step hinit (fun w n hw => ?_) (fun w n _ _ c hc hcz => ?_) fun w n _ hs hc => ?_
  · obtain ⟨hl, hst, hpc⟩ := hw
    rw [hstate] at hst
    have hpc : Function.update s₁.pc p .run w = .wait n := hpc
    have hwp : w ≠ p := fun heq => by
      rw [heq, Function.update_self] at hpc
      cases hpc
    rw [Function.update_of_ne hwp, hr.frame] at hpc
    exact ⟨((hr.listed_iff hinv.pids hz).mp hl).1, hst, hpc⟩
  · rw [hstate] at hcz
    exact ⟨((hcand w n c).mp hc).1, hcz⟩
  · obtain ⟨c, hc, hcw, hci⟩ := hc
    have hcz : c ≠ z := fun heq => h.alive w n hs c hc (heq ▸ hzombie)
    exact ⟨c, (hcand w n c).mpr ⟨hc, hcz⟩, hcw, hci⟩

/-- The new process is no zombie and has no children. -/
theorem Awaited.forked (h : Awaited s σ) (hinv : Inv s kids σ) (hf : s.Fresh p c)
    (cloneFlags : UInt32) (last next : ℤ) :
    Awaited (s.forkedTable p c cloneFlags last next) (forkedGroup σ p c cloneFlags) := by
  have hfix : σ c = c := hinv.ring.out c hf.out
  have hgroup : ∀ {x y}, x ≠ c → y ≠ c →
      ((forkedGroup σ p c cloneFlags).SameCycle x y ↔ σ.SameCycle x y) := by
    intro x y hx hy
    unfold forkedGroup
    split
    · exact Circular.sameCycle_add hfix hx hy
    · exact Iff.rfl
  have hpid : ∀ d, d ≠ c → (s.forkedTable p c cloneFlags last next).pid d = s.pid d := fun d hd =>
    Function.update_of_ne hd ..
  have hstate : ∀ d, d ≠ c → (s.forkedTable p c cloneFlags last next).state d = s.state d :=
    fun d hd => Function.update_of_ne hd ..
  have hnew : (s.forkedTable p c cloneFlags last next).state c = .runnable := Function.update_self ..
  have hparents : ∀ d ∈ s.procList, ∀ t, s.parent d = some t → t ≠ c := by
    rintro d hd t ht rfl
    obtain ⟨t', ht', hl⟩ := hinv.links.parent d hd
    rw [ht] at ht'
    cases ht'
    exact hf.out hl
  refine h.of_step rfl (fun w n hw => (forkedTable_sleeps hw).2) (fun w n hw _ d hd hz => ?_)
    fun w n hw hs hd => ?_
  · have hwc := (forkedTable_sleeps hw).1
    have hdc : d ≠ c := fun heq => by
      rw [heq, hnew] at hz
      cases hz
    obtain ⟨hdl, hdp, t, ht, hparent⟩ := hd
    have hdl : d ∈ s.procList := (List.mem_cons.mp hdl).resolve_left hdc
    rw [hpid d hdc] at hdp
    rw [hstate d hdc] at hz
    exact ⟨⟨hdl, hdp, t, (hgroup hwc (hparents d hdl t hparent)).mp ht, hparent⟩, hz⟩
  · have hwc := (forkedTable_sleeps hw).1
    obtain ⟨d, ⟨hdl, hdp, t, ht, hparent⟩, hdw, hdi⟩ := hd
    have hdc : d ≠ c := fun heq => hf.out (Or.inr (heq ▸ hdl))
    refine ⟨d, ⟨List.mem_cons_of_mem c hdl, ?_, t, ?_, hparent⟩, hdw, hdi⟩
    · rw [hpid d hdc]
      exact hdp
    · exact (hgroup hwc (hparents d hdl t hparent)).mpr ht

/-- Who is not woken by the exit of `p` has no child that becomes a zombie or comes to the group as a
zombie, and keeps the child that it relies on. -/
theorem Awaited.exited (h : Awaited s σ) (hinv : Inv s kids σ) (hup : s.InitUp) (hp : p ∈ s.procList)
    (hpi : p ≠ s.initproc) (hx : Exits s kids σ p s')
    (hcond : σ p = p → ∀ w pid, s.Sleeps w pid → w ≠ s.initproc → σ.SameCycle s.initproc w →
      (∀ t, s.parent p = some t → ¬ σ.SameCycle t w) →
      ∀ c ∈ s.procList, s.parent c = some p → c = p ∨ s.state c = .zombie → pid ≠ 0 ∧ s.pid c ≠ pid) :
    Awaited s' (swap p (σ p) * σ) := by
  have hpl : s.Listed p := Or.inr hp
  obtain ⟨hhp, hhl, -⟩ := hinv.heir_spec hup hpl hpi
  have hframe : s'.procList = s.procList ∧ s'.idleproc = s.idleproc ∧ s'.initproc = s.initproc ∧
      s'.pid = s.pid ∧ s'.pc = s.pc := by
    rw [hx.frame]
    exact ⟨rfl, rfl, rfl, rfl, rfl⟩
  obtain ⟨hlist, hidle, hinit, hpid, hpc⟩ := hframe
  have hkids := hinv.links.mem p hpl
  -- a sleeper was asleep before, and is not among those that the exit wakes
  have hsleeper : ∀ w n, s'.Sleeps w n → s.Sleeps w n ∧ w ≠ p ∧ ¬ s.WokenBy kids σ p w := by
    rintro w n ⟨hl, hst, hw⟩
    have hl : s.Listed w := by
      unfold Listed at hl ⊢
      rwa [hlist, hidle] at hl
    have hwp : w ≠ p := fun heq => by
      rw [heq, hx.zombie.1] at hst
      cases hst
    rw [hpc] at hw
    by_cases hwk : s.waitState w = WT_CHILD ∧ s.WokenBy kids σ p w
    · rw [(hx.woken w hwp hwk.1 hwk.2).1] at hst
      cases hst
    · rw [(hx.kept w hwp hwk).1] at hst
      exact ⟨⟨hl, hst, hw⟩, hwp, fun hby => hwk ⟨hinv.running.waiting w n hl hw hst, hby⟩⟩
  refine h.of_step hinit (fun w n hw => (hsleeper w n hw).1) (fun w n hw hs d hd hz => ?_)
    fun w n hw hs hd => ?_
  · obtain ⟨-, hwp, hnot⟩ := hsleeper w n hw
    obtain ⟨hdl, hdn, t, ht, hparent⟩ := hd
    rw [hlist] at hdl
    rw [hpid] at hdn
    rw [hx.parent] at hparent
    have hzombie : d ≠ p → s.state d = .zombie := fun hdp =>
      (hx.zombie_iff hinv (Or.inr hdl) hdp).mp hz
    by_cases hk : d ∈ kids p
    · -- the child `d` of `p` has come to the heir
      rw [if_pos hk] at hparent
      obtain rfl := Option.some.inj hparent
      have hgroup := (Circular.sameCycle_del hwp hhp).mp ht
      have hdp := ((hkids d).mp hk).2
      have hor : d = p ∨ s.state d = .zombie := or_iff_not_imp_left.mpr hzombie
      rw [hinv.heir_eq hpl] at hgroup
      split at hgroup
      · rename_i halone
        have hwi : w ≠ s.initproc := by
          rintro rfl
          refine hnot (Or.inr ⟨?_, d, hk, hor⟩)
          rw [hinv.heir_eq hpl, if_pos halone]
        obtain ⟨hn, hne⟩ := hcond halone w n hs hwi hgroup.symm
          (fun t ht hgt => hnot (Or.inl ⟨t, ht, hgt⟩)) d hdl hdp hor
        exact absurd hdn (not_or.mpr ⟨hn, hne⟩)
      · have hwpg : σ.SameCycle w p := hgroup.trans (Circular.sameCycle_apply σ p).symm
        have hdne : d ≠ p := by
          rintro rfl
          exact hnot (Or.inl ⟨d, hdp, hwpg.symm⟩)
        exact ⟨⟨hdl, hdn, p, hwpg, hdp⟩, hzombie hdne⟩
    · rw [if_neg hk] at hparent
      have htp : t ≠ p := fun heq => hk ((hkids d).mpr ⟨hdl, heq ▸ hparent⟩)
      have hgroup := (Circular.sameCycle_del hwp htp).mp ht
      have hdp : d ≠ p := by
        rintro rfl
        exact hnot (Or.inl ⟨t, hparent, hgroup.symm⟩)
      exact ⟨⟨hdl, hdn, t, hgroup, hparent⟩, hzombie hdp⟩
  · obtain ⟨-, hwp, hnot⟩ := hsleeper w n hw
    obtain ⟨d, ⟨hdl, hdn, t, ht, hparent⟩, hdw, hdi⟩ := hd
    have hcand : ∀ t', σ.SameCycle w t' → t' ≠ p → s'.parent d = some t' →
        ∃ c, s'.Candidate (swap p (σ p) * σ) w n c ∧ c ≠ w ∧ c ≠ s.initproc := by
      intro t' ht' htp hpar
      refine ⟨d, ⟨?_, ?_, t', (Circular.sameCycle_del hwp htp).mpr ht', hpar⟩, hdw, hdi⟩
      · rw [hlist]
        exact hdl
      · rw [hpid]
        exact hdn
    by_cases htp : t = p
    · -- `p` is a thread of the group of `w`, and so is its heir
      subst htp
      have hne : σ t ≠ t := fun halone =>
        hwp ((Circular.sameCycle_fixed halone).mp ht.symm)
      refine hcand (σ t) (ht.trans (Circular.sameCycle_apply σ t)) hne ?_
      rw [hx.parent, if_pos ((hkids d).mpr ⟨hdl, hparent⟩), hinv.heir_eq hpl, if_neg hne]
    · refine hcand t ht htp ?_
      have hk : d ∉ kids p := fun hk => by
        have hpar := ((hkids d).mp hk).2
        rw [hparent] at hpar
        exact htp (Option.some.inj hpar)
      rw [hx.parent, if_neg hk]
      exact hparent

/-- A thread leaves its group, and its children leave it. -/
theorem Awaited.execed (h : Awaited s σ) (hrun : s.state p = .runnable)
    (hcond : ∀ w pid, s.Sleeps w pid → σ.SameCycle p w →
      ∃ c, s.Candidate σ w pid c ∧ c ≠ w ∧ c ≠ s.initproc ∧ s.parent c ≠ some p) :
    Awaited (s.deThread p) (swap p (σ p) * σ) := by
  have hne : ∀ w n, s.Sleeps w n → w ≠ p := fun w n hw heq => by
    have hst := hw.2.1
    rw [heq, hrun] at hst
    cases hst
  refine h.of_step rfl (fun w n hw => hw) (fun w n hw hs d hd hz => ?_) fun w n hw hs hd => ?_
  · obtain ⟨hdl, hdn, t, ht, hparent⟩ := hd
    have hwp := hne w n hs
    have htp : t ≠ p := fun heq => by
      rw [heq] at ht
      exact hwp ((Circular.sameCycle_fixed (Circular.swap_mul_apply_self σ p)).mp ht.symm)
    exact ⟨⟨hdl, hdn, t, (Circular.sameCycle_del hwp htp).mp ht, hparent⟩, hz⟩
  · have hwp := hne w n hs
    obtain ⟨c, ⟨hcl, hcn, t, ht, hparent⟩, hcw, hci, htp⟩ :
        ∃ c, s.Candidate σ w n c ∧ c ≠ w ∧ c ≠ s.initproc ∧ s.parent c ≠ some p := by
      by_cases hg : σ.SameCycle p w
      · exact hcond w n hs hg
      · obtain ⟨c, hc, hcw, hci⟩ := hd
        refine ⟨c, hc, hcw, hci, fun hparent => ?_⟩
        obtain ⟨-, -, t, ht, hpar⟩ := hc
        rw [hparent] at hpar
        obtain rfl := Option.some.inj hpar
        exact hg ht.symm
    have htp : t ≠ p := fun heq => htp (heq ▸ hparent)
    exact ⟨c, ⟨hcl, hcn, t, (Circular.sameCycle_del hwp htp).mpr ht, hparent⟩, hcw, hci⟩

/-- **A step** leaves nobody to wait in vain. -/
theorem Does.awaited (hdoes : Does s kids σ a s' σ') (hinv : Inv s kids σ) (hup : s.InitUp)
    (h : Awaited s σ) (hstep : s.WaitStep a) : Awaited s' σ' := by
  cases hdoes with
  | same hsame => exact h.same hsame
  | slept p pid hwaits hp hsome hnone =>
    refine h.slept hnone ?_
    have hiff : ∀ c, s.WaitsFor p pid c ↔ s.Candidate σ p pid c := fun c => hinv.waitsFor_iff hp
    have hwait := hstep.wait p pid hwaits
    simp only [hiff] at hwait
    exact hwait hsome hnone
  | reaped p z pid _ hz hzombie hr => exact h.reaped hinv hz.1 hzombie hr
  | forked p c cloneFlags last next _ _ _ hf => exact h.forked hinv hf cloneFlags last next
  | exited p exitCode ha hp hpi _ hx =>
    have hinv₀ := hinv.setExitCode exitCode
    have hup₀ : { s with exitCode := exitCode }.InitUp := ⟨hup.mem, hup.up, hup.parent, hup.root⟩
    have h₀ : Awaited { s with exitCode := exitCode } σ := ⟨h.alive, h.child⟩
    refine h₀.exited hinv₀ hup₀ hp hpi hx fun halone w n hw hwi hg ht => ?_
    have hnext : s.nextThread p = p := (hinv.ring.next p (Or.inr hp)).trans halone
    refine hstep.exit p ha hnext w n hw hwi ((hinv.inGroup_iff (Or.inr hup.mem)).mpr hg) ?_
    intro t hparent hgt
    obtain ⟨t', ht', hl⟩ := hinv.links.parent p hp
    rw [hparent] at ht'
    cases ht'
    exact ht t hparent ((hinv.inGroup_iff hl).mp hgt)
  | execed p ha hp =>
    obtain ⟨hpl, hst, -⟩ := hp
    refine h.execed hst fun w n hw hg => ?_
    obtain ⟨c, hc, hrest⟩ := hstep.execve p ha w n hw ((hinv.inGroup_iff hpl).mpr hg)
    exact ⟨c, (hinv.waitsFor_iff hw.1).mp hc, hrest⟩

/-- The exit of the child that a sleeper relies on wakes it. -/
theorem Inv.exitWakes (hinv : Inv s kids σ) (hup : s.InitUp) (hw : s.Sleeps w pid)
    (hc : s.Candidate σ w pid c) (hz : s.state c ≠ .zombie) (hcw : c ≠ w) (hci : c ≠ s.initproc) :
    s.ExitWakes c w := by
  obtain ⟨hcl, -, t, ht, hparent⟩ := hc
  obtain ⟨hwl, hst, hpc⟩ := hw
  have hwait := hinv.running.waiting w pid hwl hpc hst
  obtain ⟨s₁, hwake, hinv₁, hquiet, -⟩ := hinv.wakeup_spec (Or.inr hcl) hz
  have hframe : s₁.initproc = s.initproc ∧ s₁.idleproc = s.idleproc ∧ s₁.procList = s.procList ∧
      s₁.parent = s.parent := by
    rw [hquiet.frame]
    exact ⟨rfl, rfl, rfl, rfl⟩
  obtain ⟨hinit, hidle, hlist, hpar⟩ := hframe
  have hchanged : s₁.state c = .runnable ∧ s₁.waitState w = WT_CHILD := by
    unfold wakeupProc at hwake
    rw [if_neg hz] at hwake
    split at hwake
    · obtain rfl := Option.some.inj hwake
      refine ⟨Function.update_self .., ?_⟩
      show Function.update s.waitState c 0 w = _
      rw [Function.update_of_ne hcw.symm]
      exact hwait
    · rename_i hrun
      obtain rfl := Option.some.inj hwake
      exact ⟨not_not.mp hrun, hwait⟩
  obtain ⟨hrun₁, hwait₁⟩ := hchanged
  have hci₁ : c ≠ s₁.initproc := by rwa [hinit]
  have hidle₁ : c ≠ s₁.idleproc := by
    rw [hidle]
    exact fun heq => hinv.pids.idle (heq ▸ hcl)
  have hcl₁ : c ∈ s₁.procList := by rwa [hlist]
  obtain ⟨s', hexit, hx⟩ := hinv₁.becomeZombie_runs (hquiet.same.initUp hup) hcl₁ hci₁ hrun₁
  refine ⟨s₁, s', hwake, ?_, ?_⟩
  · unfold doExit
    rw [if_neg hidle₁, if_neg hci₁]
    exact hexit
  · exact (hx.woken w hcw.symm hwait₁ (Or.inl ⟨t, by rw [hpar]; exact hparent, ht.symm⟩)).1

end Table

open Table

theorem Reaches.awaited {s : Table} (h : Reaches WaitStep s) :
    ∃ kids σ, Inv s kids σ ∧ s.InitUp ∧ Awaited s σ := by
  induction h with
  | boot idle init hne hinit =>
    obtain ⟨kids, σ, hinv, hup, -, hnone⟩ := procInit_inv hne hinit
    exact ⟨kids, σ, hinv, hup, fun w n hw => absurd hw (hnone w n), fun w n hw => absurd hw (hnone w n)⟩
  | step a _ henabled hcond hstep ih =>
    obtain ⟨kids, σ, hinv, hup, hawaited⟩ := ih
    obtain ⟨kids', σ', hinv', hup', hdoes⟩ := hinv.step_does hup henabled hstep
    exact ⟨kids', σ', hinv', hup', hdoes.awaited hinv hup hawaited hcond⟩

/-- **No process waits in vain** in the runs whose steps are all as `WaitStep` says: a process that
sleeps in `do_wait(pid)` has no zombie that it could reap, and a child whose exit wakes it. -/
theorem wait_not_in_vain {s : Table} (h : Reaches WaitStep s) (w : ℕ) (pid : ℤ)
    (hw : s.Sleeps w pid) :
    s.waitState w = WT_CHILD ∧ (∀ c, s.WaitsFor w pid c → s.state c ≠ .zombie) ∧
      ∃ c, s.WaitsFor w pid c ∧ s.state c ≠ .zombie ∧ s.ExitWakes c w := by
  obtain ⟨kids, σ, hinv, hup, hawaited⟩ := h.awaited
  have hiff : ∀ c, s.WaitsFor w pid c ↔ s.Candidate σ w pid c := fun c => hinv.waitsFor_iff hw.1
  obtain ⟨c, hc, hcw, hci⟩ := hawaited.child w pid hw
  have hz := hawaited.alive w pid hw c hc
  refine ⟨hinv.running.waiting w pid hw.1 hw.2.2 hw.2.1,
    fun d hd => hawaited.alive w pid hw d ((hiff d).mp hd), c, (hiff c).mpr hc, hz, ?_⟩
  exact hinv.exitWakes hup hw hc hz hcw hci

/-- The conditions are about `do_wait`, `do_execve` and exits alone. -/
theorem waitStep_fork (s : Table) (p c : ℕ) : s.WaitStep (.fork p c) := by
  refine ⟨fun _ _ hq => ?_, fun _ hq => ?_, fun _ hq => ?_⟩
  · rcases hq with ⟨hq, -⟩ | ⟨hq, -⟩ <;> cases hq
  · cases hq
  · rcases hq with ⟨_, hq⟩ | hq | ⟨hq, -⟩ <;> cases hq

theorem waitStep_forked (s : Table) (p : ℕ) (cloneFlags : UInt32) : s.WaitStep (.forked p cloneFlags) := by
  refine ⟨fun _ _ hq => ?_, fun _ hq => ?_, fun _ hq => ?_⟩
  · rcases hq with ⟨hq, -⟩ | ⟨hq, -⟩ <;> cases hq
  · cases hq
  · rcases hq with ⟨_, hq⟩ | hq | ⟨hq, -⟩ <;> cases hq

theorem waitStep_wait {s : Table} {p c : ℕ} {pid : ℤ} (hc : s.WaitsFor p pid c) (hcp : c ≠ p)
    (hci : c ≠ s.initproc) : s.WaitStep (.wait p pid) := by
  refine ⟨fun q n hq _ _ => ?_, fun _ hq => ?_, fun _ hq => ?_⟩
  · rcases hq with ⟨hq, -⟩ | ⟨hq, -⟩
    · cases hq
      exact ⟨c, hc, hcp, hci⟩
    · cases hq
  · cases hq
  · rcases hq with ⟨_, hq⟩ | hq | ⟨hq, -⟩ <;> cases hq

/-- `initproc` forks, and sleeps until its child exits. -/
theorem wait_not_in_vain_child : ∃ s : Table, Reaches WaitStep s ∧ s.Sleeps 1 0 ∧
    s.waitState 1 = WT_CHILD ∧ (∀ c, s.WaitsFor 1 0 c → s.state c ≠ .zombie) ∧
      ∃ c, s.WaitsFor 1 0 c ∧ s.state c ≠ .zombie ∧ s.ExitWakes c 1 := by
  have h₀ : Reaches WaitStep _ := .boot (m := blank) 0 1 (by decide) rfl
  have h₁ := h₀.step (.fork 1 2) ⟨⟨Or.inr (by decide), rfl, rfl⟩, rfl, by decide⟩ (waitStep_fork _ _ _)
    rfl
  have h₂ := h₁.step (.forked 1 0) ⟨2, Or.inr (by decide), rfl, rfl⟩ (waitStep_forked _ _ _) rfl
  have h₃ := h₂.step (.wait 1 0) ⟨Or.inr (by decide), rfl, rfl⟩
    (waitStep_wait (c := 2) ⟨by decide, Or.inl rfl, 1, ⟨[1], rfl, by decide⟩, rfl⟩ (by decide) (by decide))
    rfl
  exact ⟨_, h₃, ⟨Or.inr (by decide), rfl, rfl⟩,
    wait_not_in_vain h₃ 1 0 ⟨Or.inr (by decide), rfl, rfl⟩⟩

theorem not_waitsFor {s : Table} {w t c : ℕ} {pid : ℤ} (hthreads : s.threads w = some [t])
    (hparent : ∀ c ∈ s.procList, s.parent c ≠ some t) : ¬ s.WaitsFor w pid c := by
  rintro ⟨hc, -, t', ⟨ts, hts, ht'⟩, hpar⟩
  rw [hthreads] at hts
  obtain rfl := Option.some.inj hts
  rw [List.mem_singleton.mp ht'] at hpar
  exact hparent c hc hpar

/-- Thread 3 of process 2 waits for the child 4 of process 2, and then process 2 calls `do_execve`. -/
theorem execve_leaves_waiting : ¬ ∀ s : Table, Reachable s → ∀ w pid, s.Sleeps w pid →
    ∃ c, s.WaitsFor w pid c ∧ s.state c ≠ .zombie := by
  intro h
  have h₀ : Reachable _ := .boot (m := blank) 0 1 (by decide) rfl
  have h₁ := h₀.step (.fork 1 2) ⟨⟨Or.inr (by decide), rfl, rfl⟩, rfl, by decide⟩ trivial rfl
  have h₂ := h₁.step (.forked 1 0) ⟨2, Or.inr (by decide), rfl, rfl⟩ trivial rfl
  have h₃ := h₂.step (.fork 2 3) ⟨⟨Or.inr (by decide), rfl, rfl⟩, rfl, by decide⟩ trivial rfl
  have h₄ := h₃.step (.forked 2 CLONE_THREAD) ⟨3, Or.inr (by decide), rfl, rfl⟩ trivial rfl
  have h₅ := h₄.step (.fork 2 4) ⟨⟨Or.inr (by decide), rfl, rfl⟩, rfl, by decide⟩ trivial rfl
  have h₆ := h₅.step (.forked 2 0) ⟨4, Or.inr (by decide), rfl, rfl⟩ trivial rfl
  have h₇ := h₆.step (.wait 3 4) ⟨Or.inr (by decide), rfl, rfl⟩ trivial rfl
  have h₈ := h₇.step (.execve 2) ⟨Or.inr (by decide), rfl, rfl⟩ trivial rfl
  obtain ⟨c, hc, -⟩ := h _ h₈ 3 4 ⟨Or.inr (by decide), rfl, rfl⟩
  exact not_waitsFor rfl (by decide) hc

end Ucore.Process
