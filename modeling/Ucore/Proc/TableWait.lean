import Ucore.Proc.TableExit

/-!
# `do_wait`, `do_kill` and `do_execve` on the process table

* `Inv.reap_spec` — `do_wait` from `found` on: the zombie leaves every list;
* `Inv.doWait_spec` — a pass of `do_wait`: it reaps, gives up or sleeps;
* `Inv.killAll_spec` — the threads of a group are told to exit.
-/

namespace Ucore.Process

open Ksem (ProcState WT_INTERRUPTED)
open Chain (Linked)
open Circular (Ring)
open Equiv (swap)
open Function (update update_eq_self update_of_ne update_self)

namespace Table

variable {s s' : Table} {kids : ℕ → List ℕ} {σ : Equiv.Perm ℕ} {p q c z : ℕ} {pid : ℤ}

/-! ## `found` -/

/-- The zombie `z` is gone. -/
structure Reaped (s : Table) (z : ℕ) (s' : Table) : Prop where
  frame : s' =
    { s with
      live := update s.live z false
      procList := s.procList.erase z
      hashList := fun b => (s.hashList b).erase z
      cptr := s'.cptr
      yptr := Chain.assign s.yptr (s.optr z) (s.yptr z)
      optr := Chain.assign s.optr (s.yptr z) (s.optr z)
      nrProcess := s.nrProcess - 1 }
  cptr : ∀ q, s'.cptr q =
    if s.parent z = some q ∧ s.yptr z = none then s.optr z else s.cptr q

theorem Reaped.listed_iff (hr : Reaped s z s') (hpids : Pids s) (hz : z ∈ s.procList) :
    s'.Listed q ↔ s.Listed q ∧ q ≠ z := by
  have hlist : s'.procList = s.procList.erase z := by rw [hr.frame]
  have hidle : s'.idleproc = s.idleproc := by rw [hr.frame]
  have hzi : s.idleproc ≠ z := fun heq => hpids.idle (heq ▸ hz)
  unfold Listed
  rw [hlist, hidle, hpids.nodup.mem_erase_iff]
  constructor
  · rintro (rfl | ⟨hqz, hq⟩)
    · exact ⟨Or.inl rfl, hzi⟩
    · exact ⟨Or.inr hq, hqz⟩
  · rintro ⟨rfl | hq, hqz⟩
    · exact Or.inl rfl
    · exact Or.inr ⟨hqz, hq⟩

theorem Reaped.pids (hr : Reaped s z s') (hpids : Pids s) (hz : z ∈ s.procList) : Pids s' := by
  rw [hr.frame]
  have hsub : ∀ q ∈ s.procList.erase z, q ∈ s.procList := fun q hq => List.mem_of_mem_erase hq
  refine ⟨fun hmem => hpids.idle (hsub _ hmem), hpids.nodup.erase z,
    fun q hq => hpids.range q (hsub q hq),
    fun q hq q' hq' => hpids.inj q (hsub q hq) q' (hsub q' hq'), fun b q => ?_,
    fun b => (hpids.hashNodup b).erase z, ?_, hpids.lastPid, fun n hn => ?_⟩
  · show q ∈ (s.hashList b).erase z ↔ q ∈ s.procList.erase z ∧ pidHashfn (s.pid q) = b
    rw [(hpids.hashNodup b).mem_erase_iff, hpids.nodup.mem_erase_iff, hpids.hash, and_assoc]
  · show s.nrProcess - 1 = (s.procList.erase z).length + 1
    have hpos := List.length_pos_of_mem hz
    rw [List.length_erase_of_mem hz, hpids.count]
    omega
  · obtain ⟨q, hq, rfl⟩ := List.mem_map.mp hn
    exact hpids.clear _ (List.mem_map_of_mem (hsub q hq))

/-- The chain of the siblings without `z`, and the other chains. -/
theorem Reaped.links (hr : Reaped s z s') (hinv : Inv s kids σ) (hz : z ∈ s.procList)
    (hzombie : s.state z = .zombie) : Links s' fun q => (kids q).erase z := by
  have hlinks := hinv.links
  obtain ⟨parent, hparent, hparl⟩ := hlinks.parent z hz
  have hzk : z ∈ kids parent := (hlinks.mem parent hparl z).mpr ⟨hz, hparent⟩
  have hlisted : ∀ q, s'.Listed q ↔ s.Listed q ∧ q ≠ z := fun q => hr.listed_iff hinv.pids hz
  have hlist : s'.procList = s.procList.erase z := by rw [hr.frame]
  have hparents : s'.parent = s.parent := by rw [hr.frame]
  have hoptr : s'.optr = Chain.assign s.optr (s.yptr z) (s.optr z) := by rw [hr.frame]
  have hyptr : s'.yptr = Chain.assign s.yptr (s.optr z) (s.yptr z) := by rw [hr.frame]
  refine ⟨fun q hq => ?_, fun q hq => ((hlinks.nodup q ((hlisted q).mp hq).1).erase z),
    fun q hq c => ?_, fun c hc => ?_⟩
  · have hq := ((hlisted q).mp hq).1
    rw [hoptr, hyptr, hr.cptr]
    by_cases hqp : q = parent
    · subst hqp
      obtain ⟨l₁, l₂, hsplit⟩ := List.append_of_mem hzk
      have hnodup := hlinks.nodup q hq
      have hlinked := hlinks.linked q hq
      rw [hsplit] at hnodup hlinked
      have hz₁ : z ∉ l₁ := fun hmem => (List.nodup_append.mp hnodup).2.2 z hmem z (by simp) rfl
      rw [hsplit, List.erase_append_right _ hz₁, List.erase_cons_head]
      have hremove := hlinked.remove hnodup
      simp only [hparent, true_and]
      exact hremove
    · have hzq : z ∉ kids q := hlinks.disjoint hparl hq (Ne.symm hqp) hzk
      have hne : ¬ (s.parent z = some q ∧ s.yptr z = none) := by
        rw [hparent]
        exact fun hno => hqp (Option.some.inj hno.1).symm
      rw [if_neg hne, List.erase_of_not_mem hzq]
      have hlinked := hlinks.linked parent hparl
      refine (hlinks.linked q hq).congr fun c hc => ⟨?_, ?_⟩
      · refine Chain.assign_of_ne fun hy => ?_
        have hcp := (hlinked.prev_mem hzk hy).resolve_left (Option.some_ne_none c).symm
        exact hlinks.disjoint hq hparl hqp hc hcp
      · refine Chain.assign_of_ne fun ho => ?_
        exact hlinks.disjoint hq hparl hqp hc (hlinked.next_mem hzk ho)
  · have hq := ((hlisted q).mp hq).1
    rw [hlist, hparents, (hlinks.nodup q hq).mem_erase_iff, hinv.pids.nodup.mem_erase_iff,
      hlinks.mem q hq, and_assoc]
  · rw [hlist, hinv.pids.nodup.mem_erase_iff] at hc
    rw [hparents]
    obtain ⟨q, hcq, hq⟩ := hlinks.parent c hc.2
    refine ⟨q, hcq, (hlisted q).mpr ⟨hq, ?_⟩⟩
    rintro rfl
    exact hinv.running.parent c hc.2 q hcq hzombie

theorem Reaped.inv (hr : Reaped s z s') (hinv : Inv s kids σ) (hz : z ∈ s.procList)
    (hzombie : s.state z = .zombie) : Inv s' (fun q => (kids q).erase z) σ := by
  have hrun := hinv.running
  have hlisted : ∀ q, s'.Listed q ↔ s.Listed q ∧ q ≠ z := fun q => hr.listed_iff hinv.pids hz
  have hfix := hrun.zombie z (Or.inr hz) hzombie
  have hlive : s'.live = update s.live z false := by rw [hr.frame]
  have hpc : s'.pc = s.pc := by rw [hr.frame]
  have hstate : s'.state = s.state := by rw [hr.frame]
  have hwait : s'.waitState = s.waitState := by rw [hr.frame]
  have hlist : s'.procList = s.procList.erase z := by rw [hr.frame]
  have hidle : s'.idleproc = s.idleproc := by rw [hr.frame]
  have hnr : s'.nrProcess = s.nrProcess - 1 := by rw [hr.frame]
  have hparents : s'.parent = s.parent := by rw [hr.frame]
  have hnext : s'.nextThread = s.nextThread := by rw [hr.frame]
  have hprev : s'.prevThread = s.prevThread := by rw [hr.frame]
  refine ⟨hr.pids hinv.pids hz, hr.links hinv hz hzombie, ?_, ?_⟩
  · rw [hnext, hprev]
    exact (hinv.ring.remove hfix).of_iff hlisted
  refine ⟨by rw [hidle, hstate]; exact hrun.idle, fun c hc q hq => ?_, fun q hq hqz => ?_,
    fun q c hq => ?_, fun q c hq => ?_, fun q => ?_, ?_, fun q hq hst => ?_, fun q n hq hqw hst => ?_⟩
  · rw [hlist] at hc
    rw [hparents] at hq
    rw [hstate]
    exact hrun.parent c (List.mem_of_mem_erase hc) q hq
  · rw [hstate] at hqz
    exact hrun.zombie q ((hlisted q).mp hq).1 hqz
  · rw [hpc] at hq
    obtain ⟨hl, hst⟩ := hrun.forker q c hq
    rw [hstate]
    refine ⟨(hlisted q).mpr ⟨hl, ?_⟩, hst⟩
    rintro rfl
    exact hst hzombie
  · rw [hpc] at hq
    have hf := hrun.fresh q c hq
    refine ⟨fun hl => hf.out ((hlisted c).mp hl).1, by rw [hparents]; exact hf.parent,
      by rw [hstate]; exact hf.state, by rw [hwait]; exact hf.waitState, ?_,
      by rw [hnext]; exact hf.next, by rw [hprev]; exact hf.prev⟩
    rw [hr.cptr]
    obtain ⟨parent, hparent, hparl⟩ := hinv.links.parent z hz
    rw [if_neg, hf.cptr]
    rw [hparent]
    exact fun hno => hf.out (Option.some.inj hno.1 ▸ hparl)
  · rw [hlive, hlisted, hpc]
    by_cases hqz : q = z
    · subst hqz
      rw [update_self]
      constructor
      · nofun
      · rintro (hq | ⟨q', hq'⟩)
        · exact absurd rfl hq.2
        · exact absurd (Or.inr hz) (hrun.fresh q' q hq').out
    · rw [update_of_ne hqz, hrun.live]
      simp [hqz]
  · have hforking : s'.forking = s.forking := by
      unfold forking
      rw [hpc]
    rw [hnr, hidle, hlist, hforking]
    have hsub : (s.idleproc :: s.procList.erase z).Sublist (s.idleproc :: s.procList) :=
      List.erase_sublist.cons_cons _
    have hle := hsub.countP_le (p := s.forking)
    have hroom := hrun.room
    omega
  · rw [hstate] at hst
    rw [hwait]
    exact hrun.awake q ((hlisted q).mp hq).1 hst
  · rw [hpc] at hqw
    rw [hstate] at hst
    rw [hwait]
    exact hrun.waiting q n ((hlisted q).mp hq).1 hqw hst

/-- **`do_wait`** from `found` on. -/
theorem Inv.reap_spec (hinv : Inv s kids σ) (hup : s.InitUp) (hz : z ∈ s.procList)
    (hzombie : s.state z = .zombie) : ∃ s', s.reap z = some s' ∧ Reaped s z s' := by
  obtain ⟨parent, hparent, -⟩ := hinv.links.parent z hz
  have hlive : s.live z = true := (hinv.running.live z).mpr (Or.inl (Or.inr hz))
  have hzi : ¬ (z = s.idleproc ∨ z = s.initproc) := by
    rintro (rfl | rfl)
    · exact hinv.pids.idle hz
    · exact hup.2 hzombie
  let s₁ : Table :=
    { s.unhashProc z with
      procList := s.procList.erase z
      yptr := Chain.assign s.yptr (s.optr z) (s.yptr z)
      optr := Chain.assign s.optr (s.yptr z) (s.optr z)
      cptr := if s.yptr z = none then update s.cptr parent (s.optr z) else s.cptr
      nrProcess := s.nrProcess - 1 }
  have hremove : (s.unhashProc z).removeLinks z = some s₁ := by
    have hparent' : (s.unhashProc z).parent z = some parent := hparent
    unfold removeLinks
    rw [hparent']
    rfl
  have hfree : s₁.kfree z = some { s₁ with live := update s.live z false } := if_pos hlive
  have hrun : s.reap z = some { s₁ with live := update s.live z false } := by
    unfold reap
    rw [if_neg hzi]
    show ((s.unhashProc z).removeLinks z).bind _ = _
    rw [hremove]
    exact hfree
  refine ⟨_, hrun, rfl, fun q => ?_⟩
  show (if s.yptr z = none then update s.cptr parent (s.optr z) else s.cptr) q = _
  rw [hparent]
  by_cases hy : s.yptr z = none
  · by_cases hq : q = parent
    · subst hq
      simp [hy]
    · simp [hy, hq, Ne.symm hq]
  · simp [hy]

/-! ## Steps that leave lists and links alone -/

/-- `p` sleeps in the loop of `do_wait(pid)`. -/
def Sleeps (s : Table) (p : ℕ) (pid : ℤ) : Prop :=
  s.Listed p ∧ s.state p = .sleeping ∧ s.pc p = .wait pid

/-- Only the states, and where the processes are, change; nobody becomes a zombie, or falls asleep in
`do_wait`. -/
structure Quiet (s s' : Table) : Prop where
  frame : s' =
    { s with
      state := s'.state
      waitState := s'.waitState
      exiting := s'.exiting
      exitCode := s'.exitCode
      pc := s'.pc }
  zombie : ∀ q, s'.state q = .zombie ↔ s.state q = .zombie
  sleeps : ∀ q pid, s'.Sleeps q pid → s.Sleeps q pid

theorem Quiet.refl (s : Table) : Quiet s s := ⟨rfl, fun _ => Iff.rfl, fun _ _ => id⟩

theorem Quiet.trans {s'' : Table} (h : Quiet s s') (h' : Quiet s' s'') : Quiet s s'' := by
  refine ⟨?_, fun q => (h'.zombie q).trans (h.zombie q),
    fun q pid hq => h.sleeps q pid (h'.sleeps q pid hq)⟩
  have hframe := h'.frame
  rw [h.frame] at hframe
  exact hframe

/-- A process that may run goes on. -/
theorem Inv.setPc (hinv : Inv s kids σ) (p : ℕ) (pc : Pc) (hpc : ∀ c, s.pc p ≠ .fork c)
    (hfork : ∀ c, pc ≠ .fork c) (hwait : ∀ pid, pc ≠ .wait pid) :
    Inv (s.setPc p pc) kids σ ∧ Quiet s (s.setPc p pc) := by
  have hrun := hinv.running
  constructor
  · refine hinv.touch (fun _ => Iff.rfl) hrun.awake (fun q n hq hqw hst => ?_)
      (fun _ _ => ⟨rfl, rfl⟩) fun q c => ?_
    · by_cases hqp : q = p
      · subst hqp
        rw [update_self] at hqw
        exact absurd hqw (hwait n)
      · rw [update_of_ne hqp] at hqw
        exact hrun.waiting q n hq hqw hst
    · by_cases hqp : q = p
      · subst hqp
        rw [update_self]
        exact ⟨fun hno => absurd hno (hfork c), fun hno => absurd hno (hpc c)⟩
      · rw [update_of_ne hqp]
  · refine ⟨rfl, fun _ => Iff.rfl, fun q n hq => ?_⟩
    obtain ⟨hl, hst, hqw⟩ := hq
    have hqw : update s.pc p pc q = .wait n := hqw
    by_cases hqp : q = p
    · subst hqp
      rw [update_self] at hqw
      exact absurd hqw (hwait n)
    · rw [update_of_ne hqp] at hqw
      exact ⟨hl, hst, hqw⟩

/-- A process goes to sleep. -/
theorem Inv.sleep (hinv : Inv s kids σ) (hp : s.Listed p) (hrun : s.state p = .runnable)
    (waitState : UInt32) (pc : Pc) (hpc : ∀ c, pc = .fork c ↔ s.pc p = .fork c)
    (hwait : ∀ pid, pc = .wait pid → waitState = WT_CHILD) :
    Inv
      { s with
        state := update s.state p .sleeping
        waitState := update s.waitState p waitState
        pc := update s.pc p pc } kids σ := by
  have hr := hinv.running
  refine hinv.touch (fun q => ?_) (fun q hq hst => ?_) (fun q n hq hqw hst => ?_) (fun q hq => ?_)
    fun q c => ?_
  · by_cases hqp : q = p
    · subst hqp
      rw [update_self, hrun]
      simp
    · rw [update_of_ne hqp]
  · by_cases hqp : q = p
    · subst hqp
      rw [update_self] at hst
      exact absurd rfl hst
    · rw [update_of_ne hqp] at hst ⊢
      exact hr.awake q hq hst
  · by_cases hqp : q = p
    · subst hqp
      rw [update_self] at hqw ⊢
      exact hwait n hqw
    · rw [update_of_ne hqp] at hqw hst ⊢
      exact hr.waiting q n hq hqw hst
  · have hqp : q ≠ p := fun heq => hq (heq ▸ hp)
    rw [update_of_ne hqp, update_of_ne hqp]
    exact ⟨rfl, rfl⟩
  · by_cases hqp : q = p
    · subst hqp
      rw [update_self]
      exact hpc c
    · rw [update_of_ne hqp]

/-- Another operation than `do_wait` blocks. -/
theorem Inv.block_spec (hinv : Inv s kids σ) (hp : s.Listed p) (hrun : s.state p = .runnable)
    (hpc : ∀ pid, s.pc p ≠ .wait pid) (waitState : UInt32) :
    Inv (s.block p waitState) kids σ ∧ Quiet s (s.block p waitState) := by
  constructor
  · have hsleep := hinv.sleep hp hrun waitState (s.pc p) (fun c => Iff.rfl)
      fun n hn => absurd hn (hpc n)
    rw [update_eq_self] at hsleep
    exact hsleep
  · refine ⟨rfl, fun q => ?_, fun q n hq => ?_⟩
    · show update s.state p .sleeping q = .zombie ↔ _
      by_cases hqp : q = p
      · subst hqp
        rw [update_self, hrun]
        simp
      · rw [update_of_ne hqp]
    · obtain ⟨hl, hst, hqw⟩ := hq
      have hqp : q ≠ p := by
        rintro rfl
        exact hpc n hqw
      have hst : update s.state p .sleeping q = .sleeping := hst
      rw [update_of_ne hqp] at hst
      exact ⟨hl, hst, hqw⟩

/-- **`wakeup_proc`** of a process that is no zombie. -/
theorem Inv.wakeup_spec (hinv : Inv s kids σ) (hp : s.Listed p) (hz : s.state p ≠ .zombie) :
    ∃ s', s.wakeupProc p = some s' ∧ Inv s' kids σ ∧ Quiet s s' ∧ s'.pc = s.pc := by
  have hr := hinv.running
  unfold wakeupProc
  rw [if_neg hz]
  by_cases hst : s.state p = .runnable
  · rw [if_neg (not_not.mpr hst)]
    exact ⟨s, rfl, hinv, .refl s, rfl⟩
  rw [if_pos hst]
  have hzombie : ∀ q, update s.state p .runnable q = .zombie ↔ s.state q = .zombie := by
    intro q
    by_cases hqp : q = p
    · subst hqp
      rw [update_self]
      exact ⟨nofun, fun hno => absurd hno hz⟩
    · rw [update_of_ne hqp]
  refine ⟨_, rfl, ?_, ⟨rfl, hzombie, fun q n hq => ?_⟩, rfl⟩
  · refine hinv.touch hzombie (fun q hq hsq => ?_) (fun q n hq hqw hsq => ?_) (fun q hq => ?_)
      fun _ _ => Iff.rfl
    · by_cases hqp : q = p
      · subst hqp
        rw [update_self]
      · rw [update_of_ne hqp] at hsq ⊢
        exact hr.awake q hq hsq
    · by_cases hqp : q = p
      · subst hqp
        rw [update_self] at hsq
        cases hsq
      · rw [update_of_ne hqp] at hsq ⊢
        exact hr.waiting q n hq hqw hsq
    · have hqp : q ≠ p := fun heq => hq (heq ▸ hp)
      rw [update_of_ne hqp, update_of_ne hqp]
      exact ⟨rfl, rfl⟩
  · obtain ⟨hl, hsq, hqw⟩ := hq
    have hsq : update s.state p .runnable q = .sleeping := hsq
    by_cases hqp : q = p
    · subst hqp
      rw [update_self] at hsq
      cases hsq
    · rw [update_of_ne hqp] at hsq
      exact ⟨hl, hsq, hqw⟩

/-! ## `do_kill` -/

/-- **`__do_kill`**. -/
theorem Inv.doKillProc_spec (hinv : Inv s kids σ) (hp : s.Listed p) (errorCode : ℤ) :
    ∃ s', s.doKillProc p errorCode = some s' ∧ Inv s' kids σ ∧ Quiet s s' ∧ s'.pc = s.pc := by
  unfold doKillProc
  by_cases hex : s.exiting p = true
  · rw [if_pos hex]
    exact ⟨s, rfl, hinv, .refl s, rfl⟩
  rw [if_neg hex]
  let s₁ : Table :=
    { s with
      exiting := update s.exiting p true
      exitCode := update s.exitCode p errorCode }
  have hinv₁ : Inv s₁ kids σ :=
    hinv.touch (fun _ => Iff.rfl) hinv.running.awake hinv.running.waiting (fun _ _ => ⟨rfl, rfl⟩)
      fun _ _ => Iff.rfl
  have hquiet : Quiet s s₁ := ⟨rfl, fun _ => Iff.rfl, fun _ _ => id⟩
  show ∃ s', (if s.waitState p &&& WT_INTERRUPTED ≠ 0 then s₁.wakeupProc p else some s₁) = some s' ∧ _
  by_cases hw : s.waitState p &&& WT_INTERRUPTED ≠ 0
  · rw [if_pos hw]
    have hz : s₁.state p ≠ .zombie := by
      intro hz
      refine hw ?_
      rw [hinv.running.awake p hp (by rw [show s.state p = .zombie from hz]; decide)]
      rfl
    obtain ⟨s', hrun, hinv', hquiet', hpc⟩ := hinv₁.wakeup_spec hp hz
    exact ⟨s', hrun, hinv', hquiet.trans hquiet', hpc⟩
  · rw [if_neg hw]
    exact ⟨s₁, rfl, hinv₁, hquiet, rfl⟩

/-- The loop of **`do_exit`** over the other threads. -/
theorem Inv.killAll_spec {ps : List ℕ} (hinv : Inv s kids σ) (hps : ∀ p ∈ ps, s.Listed p)
    (errorCode : ℤ) :
    ∃ s', killAll errorCode ps s = some s' ∧ Inv s' kids σ ∧ Quiet s s' ∧ s'.pc = s.pc := by
  induction ps generalizing s with
  | nil => exact ⟨s, rfl, hinv, .refl s, rfl⟩
  | cons p ps ih =>
    obtain ⟨s₁, hrun₁, hinv₁, hquiet₁, hpc₁⟩ := hinv.doKillProc_spec (hps p List.mem_cons_self) errorCode
    have hlisted : ∀ q ∈ ps, s₁.Listed q := by
      intro q hq
      have hl := hps q (List.mem_cons_of_mem p hq)
      rw [hquiet₁.frame]
      exact hl
    obtain ⟨s', hrun, hinv', hquiet, hpc⟩ := ih hinv₁ hlisted
    refine ⟨s', ?_, hinv', hquiet₁.trans hquiet, hpc.trans hpc₁⟩
    unfold killAll
    rw [hrun₁]
    exact hrun

/-- **`do_exit`** up to `do_exit_thread`. -/
theorem Inv.exitGroup_spec (hinv : Inv s kids σ) (hp : s.Listed p) (hpc : ∀ c, s.pc p ≠ .fork c)
    (errorCode : ℤ) :
    ∃ s', s.exitGroup p errorCode = some s' ∧ Inv s' kids σ ∧ Quiet s s' := by
  obtain ⟨ts, hts, -, hmem⟩ := hinv.threads_spec hp
  have hlisted : ∀ q ∈ ts, s.Listed q := fun q hq =>
    hinv.mem_group hp ((hmem q).mp (List.mem_cons_of_mem p hq))
  obtain ⟨s₁, hrun, hinv₁, hquiet₁, hpc₁⟩ := hinv.killAll_spec hlisted errorCode
  obtain ⟨hinv', hquiet⟩ := hinv₁.setPc p .exit (by rw [hpc₁]; exact hpc) nofun nofun
  refine ⟨s₁.setPc p .exit, ?_, hinv', hquiet₁.trans hquiet⟩
  unfold exitGroup
  rw [hts]
  show (killAll errorCode ts s).bind _ = _
  rw [hrun]
  rfl

/-! ## A pass of `do_wait` -/

/-- `p` goes to sleep in `do_wait(pid)`. -/
def sleepChild (s : Table) (p : ℕ) (pid : ℤ) : Table :=
  { s with
    state := update s.state p .sleeping
    waitState := update s.waitState p WT_CHILD
    pc := update s.pc p (.wait pid) }

/-- **A pass of `do_wait(pid)`** reaps a child that is a zombie, or finds that there is no child, or
goes to sleep while no child is a zombie. -/
theorem Inv.doWait_spec (hinv : Inv s kids σ) (hup : s.InitUp) (hp : s.Listed p) (pid : ℤ) :
    (∃ z s₁, s.Candidate σ p pid z ∧ s.state z = .zombie ∧ Reaped s z s₁ ∧
        s.doWait p pid = some (s₁.setPc p .run)) ∨
      (∀ c, ¬ s.Candidate σ p pid c) ∧ s.doWait p pid = some (s.setPc p .run) ∨
      (∃ c, s.Candidate σ p pid c) ∧ (∀ c, s.Candidate σ p pid c → s.state c ≠ .zombie) ∧
        s.doWait p pid = some (s.sleepChild p pid) := by
  obtain ⟨l, hl, hmem⟩ := hinv.candidates_spec hp pid
  unfold doWait
  rw [hl]
  cases hfind : l.find? fun c => decide (s.state c = .zombie) with
  | some z =>
    left
    have hz := (hmem z).mp (List.mem_of_find?_eq_some hfind)
    have hzz : s.state z = .zombie := by simpa using List.find?_some hfind
    obtain ⟨s₁, hreap, hr⟩ := hinv.reap_spec hup hz.1 hzz
    refine ⟨z, s₁, hz, hzz, hr, ?_⟩
    simp [hfind, hreap]
  | none =>
    right
    have hno : ∀ c, s.Candidate σ p pid c → s.state c ≠ .zombie := by
      intro c hc
      have hcz := List.find?_eq_none.mp hfind c ((hmem c).mpr hc)
      simpa using hcz
    cases l with
    | nil =>
      left
      refine ⟨fun c hc => ?_, ?_⟩
      · cases (hmem c).mpr hc
      · simp
    | cons c l =>
      right
      refine ⟨⟨c, (hmem c).mp List.mem_cons_self⟩, hno, ?_⟩
      simp only [Option.bind_eq_bind, Option.bind_some, hfind]
      exact if_neg (List.cons_ne_nil c l)

end Table

end Ucore.Process
