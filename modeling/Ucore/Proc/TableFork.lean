import Ucore.Proc.TableWait

/-!
# `do_fork` on the process table

`do_fork` allocates a structure, may block while it copies files and memory, and then puts the
structure into the table or frees it.

* `Inv.forkBegin_spec`, `Inv.forkFail_spec` — the structure is outside the table;
* `Inv.forkEnd_spec` — it comes into the table, with a pid that is not in use.
-/

namespace Ucore.Process

open Ksem (ProcState WT_INTERRUPTED)
open Chain (Linked)
open Circular (Ring)
open Equiv (swap)
open Function (update update_of_ne update_self)

namespace Table

variable {s s' : Table} {kids : ℕ → List ℕ} {σ : Equiv.Perm ℕ} {p q c : ℕ} {pid last next : ℤ}

/-- For the processes of the table nothing happens, but that some may be woken. -/
structure Same (s s' : Table) : Prop where
  procList : s'.procList = s.procList
  idleproc : s'.idleproc = s.idleproc
  initproc : s'.initproc = s.initproc
  parent : ∀ q, s.Listed q → s'.parent q = s.parent q
  pid : ∀ q, s.Listed q → s'.pid q = s.pid q
  zombie : ∀ q, s.Listed q → (s'.state q = .zombie ↔ s.state q = .zombie)
  sleeps : ∀ q pid, s'.Sleeps q pid → s.Sleeps q pid

theorem Quiet.same (h : Quiet s s') : Same s s' := by
  refine ⟨?_, ?_, ?_, fun q _ => ?_, fun q _ => ?_, fun q _ => h.zombie q, h.sleeps⟩
  · rw [h.frame]
  · rw [h.frame]
  · rw [h.frame]
  · rw [h.frame]
  · rw [h.frame]

/-- Only the pids of the listed processes matter. -/
theorem Pids.congr (h : Pids s) (hlist : s'.procList = s.procList) (hhash : s'.hashList = s.hashList)
    (hnr : s'.nrProcess = s.nrProcess) (hlast : s'.lastPid = s.lastPid)
    (hnext : s'.nextSafe = s.nextSafe) (hidle : s'.idleproc = s.idleproc)
    (hpid : ∀ p ∈ s.procList, s'.pid p = s.pid p) : Pids s' := by
  have hmap : s'.procList.map s'.pid = s.procList.map s.pid := by
    rw [hlist]
    exact List.map_congr_left hpid
  refine ⟨by rw [hidle, hlist]; exact h.idle, by rw [hlist]; exact h.nodup, fun p hp => ?_,
    fun p hp q hq heq => ?_, fun b p => ?_, fun b => by rw [hhash]; exact h.hashNodup b,
    by rw [hnr, hlist]; exact h.count, by rw [hlast]; exact h.lastPid, ?_⟩
  · rw [hlist] at hp
    rw [hpid p hp]
    exact h.range p hp
  · rw [hlist] at hp hq
    rw [hpid p hp, hpid q hq] at heq
    exact h.inj p hp q hq heq
  · rw [hhash, hlist, h.hash]
    apply and_congr_right
    intro hp
    rw [hpid p hp]
  · rw [hmap, hlast, hnext]
    exact h.clear

/-- Only the links of the listed processes matter. -/
theorem Links.congr (h : Links s kids) (hlist : s'.procList = s.procList)
    (hidle : s'.idleproc = s.idleproc) (hcptr : ∀ p, s.Listed p → s'.cptr p = s.cptr p)
    (hsib : ∀ p ∈ s.procList, s'.optr p = s.optr p ∧ s'.yptr p = s.yptr p)
    (hparent : ∀ p ∈ s.procList, s'.parent p = s.parent p) : Links s' kids := by
  have hlisted : ∀ p, s'.Listed p ↔ s.Listed p := fun p => by
    unfold Listed
    rw [hlist, hidle]
  refine ⟨fun p hp => ?_, fun p hp => h.nodup p ((hlisted p).mp hp), fun p hp c => ?_, fun c hc => ?_⟩
  · have hp := (hlisted p).mp hp
    rw [hcptr p hp]
    exact (h.linked p hp).congr fun c hc => hsib c ((h.mem p hp c).mp hc).1
  · rw [hlist, h.mem p ((hlisted p).mp hp)]
    apply and_congr_right
    intro hc
    rw [hparent c hc]
  · rw [hlist] at hc
    rw [hparent c hc]
    obtain ⟨p, hcp, hp⟩ := h.parent c hc
    exact ⟨p, hcp, (hlisted p).mpr hp⟩

theorem countP_run {l : List ℕ} (f g : ℕ → Bool) (hnodup : l.Nodup) (hp : p ∈ l) (hf : f p = true)
    (hg : g p = false) (hne : ∀ q, q ≠ p → g q = f q) : l.countP g + 1 = l.countP f := by
  induction l with
  | nil => cases hp
  | cons a l ih =>
    obtain ⟨ha, hl⟩ := List.nodup_cons.mp hnodup
    by_cases hap : a = p
    · subst hap
      have hsame : l.countP g = l.countP f :=
        List.countP_congr fun q hq => by
          rw [hne q fun heq => ha (heq ▸ hq)]
      simp [hf, hg, hsame]
    · have hpl : p ∈ l := (List.mem_cons.mp hp).resolve_left (Ne.symm hap)
      have hrec := ih hl hpl
      rw [List.countP_cons, List.countP_cons, hne a hap]
      omega

theorem Inv.notLive (hinv : Inv s kids σ) (hc : s.live c = false) :
    ¬ s.Listed c ∧ ∀ q, s.pc q ≠ .fork c := by
  have hno : ¬ (s.Listed c ∨ ∃ q, s.pc q = .fork c) := by
    rw [← hinv.running.live, hc]
    nofun
  exact ⟨fun hl => hno (Or.inl hl), fun q hq => hno (Or.inr ⟨q, hq⟩)⟩

theorem Inv.listNodup (hinv : Inv s kids σ) : (s.idleproc :: s.procList).Nodup :=
  List.nodup_cons.mpr ⟨hinv.pids.idle, hinv.pids.nodup⟩

theorem Inv.mem_cons (hp : s.Listed p) : p ∈ s.idleproc :: s.procList := List.mem_cons.mpr hp

/-- `do_fork` up to the calls that may block. -/
theorem Inv.forkBegin_spec (hinv : Inv s kids σ) (hp : s.At p .run) (hc : s.live c = false)
    (hnr : s.nrProcess < MAX_PROCESS) :
    ∃ s', s.forkBegin p c = some s' ∧ Inv s' kids σ ∧ Same s s' ∧ s'.pc p = .fork c ∧
      s'.live = update s.live c true := by
  obtain ⟨hpl, hst, hpc⟩ := hp
  obtain ⟨hcl, hcf⟩ := hinv.notLive hc
  have hrun := hinv.running
  have hpw : s.waitState p = 0 := hrun.awake p hpl (by rw [hst]; decide)
  have hne : ∀ q, s.Listed q → q ≠ c := fun q hq heq => hcl (heq ▸ hq)
  have hpcne := hne p hpl
  have hwait : update s.waitState c 0 p = 0 := by rw [update_of_ne hpcne, hpw]
  have hstate : ∀ q, q ≠ c → update s.state c .uninit q = s.state q :=
    fun q hq => update_of_ne hq ..
  have hws : ∀ q, q ≠ c → update s.waitState c 0 q = s.waitState q :=
    fun q hq => update_of_ne hq ..
  have hpar : ∀ q, q ≠ c → update (update s.parent c none) c (some p) q = s.parent q :=
    fun q hq => by rw [update_of_ne hq, update_of_ne hq]
  refine ⟨_, if_pos hwait, ⟨?_, ?_, ?_, ?_⟩, ?_, update_self .., rfl⟩
  · exact hinv.pids.congr rfl rfl rfl rfl rfl rfl fun q hq =>
      update_of_ne (hne q (Or.inr hq)) ..
  · refine hinv.links.congr rfl rfl (fun q hq => update_of_ne (hne q hq) ..)
      (fun q hq => ⟨update_of_ne (hne q (Or.inr hq)) ..,
        update_of_ne (hne q (Or.inr hq)) ..⟩)
      fun q hq => hpar q (hne q (Or.inr hq))
  · exact hinv.ring.congr fun q hq =>
      ⟨update_of_ne (hne q hq) .., update_of_ne (hne q hq) ..⟩
  · refine ⟨?_, fun d hd q hq => ?_, fun q hq hz => ?_, fun q d hq => ?_, fun q d hq => ?_,
      fun q => ?_, ?_, fun q hq hsq => ?_, fun q n hq hqw hsq => ?_⟩
    · show update s.state c .uninit s.idleproc ≠ _
      rw [hstate _ (hne _ (Or.inl rfl))]
      exact hrun.idle
    · have hq : update (update s.parent c none) c (some p) d = some q := hq
      rw [hpar d (hne d (Or.inr hd))] at hq
      obtain ⟨q', hq', hl⟩ := hinv.links.parent d hd
      rw [hq] at hq'
      cases hq'
      show update s.state c .uninit q ≠ _
      rw [hstate q (hne q hl)]
      exact hrun.parent d hd q hq
    · have hz : update s.state c .uninit q = .zombie := hz
      rw [hstate q (hne q hq)] at hz
      exact hrun.zombie q hq hz
    · have hq : update s.pc p (.fork c) q = .fork d := hq
      show s.Listed q ∧ update s.state c .uninit q ≠ _
      by_cases hqp : q = p
      · subst hqp
        rw [hstate q hpcne, hst]
        exact ⟨hpl, nofun⟩
      · rw [update_of_ne hqp] at hq
        obtain ⟨hl, hz⟩ := hrun.forker q d hq
        rw [hstate q (hne q hl)]
        exact ⟨hl, hz⟩
    · have hq : update s.pc p (.fork c) q = .fork d := hq
      by_cases hqp : q = p
      · subst hqp
        rw [update_self] at hq
        cases hq
        exact ⟨hcl, update_self .., update_self .., update_self ..,
          update_self .., update_self .., update_self ..⟩
      · rw [update_of_ne hqp] at hq
        have hf := hrun.fresh q d hq
        have hdc : d ≠ c := fun heq => hcf q (heq ▸ hq)
        exact ⟨hf.out, (hpar d hdc).trans hf.parent, (hstate d hdc).trans hf.state,
          (hws d hdc).trans hf.waitState, (update_of_ne hdc ..).trans hf.cptr,
          (update_of_ne hdc ..).trans hf.next, (update_of_ne hdc ..).trans hf.prev⟩
    · show update s.live c true q = true ↔
        s.Listed q ∨ ∃ r, update s.pc p (.fork c) r = .fork q
      by_cases hqc : q = c
      · subst hqc
        rw [update_self]
        exact ⟨fun _ => Or.inr ⟨p, update_self ..⟩, fun _ => rfl⟩
      · rw [update_of_ne hqc, hrun.live]
        apply or_congr_right
        constructor
        · rintro ⟨r, hr⟩
          have hrp : r ≠ p := by
            rintro rfl
            rw [hpc] at hr
            cases hr
          exact ⟨r, by rw [update_of_ne hrp]; exact hr⟩
        · rintro ⟨r, hr⟩
          by_cases hrp : r = p
          · subst hrp
            rw [update_self] at hr
            cases hr
            exact absurd rfl hqc
          · rw [update_of_ne hrp] at hr
            exact ⟨r, hr⟩
    · show s.nrProcess + (s.idleproc :: s.procList).countP _ ≤ 8190
      have hle : (s.idleproc :: s.procList).countP
          (fun q => (update s.pc p (.fork c) q).forking) ≤
          (s.idleproc :: s.procList).length := List.countP_le_length
      have hcount := hinv.pids.count
      rw [List.length_cons, ← hcount] at hle
      unfold MAX_PROCESS at hnr
      exact (Nat.add_le_add_left hle _).trans (by omega)
    · have hsq : update s.state c .uninit q ≠ .sleeping := hsq
      show update s.waitState c 0 q = 0
      rw [hstate q (hne q hq)] at hsq
      rw [hws q (hne q hq)]
      exact hrun.awake q hq hsq
    · have hsq : update s.state c .uninit q = .sleeping := hsq
      have hqw : update s.pc p (.fork c) q = .wait n := hqw
      show update s.waitState c 0 q = WT_CHILD
      rw [hstate q (hne q hq)] at hsq
      rw [hws q (hne q hq)]
      have hqp : q ≠ p := fun heq => by
        rw [heq, hst] at hsq
        cases hsq
      rw [update_of_ne hqp] at hqw
      exact hrun.waiting q n hq hqw hsq
  · refine ⟨rfl, rfl, rfl, fun q hq => hpar q (hne q hq),
      fun q hq => update_of_ne (hne q hq) .., fun q hq => ?_, fun q n hq => ?_⟩
    · show update s.state c .uninit q = _ ↔ _
      rw [hstate q (hne q hq)]
    · obtain ⟨hl, hsq, hqw⟩ := hq
      have hl : s.Listed q := hl
      have hsq : update s.state c .uninit q = .sleeping := hsq
      have hqw : update s.pc p (.fork c) q = .wait n := hqw
      rw [hstate q (hne q hl)] at hsq
      have hqp : q ≠ p := fun heq => by
        rw [heq, hst] at hsq
        cases hsq
      rw [update_of_ne hqp] at hqw
      exact ⟨hl, hsq, hqw⟩

/-! ## The new process -/

/-- The table after a `do_fork` of `p` has put `c` into it. -/
def forkedTable (s : Table) (p c : ℕ) (cloneFlags : UInt32) (last next : ℤ) : Table :=
  { s with
    pid := update s.pid c last
    lastPid := last
    nextSafe := next
    hashList := update s.hashList (pidHashfn last) (c :: s.hashList (pidHashfn last))
    procList := c :: s.procList
    yptr := Chain.assign (update s.yptr c none) (s.cptr p) (some c)
    optr := update s.optr c (s.cptr p)
    cptr := update s.cptr p (some c)
    nrProcess := s.nrProcess + 1
    nextThread :=
      if cloneFlags &&& CLONE_THREAD ≠ 0 then Circular.addNext s.nextThread s.prevThread p c
      else s.nextThread
    prevThread :=
      if cloneFlags &&& CLONE_THREAD ≠ 0 then Circular.addPrev s.prevThread p c else s.prevThread
    state := update s.state c .runnable
    waitState := update s.waitState c 0
    pc := update s.pc p .run }

/-- The thread groups after a `do_fork`. -/
def forkedGroup (σ : Equiv.Perm ℕ) (p c : ℕ) (cloneFlags : UInt32) : Equiv.Perm ℕ :=
  if cloneFlags &&& CLONE_THREAD ≠ 0 then swap c p * σ else σ

theorem Inv.getPid_spec (hinv : Inv s kids σ) :
    ∃ last next, getPid (s.procList.map s.pid) s.lastPid s.nextSafe = some (last, next) ∧
      1 ≤ last ∧ last < MAX_PID ∧ last ∉ s.procList.map s.pid ∧
      Clear (s.procList.map s.pid) (last + 1) next := by
  have hlen : ((s.procList.map s.pid).length : ℤ) < MAX_PID - 1 := by
    have hroom := hinv.running.room
    have hcount := hinv.pids.count
    rw [List.length_map]
    unfold MAX_PID
    omega
  obtain ⟨free, hpos, hmax, hfree⟩ := exists_free hlen
  exact Process.getPid_spec hpos hmax hfree hinv.pids.lastPid hinv.pids.clear

/-- `do_fork` from `get_pid` on runs through. -/
theorem Inv.forkEnd_runs (hinv : Inv s kids σ) (hpc : s.pc p = .fork c) (cloneFlags : UInt32) :
    ∃ last next, s.forkEnd p c cloneFlags = some (s.forkedTable p c cloneFlags last next) ∧
      1 ≤ last ∧ last < MAX_PID ∧ last ∉ s.procList.map s.pid ∧
      Clear (s.procList.map s.pid) (last + 1) next := by
  have hf := hinv.running.fresh p c hpc
  obtain ⟨last, next, hget, hpos, hmax, hnew, hclear⟩ := hinv.getPid_spec
  refine ⟨last, next, ?_, hpos, hmax, hnew, hclear⟩
  let s₂ : Table :=
    { s with
      pid := update s.pid c last
      lastPid := last
      nextSafe := next
      hashList := update s.hashList (pidHashfn last) (c :: s.hashList (pidHashfn last)) }
  let s₃ : Table :=
    { s₂ with
      procList := c :: s.procList
      yptr := Chain.assign (update s.yptr c none) (s.cptr p) (some c)
      optr := update s.optr c (s.cptr p)
      cptr := update s.cptr p (some c)
      nrProcess := s.nrProcess + 1 }
  have hhash : ({ s with
      pid := update s.pid c last
      lastPid := last
      nextSafe := next } : Table).hashProc c = s₂ := by
    simp [hashProc, s₂]
  have hset : s₂.setLinks c = some s₃ := by
    have hparent : s₂.parent c = some p := hf.parent
    unfold setLinks
    rw [hparent]
    rfl
  have hwake : ∀ t : Table, t.state = s.state → t.waitState = s.waitState →
      t.wakeupProc c = some { t with
        state := update s.state c .runnable
        waitState := update s.waitState c 0 } := by
    intro t hst hws
    unfold wakeupProc
    rw [hst, hws, hf.state, if_neg (by decide), if_pos (by decide)]
  unfold forkEnd
  rw [hget]
  show ((Table.hashProc _ c).setLinks c).bind _ = _
  rw [hhash, hset]
  show (Table.wakeupProc (if cloneFlags &&& CLONE_THREAD ≠ 0 then s₃.addThread p c else s₃) c).bind _ = _
  by_cases hthread : cloneFlags &&& CLONE_THREAD ≠ 0
  · rw [if_pos hthread, hwake (s₃.addThread p c) rfl rfl]
    unfold forkedTable
    rw [if_pos hthread, if_pos hthread]
    rfl
  · rw [if_neg hthread, hwake s₃ rfl rfl]
    unfold forkedTable
    rw [if_neg hthread, if_neg hthread]
    rfl

section Forked

variable {cloneFlags : UInt32}

theorem forkedTable_listed : (s.forkedTable p c cloneFlags last next).Listed q ↔ s.Listed q ∨ q = c := by
  show q = s.idleproc ∨ q ∈ c :: s.procList ↔ (q = s.idleproc ∨ q ∈ s.procList) ∨ q = c
  rw [List.mem_cons]
  tauto

theorem forkedTable_sleeps (h : (s.forkedTable p c cloneFlags last next).Sleeps q pid) :
    q ≠ c ∧ s.Sleeps q pid := by
  obtain ⟨hl, hst, hpc⟩ := h
  have hst : update s.state c .runnable q = .sleeping := hst
  have hpc : update s.pc p .run q = .wait pid := hpc
  have hqc : q ≠ c := fun heq => by
    rw [heq, update_self] at hst
    cases hst
  have hqp : q ≠ p := fun heq => by
    rw [heq, update_self] at hpc
    cases hpc
  rw [update_of_ne hqc] at hst
  rw [update_of_ne hqp] at hpc
  exact ⟨hqc, (forkedTable_listed.mp hl).resolve_right hqc, hst, hpc⟩

theorem Inv.forked_pids (hinv : Inv s kids σ) (hc : ¬ s.Listed c) (hpos : 1 ≤ last)
    (hmax : last < MAX_PID) (hnew : last ∉ s.procList.map s.pid)
    (hclear : Clear (s.procList.map s.pid) (last + 1) next) :
    Pids (s.forkedTable p c cloneFlags last next) := by
  have hpids := hinv.pids
  have hcl : c ∉ s.procList := fun hmem => hc (Or.inr hmem)
  have hne : ∀ q ∈ s.procList, q ≠ c := fun q hq heq => hcl (heq ▸ hq)
  have hpid : ∀ q ∈ s.procList, update s.pid c last q = s.pid q := fun q hq =>
    update_of_ne (hne q hq) ..
  have hself : update s.pid c last c = last := update_self ..
  have hlast : ∀ q ∈ s.procList, s.pid q ≠ last := fun q hq heq =>
    hnew (heq ▸ List.mem_map_of_mem hq)
  have hch : ∀ b, c ∉ s.hashList b := fun b hmem => hcl ((hpids.hash b c).mp hmem).1
  refine ⟨fun hmem => ?_, List.nodup_cons.mpr ⟨hcl, hpids.nodup⟩, fun q hq => ?_,
    fun q hq r hr heq => ?_, fun b q => ?_, fun b => ?_, ?_, hpos, fun n hn => ?_⟩
  · rcases List.mem_cons.mp hmem with heq | hmem
    · exact hc (Or.inl heq.symm)
    · exact hpids.idle hmem
  · show 1 ≤ update s.pid c last q ∧ update s.pid c last q < MAX_PID
    rcases List.mem_cons.mp hq with rfl | hq
    · rw [update_self]
      exact ⟨hpos, hmax⟩
    · rw [hpid q hq]
      exact hpids.range q hq
  · have heq : update s.pid c last q = update s.pid c last r := heq
    rcases List.mem_cons.mp hq with hqc | hql
    · rcases List.mem_cons.mp hr with hrc | hrl
      · rw [hqc, hrc]
      · rw [hqc, hself, hpid r hrl] at heq
        exact absurd heq.symm (hlast r hrl)
    · rcases List.mem_cons.mp hr with hrc | hrl
      · rw [hrc, hself, hpid q hql] at heq
        exact absurd heq (hlast q hql)
      · rw [hpid q hql, hpid r hrl] at heq
        exact hpids.inj q hql r hrl heq
  · show q ∈ update s.hashList (pidHashfn last) (c :: s.hashList (pidHashfn last)) b ↔
      q ∈ c :: s.procList ∧ pidHashfn (update s.pid c last q) = b
    have hmem : q ∈ update s.hashList (pidHashfn last) (c :: s.hashList (pidHashfn last)) b ↔
        q ∈ s.hashList b ∨ q = c ∧ b = pidHashfn last := by
      by_cases hb : b = pidHashfn last
      · subst hb
        rw [update_self, List.mem_cons]
        tauto
      · rw [update_of_ne hb]
        tauto
    rw [hmem, hpids.hash, List.mem_cons]
    by_cases hqc : q = c
    · subst hqc
      rw [hself]
      simp [hcl, eq_comm]
    · rw [update_of_ne hqc]
      simp [hqc]
  · show (update s.hashList (pidHashfn last) (c :: s.hashList (pidHashfn last)) b).Nodup
    by_cases hb : b = pidHashfn last
    · subst hb
      rw [update_self]
      exact List.nodup_cons.mpr ⟨hch _, hpids.hashNodup _⟩
    · rw [update_of_ne hb]
      exact hpids.hashNodup b
  · show s.nrProcess + 1 = (c :: s.procList).length + 1
    rw [hpids.count, List.length_cons]
  · obtain ⟨q, hq, rfl⟩ := List.mem_map.mp hn
    show update s.pid c last q < last + 1 ∨ next ≤ update s.pid c last q
    rcases List.mem_cons.mp hq with rfl | hq
    · rw [update_self]
      left
      omega
    · rw [hpid q hq]
      exact hclear _ (List.mem_map_of_mem hq)

/-- The children of each process after a `do_fork`. -/
def kidsForked (kids : ℕ → List ℕ) (p c q : ℕ) : List ℕ :=
  if q = p then c :: kids p else if q = c then [] else kids q

theorem Inv.forked_links (hinv : Inv s kids σ) (hp : s.Listed p) (hf : s.Fresh p c) :
    Links (s.forkedTable p c cloneFlags last next) (kidsForked kids p c) := by
  have hlinks := hinv.links
  have hcl : c ∉ s.procList := fun hmem => hf.out (Or.inr hmem)
  have hck : ∀ q, s.Listed q → c ∉ kids q := fun q hq hmem => hcl ((hlinks.mem q hq c).mp hmem).1
  have hne : ∀ q, s.Listed q → q ≠ c := fun q hq heq => hf.out (heq ▸ hq)
  refine ⟨fun q hq => ?_, fun q hq => ?_, fun q hq d => ?_, fun d hd => ?_⟩
  · show Linked (update s.optr c (s.cptr p))
      (Chain.assign (update s.yptr c none) (s.cptr p) (some c)) none
      (update s.cptr p (some c) q) _
    unfold kidsForked
    by_cases hqp : q = p
    · subst hqp
      rw [if_pos rfl, update_self]
      exact (hlinks.linked q hp).push (hlinks.nodup q hp) (hck q hp)
    rw [if_neg hqp, update_of_ne hqp]
    by_cases hqc : q = c
    · subst hqc
      rw [if_pos rfl]
      exact hf.cptr
    · rw [if_neg hqc]
      have hq := (forkedTable_listed.mp hq).resolve_right hqc
      refine (hlinks.linked q hq).congr fun a ha => ?_
      have hac : a ≠ c := fun heq => hck q hq (heq ▸ ha)
      refine ⟨update_of_ne hac .., ?_⟩
      rw [Chain.assign_of_ne, update_of_ne hac]
      rw [(hlinks.linked p hp).head_eq]
      exact fun heq => hlinks.disjoint hq hp hqp ha (List.mem_of_mem_head? heq)
  · unfold kidsForked
    split
    · exact List.nodup_cons.mpr ⟨hck p hp, hlinks.nodup p hp⟩
    split
    · exact List.nodup_nil
    · rename_i hqc
      exact hlinks.nodup q ((forkedTable_listed.mp hq).resolve_right hqc)
  · show d ∈ kidsForked kids p c q ↔ d ∈ c :: s.procList ∧ s.parent d = some q
    unfold kidsForked
    by_cases hqp : q = p
    · subst hqp
      rw [if_pos rfl, List.mem_cons, List.mem_cons, hlinks.mem q hp]
      constructor
      · rintro (rfl | ⟨hd, hdq⟩)
        · exact ⟨Or.inl rfl, hf.parent⟩
        · exact ⟨Or.inr hd, hdq⟩
      · rintro ⟨rfl | hd, hdq⟩
        · exact Or.inl rfl
        · exact Or.inr ⟨hd, hdq⟩
    rw [if_neg hqp]
    have hcq : s.parent c ≠ some q := by
      rw [hf.parent]
      exact fun heq => hqp (Option.some.inj heq).symm
    by_cases hqc : q = c
    · subst hqc
      rw [if_pos rfl]
      constructor
      · nofun
      · rintro ⟨hd, hdq⟩
        rcases List.mem_cons.mp hd with rfl | hd
        · exact absurd hdq hcq
        · obtain ⟨r, hdr, hr⟩ := hlinks.parent d hd
          rw [hdq] at hdr
          cases hdr
          exact absurd hr hf.out
    · rw [if_neg hqc, hlinks.mem q ((forkedTable_listed.mp hq).resolve_right hqc), List.mem_cons]
      constructor
      · exact fun hd => ⟨Or.inr hd.1, hd.2⟩
      · rintro ⟨rfl | hd, hdq⟩
        · exact absurd hdq hcq
        · exact ⟨hd, hdq⟩
  · show ∃ q, s.parent d = some q ∧ _
    rcases List.mem_cons.mp hd with rfl | hd
    · exact ⟨p, hf.parent, forkedTable_listed.mpr (Or.inl hp)⟩
    · obtain ⟨q, hdq, hq⟩ := hlinks.parent d hd
      exact ⟨q, hdq, forkedTable_listed.mpr (Or.inl hq)⟩

theorem Inv.forked_ring (hinv : Inv s kids σ) (hp : s.Listed p) (hf : s.Fresh p c) :
    Ring (s.forkedTable p c cloneFlags last next).Listed
      (s.forkedTable p c cloneFlags last next).nextThread
      (s.forkedTable p c cloneFlags last next).prevThread (forkedGroup σ p c cloneFlags) := by
  have hlisted : ∀ q, (s.forkedTable p c cloneFlags last next).Listed q ↔ s.Listed q ∨ q = c :=
    fun q => forkedTable_listed
  unfold forkedGroup
  by_cases hthread : cloneFlags &&& CLONE_THREAD ≠ 0
  · have hnext : (s.forkedTable p c cloneFlags last next).nextThread =
        Circular.addNext s.nextThread s.prevThread p c := if_pos hthread
    have hprev : (s.forkedTable p c cloneFlags last next).prevThread =
        Circular.addPrev s.prevThread p c := if_pos hthread
    rw [if_pos hthread, hnext, hprev]
    exact (hinv.ring.addBefore hp hf.out).of_iff hlisted
  · have hnext : (s.forkedTable p c cloneFlags last next).nextThread = s.nextThread := if_neg hthread
    have hprev : (s.forkedTable p c cloneFlags last next).prevThread = s.prevThread := if_neg hthread
    rw [if_neg hthread, hnext, hprev]
    exact (hinv.ring.alone hf.out hf.next hf.prev).of_iff hlisted

theorem forkedGroup_fixed (hqc : q ≠ c) (hqp : q ≠ p) (hq : σ q = q) :
    forkedGroup σ p c cloneFlags q = q := by
  unfold forkedGroup
  split
  · rw [Equiv.Perm.mul_apply, hq, Equiv.swap_apply_of_ne_of_ne hqc hqp]
  · exact hq

/-- The links of the group of a process that is not in the table stay. -/
theorem Fresh.forked_ring (cloneFlags : UInt32) (last next : ℤ) (hinv : Inv s kids σ) {d : ℕ}
    (hf : s.Fresh q d) (hp : s.Listed p) (hdc : d ≠ c) :
    (s.forkedTable p c cloneFlags last next).nextThread d = d ∧
      (s.forkedTable p c cloneFlags last next).prevThread d = d := by
  have hdp : d ≠ p := fun heq => hf.out (heq ▸ hp)
  have hprev : d ≠ s.prevThread p := by
    rintro rfl
    refine hf.out ?_
    rw [hinv.ring.prev p hp]
    exact hinv.ring.mem_symm hp
  constructor
  · show (if cloneFlags &&& CLONE_THREAD ≠ 0 then _ else _ : ℕ → ℕ) d = d
    split
    · unfold Circular.addNext
      rw [update_of_ne hdc, update_of_ne hprev]
      exact hf.next
    · exact hf.next
  · show (if cloneFlags &&& CLONE_THREAD ≠ 0 then _ else _ : ℕ → ℕ) d = d
    split
    · unfold Circular.addPrev
      rw [update_of_ne hdc, update_of_ne hdp]
      exact hf.prev
    · exact hf.prev

theorem Inv.forked_running (hinv : Inv s kids σ) (hpc : s.pc p = .fork c) :
    Running (s.forkedTable p c cloneFlags last next) (forkedGroup σ p c cloneFlags) := by
  have hrun := hinv.running
  obtain ⟨hp, hpz⟩ := hrun.forker p c hpc
  have hf := hrun.fresh p c hpc
  have hne : ∀ q, s.Listed q → q ≠ c := fun q hq heq => hf.out (heq ▸ hq)
  have hstate : ∀ q, q ≠ c → update s.state c .runnable q = s.state q :=
    fun q hq => update_of_ne hq ..
  have hself : update s.state c .runnable c = .runnable := update_self ..
  have hcpc : ∀ d, s.pc c ≠ .fork d := fun d hd => hf.out (hrun.forker c d hd).1
  -- nobody else forks `c`
  have honly : ∀ q d, update s.pc p .run q = .fork d → q ≠ p ∧ s.pc q = .fork d ∧ d ≠ c := by
    intro q d hq
    have hqp : q ≠ p := by
      rintro rfl
      rw [update_self] at hq
      cases hq
    rw [update_of_ne hqp] at hq
    refine ⟨hqp, hq, ?_⟩
    rintro rfl
    have hparent := (hrun.fresh q d hq).parent
    rw [hf.parent] at hparent
    exact hqp (Option.some.inj hparent).symm
  refine ⟨?_, fun d hd q hdq => ?_, fun q hq hz => ?_, fun q d hq => ?_, fun q d hq => ?_, fun q => ?_,
    ?_, fun q hq hst => ?_, fun q n hq hqw hst => ?_⟩
  · show update s.state c .runnable s.idleproc ≠ _
    rw [hstate _ (hne _ (Or.inl rfl))]
    exact hrun.idle
  · have hdq : s.parent d = some q := hdq
    show update s.state c .runnable q ≠ _
    rcases List.mem_cons.mp hd with heq | hd
    · rw [heq, hf.parent] at hdq
      cases hdq
      rw [hstate p (hne p hp)]
      exact hpz
    · obtain ⟨q', hdq', hq⟩ := hinv.links.parent d hd
      rw [hdq] at hdq'
      cases hdq'
      rw [hstate q (hne q hq)]
      exact hrun.parent d hd q hdq
  · have hz : update s.state c .runnable q = .zombie := hz
    have hqc : q ≠ c := by
      rintro rfl
      rw [update_self] at hz
      cases hz
    rw [hstate q hqc] at hz
    have hqp : q ≠ p := fun heq => hpz (heq ▸ hz)
    exact forkedGroup_fixed hqc hqp
      (hrun.zombie q ((forkedTable_listed.mp hq).resolve_right hqc) hz)
  · obtain ⟨-, hq, -⟩ := honly q d hq
    obtain ⟨hl, hz⟩ := hrun.forker q d hq
    show _ ∧ update s.state c .runnable q ≠ _
    rw [hstate q (hne q hl)]
    exact ⟨forkedTable_listed.mpr (Or.inl hl), hz⟩
  · obtain ⟨-, hq, hdc⟩ := honly q d hq
    have hfd := hrun.fresh q d hq
    obtain ⟨hnext, hprev⟩ := Fresh.forked_ring cloneFlags last next hinv hfd hp hdc
    have hdp : d ≠ p := fun heq => hfd.out (heq ▸ hp)
    refine ⟨fun hl => ?_, hfd.parent, (hstate d hdc).trans hfd.state,
      (update_of_ne hdc ..).trans hfd.waitState, (update_of_ne hdp ..).trans hfd.cptr,
      hnext, hprev⟩
    rcases forkedTable_listed.mp hl with hl | heq
    · exact hfd.out hl
    · exact hdc heq
  · show s.live q = true ↔ _
    rw [forkedTable_listed, hrun.live]
    constructor
    · rintro (hl | ⟨r, hr⟩)
      · exact Or.inl (Or.inl hl)
      · by_cases hrp : r = p
        · subst hrp
          rw [hpc] at hr
          cases hr
          exact Or.inl (Or.inr rfl)
        · refine Or.inr ⟨r, ?_⟩
          show update s.pc p .run r = _
          rw [update_of_ne hrp]
          exact hr
    · rintro ((hl | rfl) | ⟨r, hr⟩)
      · exact Or.inl hl
      · exact Or.inr ⟨p, hpc⟩
      · exact Or.inr ⟨r, (honly r q hr).2.1⟩
  · show s.nrProcess + 1 + (s.idleproc :: c :: s.procList).countP
      (fun q => (update s.pc p .run q).forking) ≤ 8190
    have hcount := countP_run s.forking (fun q => (update s.pc p .run q).forking)
      hinv.listNodup (mem_cons hp) (Pc.forking_iff.mpr ⟨c, hpc⟩) (by rw [update_self]; rfl)
      fun q hq => by rw [update_of_ne hq]; rfl
    have hcno : ¬ (update s.pc p .run c).forking = true := by
      rw [update_of_ne (hne p hp).symm, Pc.forking_iff]
      rintro ⟨d, hd⟩
      exact hcpc d hd
    have hroom := hrun.room
    rw [List.countP_cons] at hcount
    rw [List.countP_cons, List.countP_cons, if_neg hcno]
    omega
  · have hst : update s.state c .runnable q ≠ .sleeping := hst
    show update s.waitState c 0 q = 0
    by_cases hqc : q = c
    · rw [hqc, update_self]
    · rw [hstate q hqc] at hst
      rw [update_of_ne hqc]
      exact hrun.awake q ((forkedTable_listed.mp hq).resolve_right hqc) hst
  · have hst : update s.state c .runnable q = .sleeping := hst
    have hqw : update s.pc p .run q = .wait n := hqw
    have hqc : q ≠ c := fun heq => by
      rw [heq, hself] at hst
      cases hst
    have hqp : q ≠ p := fun heq => by
      rw [heq, update_self] at hqw
      cases hqw
    rw [hstate q hqc] at hst
    rw [update_of_ne hqp] at hqw
    show update s.waitState c 0 q = WT_CHILD
    rw [update_of_ne hqc]
    exact hrun.waiting q n ((forkedTable_listed.mp hq).resolve_right hqc) hqw hst

end Forked

/-- **`do_fork`** from `get_pid` on. -/
theorem Inv.forkEnd_spec (hinv : Inv s kids σ) (hpc : s.pc p = .fork c) (cloneFlags : UInt32) :
    ∃ last next, s.forkEnd p c cloneFlags = some (s.forkedTable p c cloneFlags last next) ∧
      last ∉ s.procList.map s.pid ∧ 1 ≤ last ∧
      Inv (s.forkedTable p c cloneFlags last next) (kidsForked kids p c)
        (forkedGroup σ p c cloneFlags) := by
  obtain ⟨hp, -⟩ := hinv.running.forker p c hpc
  have hf := hinv.running.fresh p c hpc
  obtain ⟨last, next, hrun, hpos, hmax, hnew, hclear⟩ := hinv.forkEnd_runs hpc cloneFlags
  exact ⟨last, next, hrun, hnew, hpos, hinv.forked_pids hf.out hpos hmax hnew hclear,
    hinv.forked_links hp hf, hinv.forked_ring hp hf, hinv.forked_running hpc⟩

/-- The end of a **`do_fork`** that fails. -/
theorem Inv.forkFail_spec (hinv : Inv s kids σ) (hpc : s.pc p = .fork c) :
    ∃ s', s.forkFail p c = some s' ∧ Inv s' kids σ ∧ Same s s' ∧
      s'.live = update s.live c false := by
  have hrun := hinv.running
  have hf := hrun.fresh p c hpc
  obtain ⟨hp, -⟩ := hrun.forker p c hpc
  have hlive : s.live c = true := (hrun.live c).mpr (Or.inr ⟨p, hpc⟩)
  have honly : ∀ q d, update s.pc p .run q = .fork d → s.pc q = .fork d ∧ d ≠ c := by
    intro q d hq
    have hqp : q ≠ p := fun heq => by
      rw [heq, update_self] at hq
      cases hq
    rw [update_of_ne hqp] at hq
    refine ⟨hq, fun heq => ?_⟩
    have hparent := (hrun.fresh q d hq).parent
    rw [heq, hf.parent] at hparent
    exact hqp (Option.some.inj hparent).symm
  have hwaits : ∀ q n, update s.pc p .run q = .wait n → s.pc q = .wait n := by
    intro q n hq
    have hqp : q ≠ p := fun heq => by
      rw [heq, update_self] at hq
      cases hq
    rwa [update_of_ne hqp] at hq
  refine ⟨{ s with live := update s.live c false, pc := update s.pc p .run }, ?_,
    ⟨⟨hinv.pids.idle, hinv.pids.nodup, hinv.pids.range, hinv.pids.inj, hinv.pids.hash,
      hinv.pids.hashNodup, hinv.pids.count, hinv.pids.lastPid, hinv.pids.clear⟩,
      ⟨hinv.links.linked, hinv.links.nodup, hinv.links.mem, hinv.links.parent⟩, hinv.ring, ?_⟩, ?_, rfl⟩
  · unfold forkFail kfree
    rw [if_pos hlive]
    rfl
  · refine ⟨hrun.idle, hrun.parent, hrun.zombie, fun q d hq => hrun.forker q d (honly q d hq).1,
      fun q d hq => ?_, fun q => ?_, ?_, hrun.awake, fun q n hq hqw => hrun.waiting q n hq (hwaits q n hqw)⟩
    · have hfd := hrun.fresh q d (honly q d hq).1
      exact ⟨hfd.out, hfd.parent, hfd.state, hfd.waitState, hfd.cptr, hfd.next, hfd.prev⟩
    · show update s.live c false q = true ↔
        s.Listed q ∨ ∃ r, update s.pc p .run r = .fork q
      by_cases hqc : q = c
      · subst hqc
        rw [update_self]
        constructor
        · nofun
        · rintro (hl | ⟨r, hr⟩)
          · exact absurd hl hf.out
          · exact absurd rfl (honly r q hr).2
      · rw [update_of_ne hqc, hrun.live]
        apply or_congr_right
        constructor
        · rintro ⟨r, hr⟩
          have hrp : r ≠ p := fun heq => by
            rw [heq, hpc] at hr
            cases hr
            exact hqc rfl
          exact ⟨r, by rw [update_of_ne hrp]; exact hr⟩
        · rintro ⟨r, hr⟩
          exact ⟨r, (honly r q hr).1⟩
    · have hcount := countP_run s.forking
        (fun q => (update s.pc p .run q).forking) hinv.listNodup (mem_cons hp)
        (Pc.forking_iff.mpr ⟨c, hpc⟩) (by rw [update_self]; rfl)
        fun q hq => by rw [update_of_ne hq]; rfl
      have hroom := hrun.room
      show s.nrProcess + (s.idleproc :: s.procList).countP
        (fun q => (update s.pc p .run q).forking) ≤ 8190
      omega
  · exact ⟨rfl, rfl, rfl, fun _ _ => rfl, fun _ _ => rfl, fun _ _ => Iff.rfl,
      fun q n hq => ⟨hq.1, hq.2.1, hwaits q n hq.2.2⟩⟩

end Table

end Ucore.Process
