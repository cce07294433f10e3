import Mathlib.Logic.Relation
import Ucore.Proc.TableRun

/-!
# The hierarchy of the processes

A process that exits hands its children to the next thread of its group.  That thread may be one of
the children, or below one of them, and then it becomes its own ancestor.  `do_wait(0)` looks at the
children of every thread of the group of the caller, and finds the caller itself if its parent is one
of them.

* `Does.tree` — one step: the hierarchy stays a tree unless the heir is below the process that exits;
* `process_tree` — every run in which no step is of these two kinds.
-/

namespace Ucore.Process

open Circular (Ring)
open Equiv (swap)
open Relation (ReflTransGen TransGen)

namespace Table

variable {s s' : Table} {kids : ℕ → List ℕ} {σ σ' : Equiv.Perm ℕ} {p q c : ℕ} {a : Action}

/-- `p` is the parent of `c`. -/
def IsParent (s : Table) (c p : ℕ) : Prop := s.parent c = some p

/-- From every process the parents lead to `idleproc`. -/
def Tree (s : Table) : Prop := ∀ p, s.Listed p → ReflTransGen s.IsParent p s.idleproc

/-- The steps after which the hierarchy is a tree and in which `do_wait(0)` does not count the caller:
the next thread of a process that exits is not below it, and the parent of the caller of `do_wait(0)`
is not in its thread group. -/
structure TreeStep (s : Table) (a : Action) : Prop where
  exit : ∀ p, s.ExitsBy a p → s.nextThread p ≠ p → ¬ TransGen s.IsParent (s.nextThread p) p
  wait : ∀ p, s.Waits a p 0 → ∀ ts, s.threads p = some ts → ∀ t ∈ ts, s.parent p ≠ some t

theorem Links.parent_listed (hlinks : Links s kids) (hup : s.InitUp) (hp : s.Listed p)
    (hpq : s.IsParent p q) : p ∈ s.procList ∧ s.Listed q := by
  have hmem : p ∈ s.procList := by
    refine hp.resolve_left fun heq => ?_
    rw [heq] at hpq
    have hroot : s.parent s.idleproc = some q := hpq
    rw [hup.root] at hroot
    cases hroot
  obtain ⟨q', hq', hl⟩ := hlinks.parent p hmem
  have heq : s.parent p = some q := hpq
  rw [heq] at hq'
  cases hq'
  exact ⟨hmem, hl⟩

theorem no_parent (hup : s.InitUp) : ¬ s.IsParent s.idleproc q := fun hq => by
  have hroot : s.parent s.idleproc = some q := hq
  rw [hup.root] at hroot
  cases hroot

/-- A process from which the parents lead to `idleproc` is not its own ancestor. -/
theorem acyclic_of_reach (hup : s.InitUp) (hp : ReflTransGen s.IsParent p s.idleproc) :
    ¬ TransGen s.IsParent p p := by
  induction hp using ReflTransGen.head_induction_on with
  | refl =>
    intro hcycle
    obtain ⟨q, hq, -⟩ := TransGen.head'_iff.mp hcycle
    exact no_parent hup hq
  | @head p q hpq _ ih =>
    -- the cycle goes through the parent
    intro hcycle
    obtain ⟨q', hpq', hback⟩ := TransGen.head'_iff.mp hcycle
    have hsame : q' = q := Option.some.inj (Eq.trans (Eq.symm hpq') hpq)
    subst hsame
    exact ih (TransGen.tail' hback hpq)

/-- The same parents, for processes that were there. -/
theorem Tree.mono (htree : Tree s) (hlinks : Links s kids) (hup : s.InitUp)
    (hlisted : ∀ p, s'.Listed p → s.Listed p) (hidle : s'.idleproc = s.idleproc)
    (hparent : ∀ p, s.Listed p → s'.parent p = s.parent p) : Tree s' := by
  intro p hp
  replace hp := hlisted p hp
  have hreach := htree p hp
  rw [hidle]
  induction hreach using ReflTransGen.head_induction_on with
  | refl => exact .refl
  | head hpq _ ih =>
    refine ReflTransGen.head ?_ (ih (hlinks.parent_listed hup hp hpq).2)
    exact (hparent _ hp).trans hpq

/-- What is not below `p` keeps its ancestors when `p` exits. -/
theorem Exits.reach_above (hx : Exits s kids σ p s') (hlinks : Links s kids) (hup : s.InitUp)
    (hp : s.Listed p) (hq : s.Listed q) (hreach : ReflTransGen s.IsParent q s.idleproc)
    (hout : ¬ ReflTransGen s.IsParent q p) : ReflTransGen s'.IsParent q s.idleproc := by
  induction hreach using ReflTransGen.head_induction_on with
  | refl => exact .refl
  | head hqr _ ih =>
    refine ReflTransGen.head ?_ (ih (hlinks.parent_listed hup hq hqr).2 fun hr => hout (.head hqr hr))
    have hno : _ ∉ kids p := fun hk => hout (.single ((hlinks.mem p hp _).mp hk).2)
    show s'.parent _ = _
    rw [hx.parent, if_neg hno]
    exact hqr

/-- The heir is not below the process that exits. -/
theorem Inv.heir_above (hinv : Inv s kids σ) (hup : s.InitUp) (hp : p ∈ s.procList)
    (hpi : p ≠ s.initproc) (hstep : s.nextThread p ≠ p → ¬ TransGen s.IsParent (s.nextThread p) p) :
    ¬ ReflTransGen s.IsParent (s.heir p) p := by
  unfold heir
  split
  · intro hreach
    rcases hreach.cases_head with heq | ⟨q, hq, hreach⟩
    · exact hpi heq.symm
    · have hq : s.parent s.initproc = some q := hq
      rw [hup.parent] at hq
      cases hq
      rcases hreach.cases_head with heq | ⟨r, hr, -⟩
      · exact hinv.pids.idle (heq ▸ hp)
      · exact no_parent hup hr
  · rename_i hne
    intro hreach
    rcases Relation.reflTransGen_iff_eq_or_transGen.mp hreach with heq | htrans
    · exact hne heq.symm
    · exact hstep hne htrans

/-- **A step** keeps the tree. -/
theorem Does.tree (hdoes : Does s kids σ a s' σ') (hinv : Inv s kids σ) (hup : s.InitUp)
    (htree : Tree s) (hstep : s.TreeStep a) : Tree s' := by
  have hlinks := hinv.links
  cases hdoes with
  | same h =>
    refine htree.mono hlinks hup (fun p hp => ?_) h.idleproc h.parent
    unfold Listed at hp ⊢
    rwa [h.procList, h.idleproc] at hp
  | slept p pid => exact htree
  | reaped p z pid _ hz _ hr =>
    refine htree.mono hlinks hup (fun q hq => ?_) ?_ fun q hq => ?_
    · exact ((hr.listed_iff hinv.pids hz.1).mp hq).1
    · rw [hr.frame]
      rfl
    · rw [hr.frame]
      rfl
  | forked p c cloneFlags last next _ hp _ hf =>
    intro q hq
    rcases forkedTable_listed.mp hq with hq | rfl
    · exact htree q hq
    · exact ReflTransGen.head hf.parent (htree p hp)
  | exited p exitCode ha hp hpi _ hx =>
    have hinv₀ := hinv.setExitCode exitCode
    have hup₀ : { s with exitCode := exitCode }.InitUp := ⟨hup.mem, hup.up, hup.parent, hup.root⟩
    have hidle : s'.idleproc = s.idleproc := by rw [hx.frame]
    have hheir := hinv₀.heir_above hup₀ hp hpi (hstep.exit p ha)
    obtain ⟨-, hhl, -⟩ := hinv₀.heir_spec hup₀ (Or.inr hp) hpi
    have htop := hx.reach_above hinv₀.links hup₀ (Or.inr hp) hhl (htree _ hhl) hheir
    intro q hq
    replace hq : s.Listed q := by
      unfold Listed at hq ⊢
      rw [hx.frame] at hq
      exact hq
    have hreach := htree q hq
    rw [hidle]
    induction hreach using ReflTransGen.head_induction_on with
    | refl => exact .refl
    | @head q r hqr _ ih =>
      have hparent := hx.parent q
      by_cases hk : q ∈ kids p
      · rw [if_pos hk] at hparent
        exact ReflTransGen.head hparent htop
      · rw [if_neg hk] at hparent
        exact ReflTransGen.head (hparent.trans hqr) (ih (hlinks.parent_listed hup hq hqr).2)
  | execed p => exact htree

/-- `do_wait(0)` counts the caller exactly if its parent is in its thread group. -/
theorem Inv.waits_self_iff (hinv : Inv s kids σ) (hp : p ∈ s.procList) {l ts : List ℕ}
    (hl : s.candidates p 0 = some l) (hts : s.threads p = some ts) :
    p ∈ l ↔ ∃ t ∈ ts, s.parent p = some t := by
  obtain ⟨l', hl', hmem⟩ := hinv.candidates_spec (Or.inr hp) 0
  obtain ⟨ts', hts', -, hgroup⟩ := hinv.threads_spec (Or.inr hp)
  rw [hl] at hl'
  obtain rfl := Option.some.inj hl'
  rw [hts] at hts'
  obtain rfl := Option.some.inj hts'
  rw [hmem]
  constructor
  · rintro ⟨-, -, t, ht, hparent⟩
    exact ⟨t, (hgroup t).mpr ht, hparent⟩
  · rintro ⟨t, ht, hparent⟩
    exact ⟨hp, Or.inl rfl, t, (hgroup t).mp ht, hparent⟩

end Table

open Table

theorem Reaches.tree {s : Table} (h : Reaches TreeStep s) : Tree s := by
  induction h with
  | boot idle init hne hinit =>
    obtain ⟨kids, σ, hinv, hup, hlist, -⟩ := procInit_inv hne hinit
    intro p hp
    rcases hp with rfl | hp
    · exact .refl
    · rw [hlist] at hp
      cases List.mem_singleton.mp hp
      exact .single hup.parent
  | step a hreach henabled hcond hstep ih =>
    obtain ⟨kids, σ, hinv, hup⟩ := hreach.inv
    obtain ⟨kids', σ', -, -, hdoes⟩ := hinv.step_does hup henabled hstep
    exact hdoes.tree hinv hup ih hcond

/-- **The hierarchy of the processes** in the runs whose steps are all as `TreeStep` says: from every
process the parents lead to `idleproc`, so no process is its own ancestor, and no `do_wait(0)` counts
the caller. -/
theorem process_tree {s : Table} (h : Reaches TreeStep s) :
    (∀ p ∈ s.procList, ReflTransGen s.IsParent p s.idleproc ∧ ¬ TransGen s.IsParent p p) ∧
      ∀ a p l, s.Enabled a → s.TreeStep a → s.Waits a p 0 → s.candidates p 0 = some l → p ∉ l := by
  obtain ⟨kids, σ, hinv, hup⟩ := h.inv
  refine ⟨fun p hp => ?_, fun a p l henabled hcond hwaits hl hmem => ?_⟩
  · have hreach := h.tree p (Or.inr hp)
    exact ⟨hreach, acyclic_of_reach hup hreach⟩
  · have hpl : s.Listed p := by
      rcases hwaits with ⟨rfl, -⟩ | ⟨rfl, -⟩
      · exact henabled.1
      · obtain ⟨pid, hpl, -⟩ := henabled
        exact hpl
    obtain ⟨l', hl', hcand⟩ := hinv.candidates_spec hpl 0
    rw [hl] at hl'
    obtain rfl := Option.some.inj hl'
    have hp := ((hcand p).mp hmem).1
    obtain ⟨ts, hts, -⟩ := hinv.threads_spec hpl
    obtain ⟨t, ht, hparent⟩ := (hinv.waits_self_iff hp hl hts).mp hmem
    exact hcond.wait p hwaits _ hts t ht hparent

/-- The conditions are about exits and `do_wait` alone. -/
theorem treeStep_fork (s : Table) (p c : ℕ) : s.TreeStep (.fork p c) := by
  refine ⟨fun _ hq => ?_, fun _ hq => ?_⟩
  · rcases hq with ⟨_, hq⟩ | hq | ⟨hq, -⟩ <;> cases hq
  · rcases hq with ⟨hq, -⟩ | ⟨hq, -⟩ <;> cases hq

theorem treeStep_forked (s : Table) (p : ℕ) (cloneFlags : UInt32) : s.TreeStep (.forked p cloneFlags) := by
  refine ⟨fun _ hq => ?_, fun _ hq => ?_⟩
  · rcases hq with ⟨_, hq⟩ | hq | ⟨hq, -⟩ <;> cases hq
  · rcases hq with ⟨hq, -⟩ | ⟨hq, -⟩ <;> cases hq

theorem treeStep_wait {s : Table} {p t : ℕ} (hthreads : s.threads p = some [t])
    (hparent : s.parent p ≠ some t) : s.TreeStep (.wait p 0) := by
  refine ⟨fun _ hq => ?_, fun q hq ts hts r hr => ?_⟩
  · rcases hq with ⟨_, hq⟩ | hq | ⟨hq, -⟩ <;> cases hq
  · rcases hq with ⟨hq, -⟩ | ⟨hq, -⟩
    · cases hq
      rw [hthreads] at hts
      obtain rfl := Option.some.inj hts
      rw [List.mem_singleton.mp hr]
      exact hparent
    · cases hq

/-- The next thread is a grandchild of a process that has no parent. -/
theorem treeStep_exitThread {s : Table} {p a b : ℕ} {errorCode : ℤ} (ha : s.parent (s.nextThread p) = some a)
    (hb : s.parent a = some b) (hroot : s.parent b = none) (hpa : a ≠ p) (hpb : b ≠ p) :
    s.TreeStep (.exitThread p errorCode) := by
  refine ⟨fun q hq _ hbelow => ?_, fun _ hq => ?_⟩
  · obtain rfl : p = q := by rcases hq with ⟨_, hq⟩ | hq | ⟨hq, -⟩ <;> cases hq; rfl
    obtain ⟨c, hc, hrest⟩ := TransGen.head'_iff.mp hbelow
    obtain rfl := Option.some.inj (ha.symm.trans hc)
    obtain rfl | ⟨c, hc, hrest⟩ := hrest.cases_head
    · exact hpa rfl
    obtain rfl := Option.some.inj (hb.symm.trans hc)
    obtain rfl | ⟨c, hc, -⟩ := hrest.cases_head
    · exact hpb rfl
    · cases hroot.symm.trans hc
  · rcases hq with ⟨hq, -⟩ | ⟨hq, -⟩ <;> cases hq

/-- A second thread forks and exits; its child goes to the first thread, which waits for it. -/
theorem process_tree_exit : ∃ s l, Reaches TreeStep s ∧ s.state 3 = .zombie ∧ s.parent 4 = some 2 ∧
    s.candidates 2 0 = some l ∧ 4 ∈ l ∧ 2 ∉ l := by
  have h : Reaches TreeStep _ := .boot (m := blank) 0 1 (by decide) rfl
  have h := h.step (.fork 1 2) ⟨⟨Or.inr (by decide), rfl, rfl⟩, rfl, by decide⟩ (treeStep_fork _ _ _) rfl
  have h := h.step (.forked 1 0) ⟨2, Or.inr (by decide), rfl, rfl⟩ (treeStep_forked _ _ _) rfl
  have h := h.step (.fork 2 3) ⟨⟨Or.inr (by decide), rfl, rfl⟩, rfl, by decide⟩ (treeStep_fork _ _ _) rfl
  have h := h.step (.forked 2 CLONE_THREAD) ⟨3, Or.inr (by decide), rfl, rfl⟩ (treeStep_forked _ _ _) rfl
  have h := h.step (.fork 3 4) ⟨⟨Or.inr (by decide), rfl, rfl⟩, rfl, by decide⟩ (treeStep_fork _ _ _) rfl
  have h := h.step (.forked 3 0) ⟨4, Or.inr (by decide), rfl, rfl⟩ (treeStep_forked _ _ _) rfl
  have h := h.step (.exitThread 3 0) (Or.inl ⟨Or.inr (by decide), rfl, rfl⟩)
    (treeStep_exitThread (a := 1) (b := 0) rfl rfl rfl (by decide) (by decide)) rfl
  have hl : 2 ∉ [4, 3] := (process_tree h).2 (.wait 2 0) 2 [4, 3] ⟨Or.inr (by decide), rfl, rfl⟩
    (treeStep_wait rfl nofun) (Or.inl ⟨rfl, rfl⟩) rfl
  exact ⟨_, [4, 3], h, rfl, rfl, rfl, by decide, hl⟩

theorem self_parent {s : Table} {p q : ℕ} (hp : s.parent p = some p)
    (hreach : ReflTransGen s.IsParent p q) : q = p := by
  induction hreach with
  | refl => rfl
  | tail _ hqr ih =>
    subst ih
    exact (Option.some.inj (hp.symm.trans hqr)).symm

/-- Process 2 makes a thread 3 and exits: thread 3 is its own parent.  Before, a `do_wait(0)` of
thread 3 counts the caller. -/
theorem thread_own_parent :
    (¬ ∀ s : Table, Reachable s → ∀ p ∈ s.procList, ReflTransGen s.IsParent p s.idleproc) ∧
      ∃ s l, Reachable s ∧ s.Enabled (.wait 3 0) ∧ s.candidates 3 0 = some l ∧ 3 ∈ l := by
  have h₀ : Reachable _ := .boot (m := blank) 0 1 (by decide) rfl
  have h₁ := h₀.step (.fork 1 2) ⟨⟨Or.inr (by decide), rfl, rfl⟩, rfl, by decide⟩ trivial rfl
  have h₂ := h₁.step (.forked 1 0) ⟨2, Or.inr (by decide), rfl, rfl⟩ trivial rfl
  have h₃ := h₂.step (.fork 2 3) ⟨⟨Or.inr (by decide), rfl, rfl⟩, rfl, by decide⟩ trivial rfl
  have h₄ := h₃.step (.forked 2 CLONE_THREAD) ⟨3, Or.inr (by decide), rfl, rfl⟩ trivial rfl
  constructor
  · intro h
    have h₅ := h₄.step (.exitThread 2 0) (Or.inl ⟨Or.inr (by decide), rfl, rfl⟩) trivial rfl
    have heq : (0 : ℕ) = 3 := self_parent rfl (h _ h₅ 3 (by decide))
    omega
  · exact ⟨_, _, h₄, ⟨Or.inr (by decide), rfl, rfl⟩, rfl, by decide⟩

end Ucore.Process
