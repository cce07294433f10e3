import Ucore.Proc.TableInv

/-!
# `__do_exit` and `do_wait` on the process table

* `moveChildren_spec` — the loop that hands the children of a process to another one;
* `Inv.becomeZombie_spec` — `__do_exit`: who is woken, whose parent changes, what becomes of the group;
* `Inv.reap_spec` — the end of a zombie.
-/

namespace Ucore.Process

open Ksem (ProcState WT_INTERRUPTED)
open Chain (Linked)
open Circular (Ring)
open Equiv (swap)

namespace Table

variable {s s' : Table} {kids : ℕ → List ℕ} {σ : Equiv.Perm ℕ} {p q c h z : ℕ} {pid : ℤ} {P Q : ℕ → Prop}

/-! ## Wake-ups -/

open scoped Classical in
/-- The processes in `P` that wait for a child are woken. -/
noncomputable def woken (s : Table) (P : ℕ → Prop) : Table :=
  { s with
    state := fun q => if P q ∧ s.waitState q = WT_CHILD then .runnable else s.state q
    waitState := fun q => if P q ∧ s.waitState q = WT_CHILD then 0 else s.waitState q }

theorem woken_of_pos (hP : P q) (hw : s.waitState q = WT_CHILD) :
    (s.woken P).state q = .runnable ∧ (s.woken P).waitState q = 0 := by
  simp [woken, hP, hw]

theorem woken_of_neg (h : ¬ (P q ∧ s.waitState q = WT_CHILD)) :
    (s.woken P).state q = s.state q ∧ (s.woken P).waitState q = s.waitState q := by
  constructor
  · exact if_neg h
  · exact if_neg h

theorem eq_woken {state : ℕ → ProcState} {waitState : ℕ → UInt32}
    (hstate : ∀ q, state q = (s.woken P).state q)
    (hwait : ∀ q, waitState q = (s.woken P).waitState q) :
    { s with state := state, waitState := waitState } = s.woken P := by
  obtain rfl := funext hstate
  obtain rfl := funext hwait
  rfl

theorem woken_eq_self (h : ∀ q, P q → s.waitState q ≠ WT_CHILD) : s.woken P = s :=
  (eq_woken (fun q => (woken_of_neg fun hno => h q hno.1 hno.2).1.symm)
    fun q => (woken_of_neg fun hno => h q hno.1 hno.2).2.symm).symm

theorem woken_waitState (hw : (s.woken P).waitState q = WT_CHILD) :
    s.waitState q = WT_CHILD ∧ (s.woken P).state q = s.state q := by
  by_cases h : P q ∧ s.waitState q = WT_CHILD
  · rw [(woken_of_pos h.1 h.2).2] at hw
    exact absurd hw.symm wt_child_ne
  · rw [(woken_of_neg h).2] at hw
    exact ⟨hw, (woken_of_neg h).1⟩

theorem woken_woken (s : Table) (P Q : ℕ → Prop) :
    (s.woken P).woken Q = s.woken fun q => P q ∨ Q q := by
  have hfields : ∀ q, ((s.woken P).woken Q).state q = (s.woken fun q => P q ∨ Q q).state q ∧
      ((s.woken P).woken Q).waitState q = (s.woken fun q => P q ∨ Q q).waitState q := by
    intro q
    by_cases hP : P q ∧ s.waitState q = WT_CHILD
    · obtain ⟨hst, hws⟩ := woken_of_pos hP.1 hP.2
      obtain ⟨hst', hws'⟩ := woken_of_pos (P := fun q => P q ∨ Q q) (Or.inl hP.1) hP.2
      have hno : ¬ (Q q ∧ (s.woken P).waitState q = WT_CHILD) := by
        rw [hws]
        exact fun hno => wt_child_ne hno.2.symm
      obtain ⟨hst'', hws''⟩ := woken_of_neg hno
      exact ⟨hst''.trans (hst.trans hst'.symm), hws''.trans (hws.trans hws'.symm)⟩
    obtain ⟨hst, hws⟩ := woken_of_neg hP
    by_cases hQ : Q q ∧ s.waitState q = WT_CHILD
    · obtain ⟨hst', hws'⟩ := woken_of_pos (P := fun q => P q ∨ Q q) (Or.inr hQ.1) hQ.2
      obtain ⟨hst'', hws''⟩ := woken_of_pos (s := s.woken P) hQ.1 (hws.trans hQ.2)
      exact ⟨hst''.trans hst'.symm, hws''.trans hws'.symm⟩
    · obtain ⟨hst', hws'⟩ := woken_of_neg (s := s) (P := fun q => P q ∨ Q q) fun hno =>
        hno.1.elim (fun h => hP ⟨h, hno.2⟩) fun h => hQ ⟨h, hno.2⟩
      obtain ⟨hst'', hws''⟩ := woken_of_neg (s := s.woken P) (P := Q) fun hno =>
        hQ ⟨hno.1, hws.symm.trans hno.2⟩
      exact ⟨hst''.trans (hst.trans hst'.symm), hws''.trans (hws.trans hws'.symm)⟩
  exact eq_woken (s := s) (fun q => (hfields q).1) fun q => (hfields q).2

theorem woken_congr (h : ∀ q, P q ↔ Q q) : s.woken P = s.woken Q := by
  have heq : P = Q := funext fun q => propext (h q)
  rw [heq]

theorem wakeWaiting_eq (hsleep : s.waitState p = WT_CHILD → s.state p = .sleeping) :
    s.wakeWaiting p = some (s.woken fun q => q = p) := by
  unfold wakeWaiting
  by_cases hw : s.waitState p = WT_CHILD
  · have hst := hsleep hw
    rw [if_pos hw]
    unfold wakeupProc
    rw [hst, if_neg (by decide), if_pos (by decide)]
    refine congrArg some (eq_woken (P := fun q => q = p) (fun q => ?_) fun q => ?_)
    · by_cases hqp : q = p
      · subst hqp
        simp [woken, hw]
      · simp [woken, hqp]
    · by_cases hqp : q = p
      · subst hqp
        simp [woken, hw]
      · simp [woken, hqp]
  · rw [if_neg hw, woken_eq_self]
    rintro q rfl
    exact hw

theorem wakeWaitingAll_eq (ts : List ℕ)
    (hsleep : ∀ q ∈ ts, s.waitState q = WT_CHILD → s.state q = .sleeping) :
    wakeWaitingAll ts s = some (s.woken fun q => q ∈ ts) := by
  induction ts generalizing s with
  | nil =>
    rw [woken_eq_self nofun]
    rfl
  | cons t ts ih =>
    unfold wakeWaitingAll
    rw [wakeWaiting_eq (hsleep t List.mem_cons_self)]
    show wakeWaitingAll ts (s.woken fun q => q = t) = _
    rw [ih, woken_woken]
    · simp only [List.mem_cons]
    · intro q hq hw
      obtain ⟨hw', hst⟩ := woken_waitState hw
      exact hst.trans (hsleep q (List.mem_cons_of_mem t hq) hw')

/-! ## Children that get a new parent -/

/-- The loop of `__do_exit` over the children `kp` of `p`, for the new parent `h`. -/
theorem moveChildren_spec {kp kh : List ℕ} {back : Option ℕ} (fuel : ℕ) (hne : p ≠ h)
    (hsleep : s.waitState h = WT_CHILD → s.state h = .sleeping) (hfuel : kp.length < fuel)
    (hp : Linked s.optr s.yptr back (s.cptr p) kp) (hh : Linked s.optr s.yptr none (s.cptr h) kh)
    (hnodup : (kp ++ kh).Nodup) :
    ∃ cptr yptr optr,
      moveChildren p h fuel s =
        some
          { s.woken (fun q => q = h ∧ ∃ c ∈ kp, s.state c = .zombie) with
            cptr := cptr
            yptr := yptr
            optr := optr
            parent := fun c => if c ∈ kp then some h else s.parent c } ∧
      cptr p = none ∧ Linked optr yptr none (cptr h) (kp.reverse ++ kh) ∧
      (∀ q, q ≠ p → q ≠ h → cptr q = s.cptr q) ∧
      ∀ c, c ∉ kp ++ kh → optr c = s.optr c ∧ yptr c = s.yptr c := by
  induction kp generalizing s back kh fuel with
  | nil =>
    cases fuel with
    | zero => cases hfuel
    | succ fuel =>
      have hnone : s.cptr p = none := hp
      refine ⟨s.cptr, s.yptr, s.optr, ?_, hnone, hh, fun _ _ _ => rfl, fun _ _ => ⟨rfl, rfl⟩⟩
      rw [woken_eq_self (fun q hq => by obtain ⟨-, c, hc, -⟩ := hq; cases hc)]
      simp [moveChildren, hnone]
  | cons c kp ih =>
    cases fuel with
    | zero => cases hfuel
    | succ fuel =>
      obtain ⟨hhead, -, hrest⟩ := hp
      obtain ⟨hc, hnodup'⟩ := List.nodup_cons.mp hnodup
      obtain ⟨hnp, hnh, hdisj⟩ := List.nodup_append.mp hnodup'
      have hckp : c ∉ kp := fun hmem => hc (List.mem_append_left _ hmem)
      have hckh : c ∉ kh := fun hmem => hc (List.mem_append_right _ hmem)
      have hupd : Function.update s.cptr p (s.optr c) h = s.cptr h := Function.update_of_ne hne.symm ..
      -- what is left of the one list, and the other list with the child in front
      have hp₁ : Linked (s.moveChild p c h).optr (s.moveChild p c h).yptr (some c)
          ((s.moveChild p c h).cptr p) kp := by
        have hcp : (s.moveChild p c h).cptr p = s.optr c := by
          simp [moveChild, Function.update_of_ne hne]
        rw [hcp]
        refine hrest.congr fun d hd => ?_
        have hdc : d ≠ c := fun heq => hckp (heq ▸ hd)
        refine ⟨Function.update_of_ne hdc .., ?_⟩
        show Chain.assign _ _ _ d = _
        rw [hupd, Chain.assign_of_ne, Function.update_of_ne hdc]
        rw [hh.head_eq]
        exact fun heq => hdisj d hd d (List.mem_of_mem_head? heq) rfl
      have hh₁ : Linked (s.moveChild p c h).optr (s.moveChild p c h).yptr none
          ((s.moveChild p c h).cptr h) (c :: kh) := by
        have hch : (s.moveChild p c h).cptr h = some c := by simp [moveChild]
        have hpush := hh.push hnh hckh
        rw [← hupd] at hpush
        rw [hch]
        exact hpush
      have hnodup₁ : (kp ++ c :: kh).Nodup :=
        List.nodup_append.mpr ⟨hnp, List.nodup_cons.mpr ⟨hckh, hnh⟩, fun a ha b hb => by
          rcases List.mem_cons.mp hb with rfl | hb
          · exact fun heq => hckp (heq ▸ ha)
          · exact hdisj a ha b hb⟩
      -- the heir may be woken
      obtain ⟨s₂, hwake, hs₂⟩ : ∃ s₂, (s.moveChild p c h).wakeHeir c h = some s₂ ∧
          s₂ = (s.moveChild p c h).woken fun q => q = h ∧ s.state c = .zombie := by
        have hstate : (s.moveChild p c h).state c = s.state c := rfl
        unfold wakeHeir
        rw [hstate]
        by_cases hz : s.state c = .zombie
        · refine ⟨_, ?_, rfl⟩
          rw [if_pos hz, wakeWaiting_eq (s := s.moveChild p c h) hsleep]
          simp only [hz, and_true]
        · refine ⟨s.moveChild p c h, if_neg hz, ?_⟩
          rw [woken_eq_self]
          exact fun q hq => absurd hq.2 hz
      have hzombie : ∀ d, s₂.state d = .zombie ↔ s.state d = .zombie := by
        intro d
        rw [hs₂]
        by_cases hd : (d = h ∧ s.state c = .zombie) ∧ s.waitState d = WT_CHILD
        · obtain ⟨⟨rfl, hz⟩, hw⟩ := hd
          rw [(woken_of_pos (s := s.moveChild p c d) ⟨rfl, hz⟩ hw).1, hsleep hw]
          simp
        · rw [(woken_of_neg (s := s.moveChild p c h) hd).1]
          rfl
      have hsleep₂ : s₂.waitState h = WT_CHILD → s₂.state h = .sleeping := by
        rw [hs₂]
        intro hw
        obtain ⟨hw', hst⟩ := woken_waitState hw
        exact hst.trans (hsleep hw')
      have hlinks : s₂.optr = (s.moveChild p c h).optr ∧ s₂.yptr = (s.moveChild p c h).yptr ∧
          s₂.cptr = (s.moveChild p c h).cptr := by
        rw [hs₂]
        exact ⟨rfl, rfl, rfl⟩
      obtain ⟨ho, hy, hcp⟩ := hlinks
      obtain ⟨cptr, yptr, optr, hrun, hnone, hlinked, hcptr, hout⟩ :=
        ih (s := s₂) fuel hsleep₂
          (Nat.lt_of_succ_lt_succ hfuel) (by rw [ho, hy, hcp]; exact hp₁)
          (by rw [ho, hy, hcp]; exact hh₁) hnodup₁
      refine ⟨cptr, yptr, optr, ?_, hnone, ?_, fun q hqp hqh => ?_, fun d hd => ?_⟩
      · unfold moveChildren
        rw [hhead]
        show ((s.moveChild p c h).wakeHeir c h).bind (moveChildren p h fuel) = _
        rw [hwake]
        show moveChildren p h fuel s₂ = _
        rw [hrun]
        simp only [hzombie]
        rw [hs₂, woken_woken]
        have hset : ((s.moveChild p c h).woken fun q => (q = h ∧ s.state c = .zombie) ∨
            q = h ∧ ∃ c ∈ kp, s.state c = .zombie) =
            (s.moveChild p c h).woken fun q => q = h ∧ ∃ d ∈ c :: kp, s.state d = .zombie := by
          apply woken_congr
          intro q
          simp [← and_or_left]
        have hparent : (fun d => if d ∈ kp then some h else
            ((s.moveChild p c h).woken fun q => q = h ∧ s.state c = .zombie).parent d) =
            fun d => if d ∈ c :: kp then some h else s.parent d := by
          funext d
          show (if d ∈ kp then some h else Function.update s.parent c (some h) d) = _
          by_cases hdc : d = c
          · subst hdc
            simp
          · simp [hdc]
        rw [hset, hparent]
        rfl
      · rw [List.reverse_cons, List.append_assoc]
        exact hlinked
      · rw [hcptr q hqp hqh, hcp]
        show Function.update (Function.update s.cptr p (s.optr c)) h (some c) q = _
        rw [Function.update_of_ne hqh, Function.update_of_ne hqp]
      · have hdc : d ≠ c := fun heq => hd (by simp [heq])
        have hdkh : d ∉ kh := fun hmem => hd (by simp [hmem])
        obtain ⟨hod, hyd⟩ := hout d (by
          intro hmem
          rcases List.mem_append.mp hmem with hmem | hmem
          · exact hd (by simp [hmem])
          · rcases List.mem_cons.mp hmem with heq | hmem
            · exact hdc heq
            · exact hdkh hmem)
        rw [hod, hyd, ho, hy]
        refine ⟨Function.update_of_ne hdc .., ?_⟩
        show Chain.assign _ _ _ d = _
        rw [hupd, Chain.assign_of_ne, Function.update_of_ne hdc]
        rw [hh.head_eq]
        exact fun heq => hdkh (List.mem_of_mem_head? heq)

/-! ## `__do_exit` -/

/-- Who is woken by the exit of `p`, among those that wait for a child: the group of the parent, and
the heir if it gets a zombie. -/
def WokenBy (s : Table) (kids : ℕ → List ℕ) (σ : Equiv.Perm ℕ) (p q : ℕ) : Prop :=
  (∃ parent, s.parent p = some parent ∧ σ.SameCycle parent q) ∨
    q = s.heir p ∧ ∃ c ∈ kids p, c = p ∨ s.state c = .zombie

/-- What the exit of `p` does. -/
structure Exits (s : Table) (kids : ℕ → List ℕ) (σ : Equiv.Perm ℕ) (p : ℕ) (s' : Table) : Prop where
  frame : s' =
    { s with
      state := s'.state
      waitState := s'.waitState
      cptr := s'.cptr
      yptr := s'.yptr
      optr := s'.optr
      parent := s'.parent
      nextThread := Circular.delNext s.nextThread s.prevThread p
      prevThread := Circular.delPrev s.nextThread s.prevThread p }
  parent : ∀ c, s'.parent c = if c ∈ kids p then some (s.heir p) else s.parent c
  zombie : s'.state p = .zombie ∧ s'.waitState p = 0
  woken : ∀ q, q ≠ p → s.waitState q = WT_CHILD → s.WokenBy kids σ p q →
    s'.state q = .runnable ∧ s'.waitState q = 0
  kept : ∀ q, q ≠ p → ¬ (s.waitState q = WT_CHILD ∧ s.WokenBy kids σ p q) →
    s'.state q = s.state q ∧ s'.waitState q = s.waitState q
  cptrSelf : s'.cptr p = none
  cptrHeir : Linked s'.optr s'.yptr none (s'.cptr (s.heir p)) ((kids p).reverse ++ kids (s.heir p))
  cptr : ∀ q, q ≠ p → q ≠ s.heir p → s'.cptr q = s.cptr q
  links : ∀ c, c ∉ kids p ++ kids (s.heir p) → s'.optr c = s.optr c ∧ s'.yptr c = s.yptr c

theorem Inv.heir_eq (hinv : Inv s kids σ) (hp : s.Listed p) :
    s.heir p = if σ p = p then s.initproc else σ p := by
  unfold heir
  rw [hinv.ring.next p hp]

/-- The heir is another process, and no zombie. -/
theorem Inv.heir_spec (hinv : Inv s kids σ) (hup : s.InitUp) (hp : s.Listed p)
    (hpi : p ≠ s.initproc) :
    s.heir p ≠ p ∧ s.Listed (s.heir p) ∧ s.state (s.heir p) ≠ .zombie := by
  rw [hinv.heir_eq hp]
  split
  · exact ⟨hpi.symm, Or.inr hup.1, hup.2⟩
  · rename_i hne
    have hl := hinv.ring.mem_apply hp
    exact ⟨hne, hl, fun hz => hne (σ.injective (hinv.running.zombie _ hl hz))⟩

theorem Running.sleeping (hrun : Running s σ) (hp : s.Listed p) (hw : s.waitState p = WT_CHILD) :
    s.state p = .sleeping := by
  by_contra hst
  rw [hrun.awake p hp hst] at hw
  exact wt_child_ne hw.symm

theorem Links.disjoint (hlinks : Links s kids) (hp : s.Listed p) (hq : s.Listed q) (hne : p ≠ q)
    (hc : c ∈ kids p) : c ∉ kids q := by
  intro hcq
  have h₁ := ((hlinks.mem p hp c).mp hc).2
  rw [((hlinks.mem q hq c).mp hcq).2] at h₁
  exact hne (Option.some.inj h₁).symm

/-- **`__do_exit`** runs through. -/
theorem Inv.becomeZombie_runs (hinv : Inv s kids σ) (hup : s.InitUp) (hp : p ∈ s.procList)
    (hpi : p ≠ s.initproc) (hrun : s.state p = .runnable) :
    ∃ s', s.becomeZombie p = some s' ∧ Exits s kids σ p s' := by
  have hpl : s.Listed p := Or.inr hp
  obtain ⟨parent, hparent, hparl⟩ := hinv.links.parent p hp
  obtain ⟨ts, hts, -, hmem⟩ := hinv.threads_spec hparl
  obtain ⟨hhp, hhl, hhz⟩ := hinv.heir_spec hup hpl hpi
  have hpw : s.waitState p = 0 := hinv.running.awake p hpl (by rw [hrun]; decide)
  have hpn : s.waitState p ≠ WT_CHILD := by
    rw [hpw]
    exact wt_child_ne.symm
  let s₀ : Table := { s with state := Function.update s.state p .zombie }
  have hsleep : ∀ q, s.Listed q → s₀.waitState q = WT_CHILD → s₀.state q = .sleeping := by
    intro q hq hw
    have hqp : q ≠ p := fun heq => hpn (heq ▸ hw)
    exact (Function.update_of_ne hqp ..).trans (hinv.running.sleeping hq hw)
  have hwake := wakeWaitingAll_eq (s := s₀) (parent :: ts) fun q hq =>
    hsleep q (hinv.mem_group hparl ((hmem q).mp hq))
  -- the loop over the children
  let A : ℕ → Prop := fun q => q ∈ parent :: ts
  let s₂ : Table := (s₀.woken A).deThread p
  have hnodup : (kids p ++ kids (s.heir p)).Nodup :=
    List.nodup_append.mpr ⟨hinv.links.nodup p hpl, hinv.links.nodup _ hhl, fun a ha b hb heq =>
      hinv.links.disjoint hpl hhl hhp.symm ha (heq ▸ hb)⟩
  have hlen := hinv.links.length_le hpl
  obtain ⟨cptr, yptr, optr, hmove, hnone, hlinked, hcptr, hout⟩ :=
    moveChildren_spec (s := s₂) (p := p) (h := s.heir p) (s.procList.length + 1) hhp.symm
      (fun hw => by
        obtain ⟨hw', hst⟩ := woken_waitState (s := s₀) (P := A) hw
        exact hst.trans (hsleep _ hhl hw'))
      (Nat.lt_succ_of_le hlen) (hinv.links.linked p hpl) (hinv.links.linked _ hhl) hnodup
  let B : ℕ → Prop := fun q => q = s.heir p ∧ ∃ c ∈ kids p, s₂.state c = .zombie
  have hrunAll : s.becomeZombie p = moveChildren p (s.heir p) (s.procList.length + 1) s₂ := by
    have hts₀ : s₀.threads parent = some (parent :: ts) := hts
    have hparent₀ : s₀.parent p = some parent := hparent
    unfold becomeZombie
    show (s₀.parent p).bind _ = _
    rw [hparent₀]
    show (s₀.threads parent).bind _ = _
    rw [hts₀]
    show (wakeWaitingAll (parent :: ts) s₀).bind _ = _
    rw [hwake]
    rfl
  rw [hrunAll, hmove]
  -- the states, in one piece
  have hzombie₂ : ∀ c, s₂.state c = .zombie ↔ c = p ∨ s.state c = .zombie := by
    intro c
    show (s₀.woken A).state c = .zombie ↔ _
    by_cases hc : A c ∧ s₀.waitState c = WT_CHILD
    · have hcl : s.Listed c := hinv.mem_group hparl ((hmem c).mp hc.1)
      have hcp : c ≠ p := fun heq => hpn (heq ▸ hc.2)
      rw [(woken_of_pos hc.1 hc.2).1, hinv.running.sleeping hcl hc.2]
      simp [hcp]
    · rw [(woken_of_neg hc).1]
      show Function.update s.state p .zombie c = .zombie ↔ _
      by_cases hcp : c = p
      · subst hcp
        simp
      · simp [hcp]
  have hstate : ∀ q, (s₂.woken B).state q = (s₀.woken fun q => A q ∨ B q).state q ∧
      (s₂.woken B).waitState q = (s₀.woken fun q => A q ∨ B q).waitState q := by
    intro q
    rw [← woken_woken]
    exact ⟨rfl, rfl⟩
  have hby : ∀ q, (A q ∨ B q) ↔ s.WokenBy kids σ p q := by
    intro q
    apply or_congr
    · constructor
      · exact fun hq => ⟨parent, hparent, (hmem q).mp hq⟩
      · rintro ⟨parent', hparent', hq⟩
        rw [hparent] at hparent'
        cases hparent'
        exact (hmem q).mpr hq
    · simp only [B, hzombie₂]
  refine ⟨_, rfl, rfl, fun c => rfl, ?_, fun q hqp hw hq => ?_, fun q hqp hno => ?_, hnone, hlinked,
    hcptr, hout⟩
  · have hno : ¬ ((A p ∨ B p) ∧ s₀.waitState p = WT_CHILD) := fun hno => hpn hno.2
    obtain ⟨hst, hws⟩ := woken_of_neg (s := s₀) (P := fun q => A q ∨ B q) hno
    refine ⟨((hstate p).1.trans hst).trans (Function.update_self ..), ?_⟩
    exact ((hstate p).2.trans hws).trans hpw
  · obtain ⟨hst, hws⟩ := woken_of_pos (s := s₀) (P := fun q => A q ∨ B q) ((hby q).mpr hq) hw
    exact ⟨(hstate q).1.trans hst, (hstate q).2.trans hws⟩
  · obtain ⟨hst, hws⟩ := woken_of_neg (s := s₀) (P := fun q => A q ∨ B q)
      fun hq => hno ⟨hq.2, (hby q).mp hq.1⟩
    exact ⟨((hstate q).1.trans hst).trans (Function.update_of_ne hqp ..), (hstate q).2.trans hws⟩

theorem Exits.zombie_iff (hx : Exits s kids σ p s') (hinv : Inv s kids σ) (hq : s.Listed q)
    (hqp : q ≠ p) : s'.state q = .zombie ↔ s.state q = .zombie := by
  by_cases hw : s.waitState q = WT_CHILD ∧ s.WokenBy kids σ p q
  · rw [(hx.woken q hqp hw.1 hw.2).1, hinv.running.sleeping hq hw.1]
    simp
  · rw [(hx.kept q hqp hw).1]

theorem Exits.state_out (hx : Exits s kids σ p s') (hqp : q ≠ p) (hw : s.waitState q = 0) :
    s'.state q = s.state q ∧ s'.waitState q = 0 := by
  have hno : ¬ (s.waitState q = WT_CHILD ∧ s.WokenBy kids σ p q) := by
    rw [hw]
    exact fun hno => wt_child_ne hno.1.symm
  obtain ⟨hst, hws⟩ := hx.kept q hqp hno
  exact ⟨hst, hws.trans hw⟩

/-- The children of each process after the exit of `p`. -/
def kidsExit (s : Table) (kids : ℕ → List ℕ) (p q : ℕ) : List ℕ :=
  if q = s.heir p then (kids p).reverse ++ kids (s.heir p) else if q = p then [] else kids q

theorem Exits.links_spec (hx : Exits s kids σ p s') (hinv : Inv s kids σ) (hup : s.InitUp)
    (hp : s.Listed p) (hpi : p ≠ s.initproc) : Links s' (s.kidsExit kids p) := by
  obtain ⟨hhp, hhl, -⟩ := hinv.heir_spec hup hp hpi
  have hlist : s'.procList = s.procList := by rw [hx.frame]
  have hidle : s'.idleproc = s.idleproc := by rw [hx.frame]
  have hlisted : ∀ q, s'.Listed q ↔ s.Listed q := fun q => by
    unfold Listed
    rw [hlist, hidle]
  have hlinks := hinv.links
  have hmem : ∀ q, s.Listed q → ∀ c, c ∈ s.kidsExit kids p q ↔
      c ∈ s.procList ∧ s'.parent c = some q := by
    intro q hq c
    rw [hx.parent]
    unfold kidsExit
    by_cases hqh : q = s.heir p
    · subst hqh
      rw [if_pos rfl, List.mem_append, List.mem_reverse, hlinks.mem _ hhl]
      by_cases hc : c ∈ kids p
      · rw [if_pos hc]
        have hcp := (hlinks.mem p hp c).mp hc
        simp [hc, hcp]
      · rw [if_neg hc]
        simp [hc]
    rw [if_neg hqh]
    by_cases hqp : q = p
    · subst hqp
      rw [if_pos rfl]
      constructor
      · nofun
      · rintro ⟨hc, hcq⟩
        split at hcq
        · exact absurd (Option.some.inj hcq) hhp
        · rename_i hno
          exact absurd ((hlinks.mem q hp c).mpr ⟨hc, hcq⟩) hno
    · rw [if_neg hqp, hlinks.mem q hq]
      apply and_congr_right
      intro hc
      by_cases hcp : c ∈ kids p
      · rw [if_pos hcp, ((hlinks.mem p hp c).mp hcp).2]
        simp only [Option.some.injEq]
        constructor
        · exact fun heq => absurd heq.symm hqp
        · exact fun heq => absurd heq.symm hqh
      · rw [if_neg hcp]
  refine ⟨fun q hq => ?_, fun q hq => ?_, fun q hq c => ?_, fun c hc => ?_⟩
  · have hq := (hlisted q).mp hq
    unfold kidsExit
    by_cases hqh : q = s.heir p
    · subst hqh
      rw [if_pos rfl]
      exact hx.cptrHeir
    rw [if_neg hqh]
    by_cases hqp : q = p
    · subst hqp
      rw [if_pos rfl]
      exact hx.cptrSelf
    · rw [if_neg hqp, hx.cptr q hqp hqh]
      refine (hlinks.linked q hq).congr fun c hc => hx.links c fun hmem => ?_
      rcases List.mem_append.mp hmem with hcp | hch
      · exact hlinks.disjoint hq hp hqp hc hcp
      · exact hlinks.disjoint hq hhl hqh hc hch
  · have hq := (hlisted q).mp hq
    unfold kidsExit
    split
    · refine List.nodup_append.mpr ⟨List.nodup_reverse.mpr (hlinks.nodup p hp), hlinks.nodup _ hhl,
        fun a ha b hb heq => ?_⟩
      exact hlinks.disjoint hp hhl hhp.symm (List.mem_reverse.mp ha) (heq ▸ hb)
    split
    · exact List.nodup_nil
    · exact hlinks.nodup q hq
  · rw [hlist]
    exact hmem q ((hlisted q).mp hq) c
  · rw [hlist] at hc
    rw [hx.parent]
    split
    · exact ⟨_, rfl, (hlisted _).mpr hhl⟩
    · obtain ⟨q, hcq, hq⟩ := hlinks.parent c hc
      exact ⟨q, hcq, (hlisted q).mpr hq⟩

/-- **`__do_exit`** keeps the table consistent. -/
theorem Exits.inv (hx : Exits s kids σ p s') (hinv : Inv s kids σ) (hup : s.InitUp)
    (hp : p ∈ s.procList) (hpi : p ≠ s.initproc) (hpc : ∀ c, s.pc p ≠ .fork c) :
    Inv s' (s.kidsExit kids p) (swap p (σ p) * σ) := by
  have hpl : s.Listed p := Or.inr hp
  obtain ⟨hhp, hhl, hhz⟩ := hinv.heir_spec hup hpl hpi
  have hframe := hx.frame
  have hlist : s'.procList = s.procList := by rw [hframe]
  have hidle : s'.idleproc = s.idleproc := by rw [hframe]
  have hpceq : s'.pc = s.pc := by rw [hframe]
  have hlisted : ∀ q, s'.Listed q ↔ s.Listed q := fun q => by
    unfold Listed
    rw [hlist, hidle]
  have hrun := hinv.running
  have hzombie := fun q hq hqp => hx.zombie_iff (q := q) hinv hq hqp
  have hlinks := hx.links_spec hinv hup hpl hpi
  have hnext : s'.nextThread = Circular.delNext s.nextThread s.prevThread p :=
    by rw [hframe]
  have hprev : s'.prevThread = Circular.delPrev s.nextThread s.prevThread p :=
    by rw [hframe]
  refine ⟨?_, hlinks, ?_, ?_⟩
  · rw [hframe]
    exact ⟨hinv.pids.idle, hinv.pids.nodup, hinv.pids.range, hinv.pids.inj, hinv.pids.hash,
      hinv.pids.hashNodup, hinv.pids.count, hinv.pids.lastPid, hinv.pids.clear⟩
  · rw [hnext, hprev]
    exact (hinv.ring.delInit hpl).of_iff hlisted
  refine ⟨?_, fun c hc q hcq => ?_, fun q hq hz => ?_, fun q c hq => ?_, fun q c hq => ?_, fun q => ?_,
    ?_, fun q hq hst => ?_, fun q n hq hqw hst => ?_⟩
  · rw [hidle]
    have hne : s.idleproc ≠ p := fun heq => hinv.pids.idle (heq ▸ hp)
    exact fun hz => hrun.idle ((hzombie _ (Or.inl rfl) hne).mp hz)
  · rw [hlist] at hc
    rw [hx.parent] at hcq
    by_cases hck : c ∈ kids p
    · rw [if_pos hck] at hcq
      cases hcq
      exact fun hz => hhz ((hzombie _ hhl hhp).mp hz)
    · rw [if_neg hck] at hcq
      obtain ⟨q', hcq', hq⟩ := hinv.links.parent c hc
      rw [hcq] at hcq'
      cases hcq'
      have hqp : q ≠ p := fun heq => hck ((hinv.links.mem p hpl c).mpr ⟨hc, heq ▸ hcq⟩)
      exact fun hz => hrun.parent c hc q hcq ((hzombie q hq hqp).mp hz)
  · have hq := (hlisted q).mp hq
    by_cases hqp : q = p
    · rw [hqp]
      exact Circular.swap_mul_apply_self σ p
    · have hfix := hrun.zombie q hq ((hzombie q hq hqp).mp hz)
      rw [Circular.swap_mul_apply σ hqp, hfix, if_neg hqp]
  · rw [hpceq] at hq
    obtain ⟨hl, hz⟩ := hrun.forker q c hq
    have hqp : q ≠ p := fun heq => hpc c (heq ▸ hq)
    exact ⟨(hlisted q).mpr hl, fun hno => hz ((hzombie q hl hqp).mp hno)⟩
  · rw [hpceq] at hq
    have hf := hrun.fresh q c hq
    have hcp : c ≠ p := fun heq => hf.out (heq ▸ hpl)
    have hch : c ≠ s.heir p := fun heq => hf.out (heq ▸ hhl)
    have hck : c ∉ kids p := fun hmem => hf.out (Or.inr ((hinv.links.mem p hpl c).mp hmem).1)
    obtain ⟨hst, hws⟩ := hx.state_out hcp hf.waitState
    have hnl : s.Listed (s.nextThread p) := by
      rw [hinv.ring.next p hpl]
      exact hinv.ring.mem_apply hpl
    have hpvl : s.Listed (s.prevThread p) := by
      rw [hinv.ring.prev p hpl]
      exact hinv.ring.mem_symm hpl
    refine ⟨fun hl => hf.out ((hlisted c).mp hl), ?_, hst.trans hf.state, hws, ?_, ?_, ?_⟩
    · rw [hx.parent, if_neg hck]
      exact hf.parent
    · rw [hx.cptr c hcp hch]
      exact hf.cptr
    · rw [hnext]
      unfold Circular.delNext
      have hne : c ≠ s.prevThread p := fun heq => hf.out (heq ▸ hpvl)
      rw [Function.update_of_ne hcp, Function.update_of_ne hne]
      exact hf.next
    · rw [hprev]
      unfold Circular.delPrev
      have hne : c ≠ s.nextThread p := fun heq => hf.out (heq ▸ hnl)
      rw [Function.update_of_ne hcp, Function.update_of_ne hne]
      exact hf.prev
  · have hlive : s'.live = s.live := by rw [hframe]
    rw [hlive, hlisted, hpceq]
    exact hrun.live q
  · have hroom : s'.nrProcess = s.nrProcess := by rw [hframe]
    have hforking : s'.forking = s.forking := by
      unfold forking
      rw [hpceq]
    rw [hroom, hidle, hlist, hforking]
    exact hrun.room
  · have hq := (hlisted q).mp hq
    by_cases hqp : q = p
    · rw [hqp]
      exact hx.zombie.2
    by_cases hw : s.waitState q = WT_CHILD ∧ s.WokenBy kids σ p q
    · exact (hx.woken q hqp hw.1 hw.2).2
    · obtain ⟨hst', hws'⟩ := hx.kept q hqp hw
      rw [hst'] at hst
      rw [hws']
      exact hrun.awake q hq hst
  · have hq := (hlisted q).mp hq
    rw [hpceq] at hqw
    by_cases hqp : q = p
    · subst hqp
      rw [hx.zombie.1] at hst
      cases hst
    by_cases hw : s.waitState q = WT_CHILD ∧ s.WokenBy kids σ p q
    · rw [(hx.woken q hqp hw.1 hw.2).1] at hst
      cases hst
    · obtain ⟨hst', hws'⟩ := hx.kept q hqp hw
      rw [hst'] at hst
      rw [hws']
      exact hrun.waiting q n hq hqw hst

end Table

end Ucore.Process
