import Ucore.Sync.MboxMsg

/-!
# Mailboxes: ids

`new_mbox` opens the first mailbox of `free_mbox_list`, which has all those of a page of `mbox_map` once the
page is there: there are more than `MAX_MBOX_NUM` of them, and `get_mbox` refuses the others.

* `Ids` — what holds of the mailboxes that have been opened, and of those that are closed;
* `ids_usable` — in the runs that open no mailbox from `MAX_MBOX_NUM` on, an id is good until it is freed,
  and free again once nobody is inside.
* `last_page_refused` — a run that opens one.
-/

namespace Ucore.Mboxes

open Waits (Kern)

variable {s s' : Sys} {mid mid' : Mid} {tr es : List Event} {e : Event} {p q m n : ℕ} {op : Op}

/-- The first free mailbox, or the first one of the page that comes, has an id that `get_mbox` takes. -/
def Low (s : Sys) : Op → Prop
  | .init _ maxSlots => ¬ (maxSlots = 0 ∨ MAX_MSG_SLOTS < maxSlots) → ∀ m rest, s.free = m :: rest → m < MAX_MBOX_NUM
  | .map p page => ∀ maxSlots i, s.call p = .mapping maxSlots i → ∀ m rest,
    s.free ++ (if page then [i * MBOX_P_PAGE] else []) = m :: rest → m < MAX_MBOX_NUM
  | _ => True

/-- A mailbox that is closed is in the list. -/
def Listed (s : Sys) : Prop :=
  ∀ m, s.mapped (m / MBOX_P_PAGE) = true → (s.mbox m).state = .closed → m ∈ s.free

/-- An opened mailbox is open with its number, or has been freed. -/
structure Ids (tr : List Event) (s : Sys) : Prop where
  opened : ∀ p m n, .opened p m n ∈ tr → m < MAX_MBOX_NUM ∧
    ((s.mbox m).life = (.opened, n) ∨ ∃ r ns, .freed r m n ns ∈ tr)
  freed : ∀ p m n ns, .freed p m n ns ∈ tr → s.mapped (m / MBOX_P_PAGE) = true
  listed : Listed s

theorem Inv.mapped_of_opened (hinv : Inv mid s) (hopened : (s.mbox m).state = .opened) :
    s.mapped (m / MBOX_P_PAGE) = true := by
  cases hm : s.mapped (m / MBOX_P_PAGE) with
  | true => rfl
  | false =>
    have hclosed := hinv.frees.unmapped m hm
    rw [hopened] at hclosed
    cases hclosed

/-- A page stays where it is. -/
theorem Does.mapped_mono (hdoes : Does mid s es mid' s') {i : ℕ} (hi : s.mapped i = true) :
    s'.mapped i = true := by
  cases hdoes with
  | mapped _ p maxSlots j hcall =>
    show Function.update s.mapped j true i = true
    by_cases hij : i = j
    · rw [hij, Function.update_self]
    · rw [Function.update_of_ne hij]
      exact hi
  | failedSend _ p m | failedRecv _ p m =>
    show (s.left m).mapped i = true
    unfold Sys.left
    split <;> exact hi
  | _ => exact hi

/-- One mailbox changes and does not get closed. -/
theorem Listed.set (h : Listed s) {box : Mbox} (hmbox : s'.mbox = Function.update s.mbox m box)
    (hmapped : s'.mapped = s.mapped) (hfree : s'.free = s.free)
    (hbox : box.state = .closed → (s.mbox m).state = .closed) : Listed s' := by
  intro q hpage hq
  rw [hmapped] at hpage
  rw [hmbox] at hq
  rw [hfree]
  by_cases hqm : q = m
  · subst hqm
    rw [Function.update_self] at hq
    exact h q hpage (hbox hq)
  · rw [Function.update_of_ne hqm] at hq
    exact h q hpage hq

/-- One mailbox is closed. -/
theorem Listed.close (h : Listed s) {box : Mbox} (hmbox : s'.mbox = Function.update s.mbox m box)
    (hmapped : s'.mapped = s.mapped) (hfree : s'.free = s.free ++ [m]) : Listed s' := by
  intro q hpage hq
  rw [hmapped] at hpage
  rw [hmbox] at hq
  rw [hfree, List.mem_append, List.mem_singleton]
  by_cases hqm : q = m
  · exact .inr hqm
  · rw [Function.update_of_ne hqm] at hq
    exact .inl (h q hpage hq)

theorem Listed.left (h : Listed s) (m : ℕ) : Listed (s.left m) := by
  unfold Sys.left
  split
  · exact h.close (m := m) rfl rfl rfl
  · exact h.set (m := m) rfl rfl rfl id

theorem Listed.does (h : Listed s) (hdoes : Does mid s es mid' s') : Listed s' := by
  cases hdoes with
  | mapped _ p maxSlots i hcall =>
    intro q hpage hq
    replace hpage : Function.update s.mapped i true (q / MBOX_P_PAGE) = true := hpage
    replace hq : (if q / MBOX_P_PAGE = i then Mbox.fresh else s.mbox q).state = .closed := hq
    show q ∈ s.free ++ _
    rw [List.mem_append]
    by_cases hi : q / MBOX_P_PAGE = i
    · exact .inr (((page_ids i).2 q).mpr hi)
    · rw [Function.update_of_ne hi] at hpage
      rw [if_neg hi] at hq
      exact .inl (h q hpage hq)
  | opened _ p m maxSlots rest hcall hfree =>
    intro q hpage hq
    replace hq : (Function.update s.mbox m _ q).state = .closed := hq
    show q ∈ rest
    by_cases hqm : q = m
    · rw [hqm, Function.update_self] at hq
      cases hq
    · rw [Function.update_of_ne hqm] at hq
      have hmem := h q hpage hq
      rw [hfree] at hmem
      exact (List.mem_cons.mp hmem).resolve_left hqm
  | enterSend _ p m | enterRecv _ p m | sent _ p m | picked _ p m | tooBig _ p m | putBack _ p m =>
    exact h.set (m := m) rfl rfl rfl id
  | failedSend _ p m | failedRecv _ p m => exact h.left m
  | freed _ p m k₁ k hopened hk₁ hk hsenders hreceivers box free hclosing hclosed =>
    by_cases hzero : (s.mbox m).inuse = 0
    · exact h.close (m := m) rfl rfl (hclosed hzero).2
    · refine h.set (m := m) rfl rfl (hclosing hzero).2 fun hbox => ?_
      rw [(hclosing hzero).1] at hbox
      cases hbox
  | ticked | killed | plain | slept | arose | mapping | unmapped | unwait | block | lost | delivered | discarded =>
    exact h

theorem Does.life_of_opened (hdoes : Does mid s es mid' s') (hmem : .opened p m n ∈ es) :
    (s'.mbox m).life = (.opened, n) := by
  cases hdoes with
  | opened _ p m =>
    cases List.mem_singleton.mp hmem
    show (Function.update s.mbox m _ m).life = _
    rw [Function.update_self]
    rfl
  | plain _ _ _ _ _ _ he =>
    rw [← List.mem_singleton.mp hmem] at he
    exact he.elim nofun fun ⟨_, hr⟩ => absurd hr nofun
  | mapped | unmapped | enterSend | enterRecv | unwait => cases hmem
  | _ => exact absurd (List.mem_singleton.mp hmem) nofun

theorem Does.mapped_of_freed (hdoes : Does mid s es mid' s') (hinv : Inv mid s) {ns : List ℕ}
    (hmem : .freed p m n ns ∈ es) : s.mapped (m / MBOX_P_PAGE) = true := by
  cases hdoes with
  | freed _ p m k₁ k hopened =>
    cases List.mem_singleton.mp hmem
    exact hinv.mapped_of_opened hopened
  | plain _ _ _ _ _ _ he =>
    rw [← List.mem_singleton.mp hmem] at he
    exact he.elim nofun fun ⟨_, hr⟩ => absurd hr nofun
  | mapped | unmapped | enterSend | enterRecv | unwait => cases hmem
  | _ => exact absurd (List.mem_singleton.mp hmem) nofun

theorem Ids.does (h : Ids tr s) (hinv : Inv mid s) (hdoes : Does mid s es mid' s')
    (hlow : ∀ p m n, .opened p m n ∈ es → m < MAX_MBOX_NUM) : Ids (es ++ tr) s' := by
  refine ⟨fun p m n hmem => ?_, fun p m n ns hmem => ?_, h.listed.does hdoes⟩
  · rcases List.mem_append.mp hmem with hnew | hold
    · exact ⟨hlow p m n hnew, .inl (hdoes.life_of_opened hnew)⟩
    · obtain ⟨hm, hlife | ⟨r, ns, hfreed⟩⟩ := h.opened p m n hold
      · refine ⟨hm, ?_⟩
        rcases hdoes.life hinv (congrArg Prod.fst hlife) with hsame | ⟨r, ns, hfreed⟩
        · exact .inl (hsame.trans hlife)
        · rw [show (s.mbox m).opening = n from congrArg Prod.snd hlife] at hfreed
          exact .inr ⟨r, ns, List.mem_append_left _ hfreed⟩
      · exact ⟨hm, .inr ⟨r, ns, List.mem_append_right _ hfreed⟩⟩
  · rcases List.mem_append.mp hmem with hnew | hold
    · exact hdoes.mapped_mono (hdoes.mapped_of_freed hinv hnew)
    · exact hdoes.mapped_mono (h.freed p m n ns hold)

theorem Ids.steps (h : Ids tr s) (hinv : Inv .out s) (hsteps : Steps s e s')
    (hlow : ∀ p m n, e = .opened p m n → m < MAX_MBOX_NUM) : Ids (e :: tr) s' := by
  have hlow' : ∀ p m n, .opened p m n ∈ [e] → m < MAX_MBOX_NUM := fun p m n hmem =>
    hlow p m n (List.mem_singleton.mp hmem).symm
  rcases hsteps with hdoes | ⟨mid, s₁, hfirst, hsecond⟩
  · exact h.does hinv hdoes hlow'
  · exact (h.does hinv hfirst nofun).does (hinv.does hfirst) hsecond hlow'

theorem openFirst_opened {maxSlots : ℕ} (hevent : (s.openFirst p maxSlots).1 = .opened q m n) :
    ∃ rest, s.free = m :: rest := by
  unfold Sys.openFirst at hevent
  cases hfree : s.free with
  | nil =>
    rw [hfree] at hevent
    cases hevent
  | cons m' rest =>
    rw [hfree] at hevent
    cases hevent
    exact ⟨rest, rfl⟩

theorem bind_ok {α β : Type} {x : Except Fault α} {f : α → Except Fault β} {r : β} (h : x.bind f = .ok r) :
    ∃ a, f a = .ok r := by
  cases x with
  | error _ => cases h
  | ok a => exact ⟨a, h⟩

theorem map_ok {x : Except Fault Sys} {r : Event × Sys} (h : (x.map fun s => (e, s)) = .ok r) : r.1 = e := by
  cases x with
  | error _ => cases h
  | ok a => exact (congrArg Prod.fst (Except.ok.inj h)).symm

/-- Before a mailbox is opened, the process is in no call, or in `new_mbox`. -/
theorem Steps.call_of_opened (h : Steps s (.opened q m n) s') :
    s.call q = .idle ∨ ∃ maxSlots i, s.call q = .mapping maxSlots i := by
  rcases h with hdoes | ⟨mid, s₁, hfirst, hsecond⟩
  · cases hdoes with
    | plain _ _ _ _ _ _ he => exact he.elim nofun fun ⟨_, hr⟩ => absurd hr nofun
    | opened _ _ _ _ _ hcall => exact .inl hcall
  · have hcall : mid = .out ∧ s₁.call q = .idle := by
      cases hsecond with
      | plain _ _ _ _ _ _ he => exact he.elim nofun fun ⟨_, hr⟩ => absurd hr nofun
      | opened _ _ _ _ _ hcall => exact ⟨rfl, hcall⟩
    have hback : ∀ p maxSlots i, s.call p = .mapping maxSlots i → Function.update s.call p .idle q = .idle →
        s.call q = .idle ∨ ∃ maxSlots i, s.call q = .mapping maxSlots i := by
      intro p maxSlots i hp hq
      by_cases hqp : q = p
      · subst hqp
        exact .inr ⟨maxSlots, i, hp⟩
      · rw [Function.update_of_ne hqp] at hq
        exact .inl hq
    obtain ⟨hout, hcall⟩ := hcall
    cases hfirst with
    | mapped _ p maxSlots i hp => exact hback p maxSlots i hp hcall
    | unmapped _ p maxSlots i hp => exact hback p maxSlots i hp hcall
    | enterSend | enterRecv => cases hout
    | unwait _ p m side f k _ hrun hwait hmid =>
      rw [hout] at hmid
      split at hmid <;> cases hmid

/-- A mailbox is opened by `ipc_mbox_init`, at its end or after the allocation of a page. -/
theorem Inv.opens (h : Inv .out s) (henabled : s.Enabled op) (hstep : s.step op = .ok (.opened q m n, s')) :
    (∃ maxSlots, op = .init q maxSlots) ∨ ∃ page, op = .map q page := by
  rcases h.step_spec henabled with ⟨e, s'', hstep', hproc, hsteps⟩ | ⟨hfail, -⟩
  · rw [hstep] at hstep'
    cases hstep'
    have hcall := hsteps.call_of_opened
    have hallows := henabled.allows hproc.symm
    cases op with
    | init p maxSlots =>
      cases hproc
      exact .inl ⟨maxSlots, rfl⟩
    | map p page =>
      cases hproc
      exact .inr ⟨page, rfl⟩
    | send p id timeout =>
      cases hproc
      have hevent := congrArg Prod.fst (Except.ok.inj hstep)
      unfold Sys.ipcMboxSend at hevent
      split at hevent <;> cases hevent
    | recv p id timeout =>
      cases hproc
      have hevent := congrArg Prod.fst (Except.ok.inj hstep)
      unfold Sys.ipcMboxRecv at hevent
      split at hevent <;> cases hevent
    | sleep p time =>
      cases hproc
      replace hstep : s.doSleep q time = .ok (.opened q m n, s') := hstep
      unfold Sys.doSleep at hstep
      split at hstep
      · cases hstep
      · dsimp only at hstep
        cases hadd : Kern.ipcAddTimer _ q time with
        | none =>
          rw [hadd] at hstep
          cases hstep
        | some k =>
          rw [hadd] at hstep
          cases hstep
    | free p id =>
      cases hproc
      replace hstep : s.ipcMboxFree q id = .ok (.opened q m n, s') := hstep
      unfold Sys.ipcMboxFree at hstep
      split at hstep
      · obtain ⟨s₁, hrest⟩ := bind_ok hstep
        obtain ⟨s₂, hrest⟩ := bind_ok hrest
        split at hrest
        · exact absurd (map_ok hrest) nofun
        · cases hrest
      · cases hstep
    | load | prepare =>
      obtain ⟨_, _, hc⟩ := hallows
      rw [hc] at hcall
      exact hcall.elim nofun fun ⟨_, _, hc⟩ => absurd hc nofun
    | copy =>
      obtain ⟨_, _, _, hc⟩ := hallows
      rw [hc] at hcall
      exact hcall.elim nofun fun ⟨_, _, hc⟩ => absurd hc nofun
    | resume =>
      rcases hcall with hc | ⟨_, _, hc⟩
      · rw [hc] at hallows
        exact hallows.elim
      · rw [hc] at hallows
        exact hallows.elim
    | tick | kill => cases hproc
  · rw [hstep] at hfail
    cases hfail

theorem Low.of_step (hlow : Low s op) (h : Inv .out s) (henabled : s.Enabled op)
    (hstep : s.step op = .ok (.opened q m n, s')) : m < MAX_MBOX_NUM := by
  rcases h.opens henabled hstep with ⟨maxSlots, rfl⟩ | ⟨page, rfl⟩
  · have hevent := congrArg Prod.fst (Except.ok.inj hstep)
    unfold Sys.ipcMboxInit at hevent
    split at hevent
    · cases hevent
    · rename_i hslots
      split at hevent
      · split at hevent <;> cases hevent
      · obtain ⟨rest, hfree⟩ := openFirst_opened hevent
        exact hlow hslots m rest hfree
  · obtain ⟨-, maxSlots, i, hcall⟩ := henabled
    unfold Sys.step at hstep
    dsimp only at hstep
    rw [hcall] at hstep
    have hevent := congrArg Prod.fst (Except.ok.inj hstep)
    have hfirst : ∃ rest, s.free ++ (if page then [i * MBOX_P_PAGE] else []) = m :: rest := by
      unfold Sys.map at hevent
      dsimp only at hevent
      split at hevent
      · rename_i hpage
        rw [if_pos hpage]
        obtain ⟨rest, hfree⟩ := openFirst_opened hevent
        cases hold : s.free with
        | nil =>
          replace hfree : s.free ++ (List.range (92 + 1)).map (i * MBOX_P_PAGE + ·) = m :: rest := hfree
          rw [hold, List.range_succ_eq_map, List.map_cons] at hfree
          cases hfree
          exact ⟨[], rfl⟩
        | cons m' rest' =>
          replace hfree : s.free ++ _ = m :: rest := hfree
          rw [hold] at hfree
          cases hfree
          exact ⟨_, rfl⟩
      · rename_i hpage
        rw [if_neg hpage, List.append_nil]
        obtain ⟨rest, hfree⟩ := openFirst_opened hevent
        exact ⟨rest, hfree⟩
    obtain ⟨rest, hfirst⟩ := hfirst
    exact hlow maxSlots i hcall m rest hfirst

theorem RunIf.ids {k : Kern (ℕ × Side)} (hk : Waits.Quiet k) (h : RunIf Low (Sys.mboxInit k) tr s) :
    Ids tr s := by
  induction h with
  | nil => exact ⟨nofun, nofun, nofun⟩
  | cons op hrun hlow henabled hstep ih =>
    have hinv := hrun.run.inv (mboxInit_inv hk)
    refine ih.steps hinv (hinv.steps_of_step henabled hstep) fun p m n he => ?_
    rw [he] at hstep
    exact hlow.of_step hinv henabled hstep

/-- **The ids of mailboxes are usable.**  In every run whose steps open no mailbox from `MAX_MBOX_NUM` on,
`get_mbox` finds a mailbox by its id, with the number of its opening, until it is freed; two mailboxes that are
open have different ids; and the id of one that was freed is in the list again once nobody is inside. -/
theorem ids_usable {k : Kern (ℕ × Side)} (hk : Waits.Quiet k) (hrun : RunIf Low (Sys.mboxInit k) tr s) :
    (∀ p m n, .opened p m n ∈ tr → (∀ r ns, .freed r m n ns ∉ tr) →
      s.getMbox m = true ∧ (s.mbox m).opening = n) ∧
    (∀ p m n q n', .opened p m n ∈ tr → .opened q m n' ∈ tr → (∀ r ns, .freed r m n ns ∉ tr) →
      (∀ r ns, .freed r m n' ns ∉ tr) → n = n') ∧
    ∀ p m n ns, .freed p m n ns ∈ tr → (s.mbox m).state ≠ .opened → (s.mbox m).inuse = 0 → m ∈ s.free := by
  have hids := hrun.ids hk
  have hinv := hrun.run.inv (mboxInit_inv hk)
  have hlive : ∀ p m n, .opened p m n ∈ tr → (∀ r ns, .freed r m n ns ∉ tr) →
      m < MAX_MBOX_NUM ∧ (s.mbox m).life = (.opened, n) := by
    intro p m n hopen hnot
    obtain ⟨hm, hlife | ⟨r, ns, hfreed⟩⟩ := hids.opened p m n hopen
    · exact ⟨hm, hlife⟩
    · exact absurd hfreed (hnot r ns)
  refine ⟨fun p m n hopen hnot => ?_, fun p m n q n' hopen hopen' hnot hnot' => ?_,
    fun p m n ns hfreed hstate hinuse => ?_⟩
  · obtain ⟨hm, hlife⟩ := hlive p m n hopen hnot
    have hopened : (s.mbox m).state = .opened := congrArg Prod.fst hlife
    refine ⟨?_, congrArg Prod.snd hlife⟩
    unfold Sys.getMbox
    rw [hinv.mapped_of_opened hopened, hopened, decide_eq_true hm]
    rfl
  · have hlife := (hlive p m n hopen hnot).2
    rw [(hlive q m n' hopen' hnot').2] at hlife
    exact (congrArg Prod.snd hlife).symm
  · refine hids.listed m (hids.freed p m n ns hfreed) ?_
    cases hbox : (s.mbox m).state with
    | opened => exact absurd hbox hstate
    | closing => exact absurd hinuse (Nat.ne_of_gt (hinv.boxes.closing m hbox).2.1)
    | closed => rfl

/-- Process 1 opens a mailbox and frees it. -/
theorem ids_usable_one : ∃ tr s, RunIf Low (Sys.mboxInit (Kern.boot (ℕ × Side))) tr s ∧
    (∀ p m n, .opened p m n ∈ tr → (∀ r ns, .freed r m n ns ∉ tr) →
      s.getMbox m = true ∧ (s.mbox m).opening = n) ∧
    (∀ p m n q n', .opened p m n ∈ tr → .opened q m n' ∈ tr → (∀ r ns, .freed r m n ns ∉ tr) →
      (∀ r ns, .freed r m n' ns ∉ tr) → n = n') ∧
    ∀ p m n ns, .freed p m n ns ∈ tr → (s.mbox m).state ≠ .opened → (s.mbox m).inuse = 0 → m ∈ s.free := by
  have h₁ := (@RunIf.nil Low (Sys.mboxInit (Kern.boot (ℕ × Side)))).cons (.init 1 1) (fun _ => nofun)
    ⟨rfl, rfl, rfl⟩ rfl
  have h₂ := h₁.cons (.map 1 true) (fun maxSlots i hcall m rest hfree => by
    cases hcall
    cases hfree
    decide) ⟨rfl, _, _, rfl⟩ rfl
  have h₃ := h₂.cons (.free 1 0) trivial ⟨rfl, rfl⟩ rfl
  exact ⟨_, _, h₃, ids_usable (Kern.boot_quiet _) h₃⟩

/-! ## A run that opens every mailbox -/

/-- Process 0 has opened the mailboxes below `j`, and there are `c` pages. -/
structure Filled (c j : ℕ) (s : Sys) : Prop where
  kern : s.kern = Kern.boot (ℕ × Side)
  mapping : s.mapping = false
  opens : s.opens = j
  le : j ≤ c * MBOX_P_PAGE
  free : s.free = List.range' j (c * MBOX_P_PAGE - j)
  mapped : ∀ i, s.mapped i = decide (i < c)

theorem Filled.openFirst {c j : ℕ} (h : Filled c j s) (hlt : j < c * MBOX_P_PAGE) :
    ∃ s', s.openFirst 0 1 = (.opened 0 j j, s') ∧ Filled c (j + 1) s' ∧ s'.call 0 = .idle := by
  have hfree : s.free = j :: List.range' (j + 1) (c * MBOX_P_PAGE - (j + 1)) := by
    rw [h.free, show c * MBOX_P_PAGE - j = (c * MBOX_P_PAGE - (j + 1)) + 1 by omega, List.range'_succ]
  unfold Sys.openFirst
  rw [hfree, h.opens]
  refine ⟨_, rfl, ⟨h.kern, h.mapping, rfl, hlt, rfl, h.mapped⟩, ?_⟩
  show Function.update s.call 0 .idle 0 = .idle
  rw [Function.update_self]

theorem Filled.missingPage {c j : ℕ} (h : Filled c j s) (hc : c < MAX_MBOX_PAGES) : s.missingPage = some c := by
  unfold Sys.missingPage
  rw [List.find?_range_eq_some]
  refine ⟨?_, List.mem_range.mpr hc, fun i hi => ?_⟩
  · rw [h.mapped, decide_eq_false (Nat.lt_irrefl c)]
    rfl
  · rw [h.mapped, decide_eq_true hi]
    rfl

theorem Filled.map {c : ℕ} {s₁ : Sys} (h : Filled c (c * MBOX_P_PAGE) s)
    (hs₁ : s₁ = { s.setCall 0 (.mapping 1 c) with mapping := true }) :
    ∃ s', s₁.map 0 1 c true = (.opened 0 (c * MBOX_P_PAGE) (c * MBOX_P_PAGE), s') ∧
      Filled (c + 1) (c * MBOX_P_PAGE + 1) s' ∧ s'.call 0 = .idle := by
  subst hs₁
  have hpos : 0 < MBOX_P_PAGE := by decide
  have hnext : (c + 1) * MBOX_P_PAGE - c * MBOX_P_PAGE = MBOX_P_PAGE := by
    rw [Nat.succ_mul]
    omega
  have hfree : s.free = [] := by
    rw [h.free, Nat.sub_self]
    rfl
  refine Filled.openFirst (c := c + 1) ⟨h.kern, rfl, h.opens, ?_, ?_, fun i => ?_⟩ ?_
  · rw [Nat.succ_mul]
    omega
  · show s.free ++ (List.range MBOX_P_PAGE).map (c * MBOX_P_PAGE + ·) = _
    rw [hfree, List.nil_append, hnext, List.range'_eq_map_range]
  · show Function.update s.mapped c true i = _
    by_cases hi : i = c
    · rw [hi, Function.update_self, decide_eq_true (Nat.lt_succ_self c)]
    · rw [Function.update_of_ne hi, h.mapped]
      exact decide_eq_decide.mpr (by omega)
  · rw [Nat.succ_mul]
    omega

/-- As many mailboxes are opened as there are in all pages. -/
theorem fill (j : ℕ) (hj : j ≤ MAX_MBOX_PAGES * MBOX_P_PAGE) :
    ∃ c tr s, Run (Sys.mboxInit (Kern.boot (ℕ × Side))) tr s ∧ Filled c j s ∧ s.call 0 = .idle ∧
      (∀ r m n ns, .freed r m n ns ∉ tr) ∧ ∀ i < j, .opened 0 i i ∈ tr := by
  induction j with
  | zero =>
    exact ⟨0, [], _, .nil, ⟨rfl, rfl, rfl, Nat.le_refl _, rfl, fun i => rfl⟩, rfl, nofun, nofun⟩
  | succ j ih =>
    obtain ⟨c, tr, s, hrun, h, hidle, hnot, hopened⟩ := ih (by omega)
    have hrunnable : (s.kern.procs 0).state = .runnable := by
      rw [h.kern]
      rfl
    have henabled : s.Enabled (.init 0 1) := ⟨hrunnable, hidle, h.mapping⟩
    have hinit : s.step (.init 0 1) = .ok (s.ipcMboxInit 0 1) := rfl
    unfold Sys.ipcMboxInit at hinit
    rw [if_neg (by decide)] at hinit
    have hall : ∀ {l : List Event}, (∀ i < j, .opened 0 i i ∈ l) →
        ∀ i < j + 1, Event.opened 0 i i ∈ .opened 0 j j :: l := by
      intro l h i hi
      rcases Nat.lt_succ_iff_lt_or_eq.mp hi with hi | rfl
      · exact List.mem_cons_of_mem _ (h i hi)
      · exact List.mem_cons_self
    rcases Nat.lt_or_eq_of_le h.le with hlt | rfl
    · obtain ⟨s', hopen, h', hidle'⟩ := h.openFirst hlt
      have hne : s.free ≠ [] := by
        rw [h.free, show c * MBOX_P_PAGE - j = (c * MBOX_P_PAGE - (j + 1)) + 1 by omega]
        exact List.cons_ne_nil _ _
      rw [if_neg hne, hopen] at hinit
      exact ⟨c, _, s', hrun.cons _ henabled hinit, h', hidle', fun r m n ns hmem =>
        (List.mem_cons.mp hmem).elim nofun (hnot r m n ns), hall hopened⟩
    · have hc : c < MAX_MBOX_PAGES := by
        have hpos : 0 < MBOX_P_PAGE := by decide
        exact Nat.lt_of_mul_lt_mul_right (Nat.lt_of_succ_le hj)
      have hfree : s.free = [] := by
        rw [h.free, Nat.sub_self]
        rfl
      rw [if_pos hfree, h.missingPage hc] at hinit
      obtain ⟨s₁, hs₁⟩ : ∃ s₁ : Sys, s₁ = { s.setCall 0 (.mapping 1 c) with mapping := true } := ⟨_, rfl⟩
      replace hinit : s.step (.init 0 1) = .ok (.begun 0, s₁) := by
        rw [hs₁]
        exact hinit
      obtain ⟨s', hmap, h', hidle'⟩ := h.map hs₁
      have hcall : s₁.call 0 = .mapping 1 c := by
        rw [hs₁]
        dsimp only
        rw [Sys.setCall_call]
      have hstep : s₁.step (.map 0 true) = .ok (.opened 0 (c * MBOX_P_PAGE) (c * MBOX_P_PAGE), s') := by
        unfold Sys.step
        dsimp only
        rw [hcall]
        exact congrArg Except.ok hmap
      have henabled₁ : s₁.Enabled (.map 0 true) := ⟨by rw [hs₁]; exact hrunnable, _, _, hcall⟩
      refine ⟨c + 1, _, s', (hrun.cons _ henabled hinit).cons _ henabled₁ hstep, h', hidle',
        fun r m n ns hmem => ?_, hall fun i hi => List.mem_cons_of_mem _ (hopened i hi)⟩
      exact (List.mem_cons.mp hmem).elim nofun fun hmem =>
        (List.mem_cons.mp hmem).elim nofun (hnot r m n ns)

/-- The mailbox after the first `MAX_MBOX_NUM` is opened, and `get_mbox` refuses its id. -/
theorem last_page_refused : ∃ tr s, Run (Sys.mboxInit (Kern.boot (ℕ × Side))) tr s ∧
    .opened 0 MAX_MBOX_NUM MAX_MBOX_NUM ∈ tr ∧ (∀ r m n ns, .freed r m n ns ∉ tr) ∧
    s.getMbox MAX_MBOX_NUM = false := by
  obtain ⟨c, tr, s, hrun, -, -, hnot, hopened⟩ := fill (MAX_MBOX_NUM + 1) (by decide)
  refine ⟨tr, s, hrun, hopened _ (Nat.lt_succ_self _), hnot, ?_⟩
  unfold Sys.getMbox
  rw [decide_eq_false (Nat.lt_irrefl _)]
  rfl

end Ucore.Mboxes
