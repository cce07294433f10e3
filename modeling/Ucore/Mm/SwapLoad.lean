import Ucore.Mm.SwapRun

/-!
# Swapping never changes what a process reads

Processes load and store bytes of private pages; the hardware sets the accessed and the dirty bit,
and raises a page fault where it may not go on.  In between the swap daemon does what it likes.

The argument rests on three facts about every state: only the sole owner of a page may write to it
(`Excl`), a dirty bit is set only where the right to write is (`DirtyWritable`), and a page in the
swap cache that is not dirty, by its flag or by a mapping, is what its slot has (`Clean`).
-/

namespace Ucore.Sys

/-- Among the entries `P`, the right to write is only with the sole owner of a page. -/
def Excl (s : Sys) (P : Loc → Prop) : Prop :=
  ∀ x f p, P x → s.pte x = .page f p → p.w = true → s.Sole x f

/-- A dirty bit is only where the right to write is. -/
def DirtyWritable (s : Sys) : Prop := ∀ x f p, s.pte x = .page f p → p.d = true → p.w = true

/-! ## The hardware -/

/-- A load of the byte at `addr`; `none` is a page fault. -/
def load (s : Sys) (mm addr : ℕ) : Option (UInt8 × Sys) :=
  match s.pte (ptep mm addr) with
  | .page f p =>
    if p.u then
      some (s.data f (addr % PGSIZE), s.setPte (ptep mm addr) (.page f { p with a := true }))
    else none
  | _ => none

/-- The contents of a frame are overwritten. -/
def setData (s : Sys) (f : ℕ) (d : Data) : Sys := { s with data := Function.update s.data f d }

/-- A store of a byte at `addr`; `none` is a page fault. -/
def store (s : Sys) (mm addr : ℕ) (v : UInt8) : Option Sys :=
  match s.pte (ptep mm addr) with
  | .page f p =>
    if p.u ∧ p.w then
      some ((s.setPte (ptep mm addr) (.page f { p with a := true, d := true })).setData f
        (Function.update (s.data f) (addr % PGSIZE) v))
    else none
  | _ => none

/-- The error code of a page fault in user mode: present, write, user. -/
def errorCode (s : Sys) (mm addr : ℕ) (write : Bool) : ℕ :=
  (match s.pte (ptep mm addr) with
    | .page _ _ => 1
    | _ => 0) + (if write then 2 else 0) + 4

variable {s s' : Sys} {x y : Loc} {f o : ℕ} {env : Env} {mm addr : ℕ} {v : UInt8}
  {P : Loc → Prop}

/-! ## Exclusive rights -/

theorem Excl.adjusts (h : s.Excl P) (hadj : Adjusts s s' x) : s'.Excl P := by
  intro y f p hP hy hw
  by_cases hyx : y = x
  · subst hyx
    rcases hadj.writable f p hy hw with hsole | ⟨⟨p', hp', hw'⟩, hown⟩
    · exact hsole
    · exact fun z hz => h y f p' hP hp' hw' z (hown z hz)
  · have hy' : s.pte y = .page f p := by rw [← hadj.paged.pte y hyx, hy]
    have hsole := h y f p hP hy' hw
    intro z hz
    by_cases hzx : z = x
    · subst hzx
      rcases hadj.origin f hz with hz' | hno
      · exact hsole z hz'
      · exact absurd (Or.inl ⟨p, hy'⟩) (hno y)
    · exact hsole z (hadj.paged.owns_old hyx hy hzx hz)

theorem Excl.of_old (h : s.Excl P) (hpte : s'.pte = s.pte) (hold : CachesOld s s' Untouched) :
    s'.Excl P := by
  intro y f p hP hy hw z hz
  have hy' : s.pte y = .page f p := by rw [← hpte, hy]
  exact h y f p hP hy' hw z (hold.owns hy id (by rw [hpte]) hz)

theorem Quiet.old (hq : Quiet s s') (h : s.Paging) : CachesOld s s' Untouched := by
  intro y f p o hy hc
  rcases hq.grows.2 f o hc with hc' | hfree
  · exact Or.inl hc'
  · rw [hq.pte] at hy
    exact absurd (Or.inl ⟨p, hy⟩) (h.free_not_owned hfree y)

theorem DirtyWritable.adjusts (h : s.DirtyWritable) (hadj : Adjusts s s' x) : s'.DirtyWritable := by
  intro y f p hy hd
  by_cases hyx : y = x
  · subst hyx
    obtain ⟨f', p', hp', hd', hw⟩ := hadj.dirty f p hy hd
    exact hw (h y f' p' hp' hd')
  · rw [hadj.paged.pte y hyx] at hy
    exact h y f p hy hd

/-- A page without mappings has no dirty mapping. -/
theorem Paging.not_dirtyIn (h : s.Paging) (hR : refs s.pte f = 0) : ¬ DirtyIn s.pte f := by
  rintro ⟨x, p, hx, -⟩
  exact refs_pos h.finite hx hR

/-! ## What holds of every state -/

/-- What swapping relies on. -/
structure Coherent (s : Sys) : Prop where
  paging : s.Paging
  excl : s.Excl fun _ => True
  dirtyWritable : s.DirtyWritable
  clean : s.Clean (DirtyIn s.pte)

/-- A call after which every process reads what it would have read before. -/
structure Transparent (s s' : Sys) : Prop where
  coherent : s'.Coherent
  view : ∀ y, s.pte y ≠ .zero → s'.view y = s.view y

theorem Coherent.adjusts (h : s.Coherent) (hadj : Adjusts s s' x) : Transparent s s' := by
  refine ⟨⟨hadj.paged.paging, h.excl.adjusts hadj, h.dirtyWritable.adjusts hadj, ?_⟩, fun y hy => ?_⟩
  · exact hadj.clean (fun f p => h.dirtyWritable x f p) h.clean
  · by_cases hyx : y = x
    · subst hyx
      exact hadj.view hy
    · exact hadj.paged.view y hyx

theorem Transparent.trans {s'' : Sys} (h : Transparent s s') (h' : Transparent s' s'') :
    Transparent s s'' := by
  refine ⟨h'.coherent, fun y hy => ?_⟩
  have hy' : s'.pte y ≠ .zero := by
    rw [ne_eq, ← view_eq_none, h.view y hy, view_eq_none]
    exact hy
  rw [h'.view y hy', h.view y hy]

theorem Coherent.adjustsSome (h : s.Coherent) (hadj : AdjustsSome s s') : Transparent s s' := by
  induction hadj with
  | refl => exact ⟨h, fun _ _ => rfl⟩
  | tail _ hstep ih =>
    obtain ⟨x, hx⟩ := hstep
    exact ih.trans (ih.coherent.adjusts hx)

theorem Coherent.keep (h : s.Coherent) (hinv : s'.SwapInv (refs s.pte) (holders s.pte))
    (hk : Keeps s s' (refs s.pte) (holders s.pte)) : Transparent s s' := by
  obtain ⟨hpaged, hold, hclean⟩ := h.paging.keep hinv hk
  refine ⟨⟨hpaged.paging, h.excl.of_old hk.pte hold, ?_, hclean h.clean⟩, fun y _ => hpaged.view y id⟩
  intro y f p hy
  rw [hk.pte] at hy
  exact h.dirtyWritable y f p hy

theorem Coherent.quiet (h : s.Coherent) (hq : Quiet s s') : Transparent s s' := by
  refine ⟨⟨hq.paged.paging, h.excl.of_old hq.pte (hq.old h.paging), ?_, hq.clean h.clean⟩,
    fun y _ => hq.paged.view y id⟩
  intro y f p hy
  rw [hq.pte] at hy
  exact h.dirtyWritable y f p hy

/-! ## Loads and stores -/

theorem Coherent.load_spec (h : s.Coherent) (hrun : s.load mm addr = some (v, s')) :
    Transparent s s' ∧ ∃ d, s.view (ptep mm addr) = some d ∧ d (addr % PGSIZE) = v := by
  unfold load at hrun
  split at hrun
  · rename_i f p hx
    split at hrun
    · cases hrun
      refine ⟨h.adjusts (h.paging.setEntry hx rfl rfl), s.data f, ?_, rfl⟩
      exact h.paging.view_owns (Or.inl ⟨p, hx⟩)
    · cases hrun
  · cases hrun

/-- The contents of a frame change: who does not stand for its page does not see it. -/
theorem Paging.write (h : s.Paging) (f : ℕ) (d : Data) :
    (s.setData f d).Paging ∧ ∀ y, ¬ s.Owns y f → (s.setData f d).view y = s.view y := by
  have hinv : (s.setData f d).SwapInv _ _ := h.swap.setData (Function.update s.data f d)
  refine ⟨⟨h.finite, hinv, h.table, h.inj, h.apart, h.shmInj⟩, fun y hy => ?_⟩
  have hdata : ∀ g, g ≠ f → (s.setData f d).data g = s.data g := fun g hg =>
    Function.update_of_ne hg _ _
  have hpte : (s.setData f d).pte y = s.pte y := rfl
  unfold view
  rw [hpte]
  cases hp : s.pte y with
  | zero => rfl
  | page g p => simp only [hdata g fun hgf => hy (Or.inl ⟨p, hgf ▸ hp⟩)]
  | swap o =>
    have hslot : (s.setData f d).slot o = s.slot o := by
      refine h.swap.cache.slot_eq hinv.cache (fun _ => Iff.rfl) (fun g hg => hdata g ?_) rfl
      exact fun hgf => hy (Or.inr ⟨o, hp, hgf ▸ hg⟩)
    simp only [hslot]

/-- What a store does to the entry and to the frame of its page. -/
theorem store_eq (hrun : s.store mm addr v = some s') :
    ∃ f p, s.pte (ptep mm addr) = .page f p ∧ p.w = true ∧
      s' = (s.setPte (ptep mm addr) (.page f { p with a := true, d := true })).setData f
        (Function.update (s.data f) (addr % PGSIZE) v) := by
  unfold store at hrun
  split at hrun
  · rename_i f p hx
    split at hrun
    · rename_i hperm
      cases hrun
      exact ⟨f, p, hx, hperm.2, rfl⟩
    · cases hrun
  · cases hrun

/-- **A store is seen by its own page only.** -/
theorem Coherent.store_spec (h : s.Coherent) (hrun : s.store mm addr v = some s') :
    s'.Coherent ∧ (∀ y, y ≠ ptep mm addr → s'.view y = s.view y) ∧
      ∃ d, s.view (ptep mm addr) = some d ∧
        s'.view (ptep mm addr) = some (Function.update d (addr % PGSIZE) v) := by
  obtain ⟨f, p, hx, hw, rfl⟩ := store_eq hrun
  generalize hd : Function.update (s.data f) (addr % PGSIZE) v = d
  generalize hx₀ : ptep mm addr = x at hx ⊢
  obtain ⟨hpaged, hpte, hown⟩ := h.paging.rewrite hx { p with a := true, d := true }
  have hsole := h.excl x f p trivial hx hw
  have hclean : (s.setPte x (.page f { p with a := true, d := true })).Clean (DirtyIn s.pte) :=
    h.clean
  have hdirtyIn : ∀ g, g ≠ f → DirtyIn s.pte g →
      DirtyIn (s.setPte x (.page f { p with a := true, d := true })).pte g := by
    intro g hgf hD
    rcases hD.update_or x (.page f { p with a := true, d := true }) with hD' | ⟨q, hq, -⟩
    · exact hD'
    · rw [hx] at hq
      cases hq
      exact absurd rfl hgf
  generalize s.setPte x (.page f { p with a := true, d := true }) = s₁ at *
  obtain ⟨hpaging, hviews⟩ := hpaged.paging.write f d
  refine ⟨⟨hpaging, ?_, ?_, ?_⟩, fun y hy => ?_, s.data f, h.paging.view_owns (Or.inl ⟨p, hx⟩), ?_⟩
  · -- nobody has gained a page
    intro y g q _ (hy : s₁.pte y = .page g q) hqw z hz
    have hz' := hown z g hz
    by_cases hyx : y = x
    · subst hyx
      rw [hpte] at hy
      cases hy
      exact hsole z hz'
    · rw [hpaged.pte y hyx] at hy
      exact h.excl y g q trivial hy hqw z hz'
  · intro y g q (hy : s₁.pte y = .page g q) hqd
    by_cases hyx : y = x
    · subst hyx
      rw [hpte] at hy
      cases hy
      exact hw
    · rw [hpaged.pte y hyx] at hy
      exact h.dirtyWritable y g q hy hqd
  · -- the written page has a dirty mapping, the others are as before
    intro g hg hdirty hDg
    have hgf : g ≠ f := by
      intro hgf
      subst hgf
      exact hDg ⟨x, _, hpte, rfl⟩
    have hold := hclean g hg hdirty fun hD => hDg (hdirtyIn g hgf hD)
    rw [show (s₁.setData f d).data g = s₁.data g from Function.update_of_ne hgf _ _]
    exact hold
  · rw [hviews y fun hyf => hy (hsole y (hown y f hyf)), hpaged.view y hy]
  · rw [hpaging.view_owns (Or.inl ⟨_, hpte⟩), hd]
    simp [setData]

/-! ## Runs -/

/-- What a step is to the processes: an access to a byte, or none. -/
inductive Event where
  | load (mm addr : ℕ) (v : UInt8)
  | store (mm addr : ℕ) (v : UInt8)
  | internal

/-- One step: an access by a process, the fault it raises, or one call of the swap daemon.  The area
of a fault is whatever private area `find_vma` finds, if any. -/
inductive MemStep (s : Sys) : Event → Sys → Prop
  | load {s' : Sys} {mm addr : ℕ} {v : UInt8} (hrun : s.load mm addr = some (v, s')) :
      MemStep s (.load mm addr v) s'
  | store {s' : Sys} {mm addr : ℕ} {v : UInt8} (hrun : s.store mm addr v = some s') :
      MemStep s (.store mm addr v) s'
  | loadFault {s' : Sys} (env : Env) (mm addr : ℕ) (vma : Option Vma) (ret : Int)
      (hpriv : ∀ v, vma = some v → v.vmFlags &&& VM_SHARE = 0) (hfault : s.load mm addr = none)
      (hrun : s.doPgfault env mm vma (s.errorCode mm addr false) addr = some (ret, s')) :
      MemStep s .internal s'
  | storeFault {s' : Sys} (env : Env) (mm addr : ℕ) (v : UInt8) (vma : Option Vma) (ret : Int)
      (hpriv : ∀ v, vma = some v → v.vmFlags &&& VM_SHARE = 0) (hfault : s.store mm addr v = none)
      (hrun : s.doPgfault env mm vma (s.errorCode mm addr true) addr = some (ret, s')) :
      MemStep s .internal s'
  | swapOutVma {s' : Sys} (env : Env) (mm : ℕ) (vma : Vma) (addr require : ℕ)
      (hpriv : vma.vmFlags &&& VM_SHARE = 0)
      (hrun : s.swapOutVma env mm vma addr require = some s') : MemStep s .internal s'
  | pageLaunder {s' : Sys} (env : Env) (hrun : s.pageLaunder env = some s') :
      MemStep s .internal s'
  | refillInactiveScan {s' : Sys} (hrun : s.refillInactiveScan = some s') : MemStep s .internal s'
  | swapInPage {s' : Sys} (env : Env) (o : ℕ) (ret : Int) (f : ℕ)
      (hused : s.memMap o ≠ SWAP_UNUSED) (hrun : s.swapInPage env o = some (ret, f, s')) :
      MemStep s .internal s'
  | tryAllocSwapEntry {s' : Sys} (o : ℕ) (hrun : s.tryAllocSwapEntry = some (o, s')) :
      MemStep s .internal s'

/-- Any number of steps, with what they were, the last one first. -/
inductive MemRun (s₀ : Sys) : List Event → Sys → Prop
  | nil : MemRun s₀ [] s₀
  | cons {tr : List Event} {e : Event} {s s' : Sys} (hrun : MemRun s₀ tr s)
      (hstep : MemStep s e s') : MemRun s₀ (e :: tr) s'

/-- The last value stored at `addr`. -/
def lastStore (mm addr : ℕ) : List Event → Option UInt8
  | [] => none
  | .store m a v :: tr => if m = mm ∧ a = addr then some v else lastStore mm addr tr
  | _ :: tr => lastStore mm addr tr

/-- The last value stored at `addr` or loaded from it. -/
def lastSeen (mm addr : ℕ) : List Event → Option UInt8
  | [] => none
  | .store m a v :: tr | .load m a v :: tr =>
    if m = mm ∧ a = addr then some v else lastSeen mm addr tr
  | .internal :: tr => lastSeen mm addr tr

/-- The entry of `addr` stands for a page that has `v` there. -/
def HasByte (s : Sys) (mm addr : ℕ) (v : UInt8) : Prop :=
  ∃ d, s.view (ptep mm addr) = some d ∧ d (addr % PGSIZE) = v

theorem Transparent.hasByte (h : Transparent s s') (hv : s.HasByte mm addr v) :
    s'.HasByte mm addr v := by
  obtain ⟨d, hd, hdv⟩ := hv
  have hne : s.pte (ptep mm addr) ≠ .zero := by
    rw [ne_eq, ← view_eq_none, hd]
    exact Option.some_ne_none d
  exact ⟨d, by rw [h.view _ hne, hd], hdv⟩

/-- A step in which no process gets anything done changes nothing for them. -/
theorem Coherent.internal (h : s.Coherent) (hstep : MemStep s .internal s') : Transparent s s' := by
  cases hstep with
  | loadFault env mm addr vma ret hpriv hfault hrun =>
    exact h.adjusts (h.paging.doPgfault_spec hpriv hrun)
  | storeFault env mm addr v vma ret hpriv hfault hrun =>
    exact h.adjusts (h.paging.doPgfault_spec hpriv hrun)
  | swapOutVma env mm vma addr require hpriv hrun =>
    exact h.adjustsSome (h.paging.swapOutVma_spec hpriv hrun)
  | pageLaunder env hrun =>
    -- a page without mappings that goes to its slot, or away, is clean by then
    have hl := h.paging.swap.pageLaunder_spec hrun
    exact h.keep hl.inv (hl.keeps (DirtyIn s.pte) (fun _ => h.paging.not_dirtyIn) h.clean)
  | refillInactiveScan hrun =>
    obtain ⟨hinv, ac, al, il, rfl⟩ := h.paging.swap.refillInactiveScan_spec hrun
    exact h.keep hinv ⟨⟨rfl, rfl, rfl, rfl, rfl, fun _ _ _ hc => Or.inl hc⟩, fun _ _ => rfl,
      fun _ _ => rfl, fun _ hc => hc⟩
  | swapInPage env o ret f hused hrun => exact h.quiet (h.paging.swapInPage_spec hused hrun).1
  | tryAllocSwapEntry o hrun =>
    obtain ⟨o', s₁, hrun', hinv, hkeeps, -⟩ := h.paging.swap.tryAllocSwapEntry_spec
    rw [hrun] at hrun'
    cases hrun'
    exact h.keep hinv hkeeps

/-- What a store leaves of the bytes that processes have seen. -/
theorem Coherent.store_hasByte (h : s.Coherent) (hrun : s.store mm addr v = some s') {m a : ℕ}
    {w : UInt8} (hv : if mm = m ∧ addr = a then v = w else s.HasByte m a w) : s'.HasByte m a w := by
  obtain ⟨-, hother, d, hd, hd'⟩ := h.store_spec hrun
  split at hv
  · rename_i hsame
    obtain ⟨rfl, rfl⟩ := hsame
    exact ⟨_, hd', by rw [Function.update_self, hv]⟩
  · rename_i hne
    obtain ⟨d₀, hd₀, hw⟩ := hv
    by_cases hx : ptep m a = ptep mm addr
    · -- another byte of the same page
      rw [hx, hd] at hd₀
      cases hd₀
      refine ⟨_, by rw [hx, hd'], ?_⟩
      rw [Function.update_of_ne, hw]
      intro hoff
      unfold ptep at hx
      simp only [Loc.user.injEq] at hx
      refine hne ⟨hx.1.symm, ?_⟩
      rw [← Nat.div_add_mod addr PGSIZE, ← Nat.div_add_mod a PGSIZE, hoff, hx.2]
    · exact ⟨d₀, by rw [hother _ hx, hd₀], hw⟩

theorem Coherent.step {e : Event} (h : s.Coherent) (hstep : MemStep s e s') : s'.Coherent := by
  cases e with
  | load m a v =>
    cases hstep with
    | load hrun => exact (h.load_spec hrun).1.coherent
  | store m a v =>
    cases hstep with
    | store hrun => exact (h.store_spec hrun).1
  | internal => exact (h.internal hstep).coherent

theorem Init.coherent (h : s.Init) : s.Coherent := by
  refine ⟨h.paging, fun x f p _ hx => ?_, fun x f p hx => ?_, fun f hf => ?_⟩
  · rw [h.pte] at hx
    cases hx
  · rw [h.pte] at hx
    cases hx
  · rw [h.pageSwap] at hf
    cases hf

/-- The bytes that processes have seen are there. -/
def Agrees (s : Sys) (tr : List Event) : Prop :=
  ∀ mm addr w, lastSeen mm addr tr = some w → s.HasByte mm addr w

theorem Coherent.load_agrees {tr : List Event} {w : UInt8} (h : s.Coherent) (hag : s.Agrees tr)
    (hrun : s.load mm addr = some (v, s')) (hw : lastSeen mm addr tr = some w) : v = w := by
  obtain ⟨-, d, hd, rfl⟩ := h.load_spec hrun
  obtain ⟨d', hd', rfl⟩ := hag mm addr w hw
  rw [hd] at hd'
  cases hd'
  rfl

/-- One step keeps what processes have seen. -/
theorem Agrees.step {tr : List Event} {e : Event} (hag : s.Agrees tr) (h : s.Coherent)
    (hstep : MemStep s e s') : s'.Agrees (e :: tr) := by
  intro m a w hw
  cases e with
  | load mm addr v =>
    cases hstep with
    | load hrun =>
      obtain ⟨htr, hbyte⟩ := h.load_spec hrun
      simp only [lastSeen] at hw
      split at hw
      · rename_i hsame
        obtain ⟨rfl, rfl⟩ := hsame
        cases hw
        exact htr.hasByte hbyte
      · exact htr.hasByte (hag m a w hw)
  | store mm addr v =>
    cases hstep with
    | store hrun =>
      simp only [lastSeen] at hw
      refine h.store_hasByte hrun ?_
      split at hw
      · rename_i hsame
        rw [if_pos hsame]
        exact Option.some.inj hw
      · rename_i hne
        rw [if_neg hne]
        exact hag m a w hw
  | internal => exact (h.internal hstep).hasByte (hag m a w hw)

theorem MemRun.spec {s₀ : Sys} {tr : List Event} (h₀ : s₀.Init) (h : MemRun s₀ tr s) :
    s.Coherent ∧ s.Agrees tr := by
  induction h with
  | nil => exact ⟨h₀.coherent, fun _ _ _ hw => by cases hw⟩
  | cons _ hstep ih => exact ⟨ih.1.step hstep, ih.2.step ih.1 hstep⟩

/-- The loads since the last store have returned its value. -/
theorem MemRun.lastSeen_of_lastStore {s₀ : Sys} {tr : List Event} {w : UInt8} (h₀ : s₀.Init)
    (h : MemRun s₀ tr s) (hw : lastStore mm addr tr = some w) : lastSeen mm addr tr = some w := by
  induction h with
  | nil => cases hw
  | @cons tr e s₁ s₂ hrun hstep ih =>
    cases e with
    | load m a v =>
      cases hstep with
      | load hload =>
        simp only [lastStore] at hw
        simp only [lastSeen]
        split
        · rename_i hsame
          obtain ⟨rfl, rfl⟩ := hsame
          obtain ⟨hcoh, hag⟩ := hrun.spec h₀
          rw [hcoh.load_agrees hag hload (ih hw)]
        · exact ih hw
    | store m a v =>
      simp only [lastStore] at hw
      simp only [lastSeen]
      split
      · rename_i hsame
        rwa [if_pos hsame] at hw
      · rename_i hne
        rw [if_neg hne] at hw
        exact ih hw
    | internal => exact ih hw

/-- **Swapping never changes what a process reads.**  In every run from a machine that has just
initialised swapping, every load returns the last value stored at that address in that address space;
before the first store it returns what the loads before it did. -/
theorem swap_transparent {s₀ s s' : Sys} {tr : List Event} {mm addr : ℕ} {v : UInt8}
    (h₀ : s₀.Init) (hrun : MemRun s₀ tr s) (hload : MemStep s (.load mm addr v) s') :
    (∀ w, lastStore mm addr tr = some w → v = w) ∧ (∀ w, lastSeen mm addr tr = some w → v = w) := by
  obtain ⟨hcoh, hag⟩ := hrun.spec h₀
  cases hload with
  | load hl =>
    exact ⟨fun w hw => hcoh.load_agrees hag hl (hrun.lastSeen_of_lastStore h₀ hw),
      fun w hw => hcoh.load_agrees hag hl hw⟩

/-- As `bootEnv`; pages that come back get the frame `2`. -/
def swapEnv : Env where
  pick
    | .table _ => some 0
    | .swapIn => some 2
    | _ => some 1
  junk _ _ := 0
  readOk := true
  write _ := none

theorem bootVma_private : ∀ v, some bootVma = some v → v.vmFlags &&& VM_SHARE = 0 := by
  intro v hv
  cases hv
  decide

theorem swapOutVma_bootVma (s : Sys) (env : Env) (f : ℕ) (hpde : s.pde 0 0 = some f) :
    s.swapOutVma env 0 bootVma USERBASE 1 =
      (s.swapOutPte env 0 bootVma USERBASE).map Prod.snd := by
  have hstop : roundup bootVma.vmEnd = USERBASE + PGSIZE := by decide
  have hdown : rounddown USERBASE = USERBASE := by decide
  have htab : s.pde 0 (USERBASE / PTSIZE) = some f := hpde
  unfold swapOutVma
  rw [if_neg (by decide), hstop, hdown, swapOutLoop, if_pos (by decide), htab]
  cases s.swapOutPte env 0 bootVma USERBASE with
  | none => rfl
  | some r =>
    show swapOutLoop _ _ _ _ _ _ _ = _
    rw [swapOutLoop, if_neg fun hgo => absurd hgo.1 (by decide)]
    rfl

/-- A byte is stored, its page is swapped out, written, freed and read back into another frame. -/
theorem swap_transparent_round_trip : ∃ tr s s' v, MemRun boot tr s ∧
    s.pte (.user 0 512) = .page 2 ⟨true, false, false, false⟩ ∧
    MemStep s (.load 0 USERBASE v) s' ∧ v = 7 := by
  have hround : ∃ s s' v, MemRun boot [.internal, .internal, .internal, .internal, .internal,
      .store 0 USERBASE 7, .internal] s ∧ s.pte (.user 0 512) = .page 2 ⟨true, false, false, false⟩ ∧
      MemStep s (.load 0 USERBASE v) s' := by
    -- the first swap_out_vma clears the accessed bit, the second takes the page
    have h₁ := (@MemRun.nil boot).cons
      (.storeFault bootEnv 0 USERBASE 7 (some bootVma) 0 bootVma_private rfl rfl)
    have h₂ : MemRun boot [.store 0 USERBASE 7, .internal] _ := h₁.cons (.store rfl)
    have h₃ := h₂.cons (.swapOutVma bootEnv 0 bootVma USERBASE 1 (by decide)
      ((swapOutVma_bootVma _ _ 0 rfl).trans rfl))
    have h₄ := h₃.cons (.swapOutVma bootEnv 0 bootVma USERBASE 1 (by decide)
      ((swapOutVma_bootVma _ _ 0 rfl).trans rfl))
    have h₅ := (h₄.cons (.refillInactiveScan rfl)).cons (.pageLaunder bootEnv rfl)
    have h₆ := h₅.cons (.loadFault swapEnv 0 USERBASE (some bootVma) 0 bootVma_private rfl rfl)
    exact ⟨_, _, _, h₆, rfl, .load rfl⟩
  obtain ⟨s, s', v, hrun, hpte, hload⟩ := hround
  exact ⟨_, s, s', v, hrun, hpte, hload, (swap_transparent boot_init hrun hload).1 7 rfl⟩

end Ucore.Sys
