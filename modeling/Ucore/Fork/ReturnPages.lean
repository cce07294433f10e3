import Ucore.Fork.LentPages

/-!
# Page tables that are given back

`unmap_range` clears the copies in a new address space, and `exit_range` frees its page tables.  Each copy
shares its page or its swap entry with an entry of another address space, so no reference count drops to
zero on the way.
-/

namespace Ucore.Sys

open Occurrence

variable {s₀ s s' : Sys} {x y : Loc} {f g o mm vpn la : ℕ} {env : Env} {perm : Perm} {weak : Loc → Prop}

theorem SamePage.eq_page {d : Pte} (h : SamePage d (.page f perm)) : ∃ q, d = .page f q := by
  cases d with
  | page g q =>
    cases h
    exact ⟨q, rfl⟩
  | zero => cases h
  | swap o => cases h

theorem SamePage.eq_swap {d : Pte} (h : SamePage d (.swap o)) : d = .swap o := by
  cases d with
  | swap p =>
    cases h
    rfl
  | zero => cases h
  | page f q => cases h

/-- Two entries of a page are two references. -/
theorem Paging.two_le_refs (h : s.Paging) (hxy : x ≠ y) {q : Perm} (hx : s.pte x = .page f perm)
    (hy : s.pte y = .page f q) : 2 ≤ refs s.pte f := by
  by_contra hlt
  exact hxy (eq_of_occ_le_one (finite_maps h.finite f) (by unfold refs at hlt; omega) ⟨perm, hx⟩ ⟨q, hy⟩)

theorem Paging.two_le_holders (h : s.Paging) (hxy : x ≠ y) (hx : s.pte x = .swap o) (hy : s.pte y = .swap o) :
    2 ≤ holders s.pte o := by
  by_contra hlt
  exact hxy (eq_of_occ_le_one (finite_holds h.finite o) (by unfold holders at hlt; omega) hx hy)

/-- One entry of the new address space is cleared, and counts of what was in use change. -/
theorem Borrowed.clear (h : Borrowed s₀ s mm weak) (hx : OfMm mm x) (hpag : s'.Paging) (hframe : s' = overlay s s')
    (hpte : s'.pte = Function.update s.pte x .zero) (hpde : s'.pde = s.pde) (hfree : s'.free = s.free)
    (hdata : s'.data = s.data) (href : ∀ g, s₀.IsTable g → s'.pageRef g = s.pageRef g)
    (hmap : ∀ o, ¬ s₀.InRange o → s'.memMap o = s.memMap o) : Borrowed s₀ s' mm weak := by
  have hother : ∀ z, z ≠ x → s'.pte z = s.pte z := fun z hz => by rw [hpte, Function.update_of_ne hz]
  refine ⟨h.before, h.unborn, hpag, overlay_trans h.frame hframe, fun z hz => ?_, fun z hz hne => ?_, ?_, ?_, ?_,
    fun g hg => (href g hg).trans (h.tableRef g hg), fun o ho => (hmap o ho).trans (h.unheld o ho)⟩
  · rw [hother z fun heq => hz (heq ▸ hx)]
    exact h.pte z hz
  · have hzx : z ≠ x := by
      rintro rfl
      rw [hpte, Function.update_self] at hne
      exact hne rfl
    rw [hother z hzx] at hne ⊢
    obtain ⟨hd, w, hw, hpage⟩ := h.copies z hz hne
    exact ⟨hd, w, hw, by rw [hother w fun heq => hw (heq ▸ hx)]; exact hpage⟩
  · rw [hpde]
    exact h.pde
  · rw [hfree, hpde]
    exact h.free
  · rw [hdata]
    exact h.data

/-- The reference count of a page that another entry maps does not drop to zero. -/
theorem Borrowed.clearPage (h : Borrowed s₀ s mm weak) (hof : OfMm mm x) (hx : s.pte x = .page f perm)
    (hrun : s.pageRemovePte x = some s') : s' = (s.pageRefDec f).setPte x .zero := by
  obtain ⟨hclean, y, hy, hsame⟩ := h.copies x hof (by simp [hx])
  rw [hx] at hclean hsame
  obtain ⟨q, hq⟩ := SamePage.eq_page hsame
  have hd : perm.d = false := hclean
  have htwo := h.paging.two_le_refs (fun heq : x = y => hy (heq ▸ hof)) hx hq
  have href := h.paging.swap.counts.ref f (h.paging.mapped_noTable hx)
  unfold pageRemovePte at hrun
  rw [hx] at hrun
  dsimp only at hrun
  split at hrun
  · have hne : (s.pageRefDec f).pageRef f ≠ 0 := by
      show Function.update s.pageRef f (s.pageRef f - 1) f ≠ 0
      rw [Function.update_self, href]
      omega
    rw [if_neg hne] at hrun
    exact (Option.some.inj hrun).symm
  · rw [hd] at hrun
    exact (Option.some.inj hrun).symm

/-- The count of a swap entry that another entry holds does not drop to zero. -/
theorem Borrowed.clearSwap (h : Borrowed s₀ s mm weak) (hof : OfMm mm x) (hx : s.pte x = .swap o)
    (hrun : s.pageRemovePte x = some s') :
    s.InRange o ∧ s' = (s.setMemMap o (s.memMap o - 1)).setPte x .zero := by
  obtain ⟨-, y, hy, hsame⟩ := h.copies x hof (by simp [hx])
  rw [hx] at hsame
  have hyo := SamePage.eq_swap hsame
  have htwo := h.paging.two_le_holders (fun heq : x = y => hy (heq ▸ hof)) hx hyo
  obtain ⟨hcount, -⟩ := h.paging.swap.counts.memMap_held (holders_pos h.paging.finite hx)
  unfold pageRemovePte at hrun
  rw [hx] at hrun
  obtain ⟨s₁, hrem, rfl⟩ := Option.map_eq_some_iff.mp hrun
  unfold swapRemoveEntry at hrem
  obtain ⟨p, hp, hrest⟩ := Option.bind_eq_some_iff.mp hrem
  obtain ⟨_, -, hrest⟩ := Option.bind_eq_some_iff.mp hrest
  obtain ⟨rfl, hr⟩ := swapOffset_eq_some hp
  have hne : (s.setMemMap p (s.memMap p - 1)).memMap p ≠ 0 := by
    show Function.update s.memMap p (s.memMap p - 1) p ≠ 0
    rw [Function.update_self, hcount]
    omega
  dsimp only at hrest
  rw [if_neg hne] at hrest
  cases hrest
  exact ⟨hr, rfl⟩

/-- **`page_remove_pte` of a copy.** -/
theorem Borrowed.pageRemovePte (h : Borrowed s₀ s mm weak) (hof : OfMm mm x) (hrun : s.pageRemovePte x = some s') :
    Borrowed s₀ s' mm weak ∧ s'.pde = s.pde := by
  have hpag := (h.paging.pageRemovePte_spec hrun).1.paging
  cases hx : s.pte x with
  | zero =>
    unfold Sys.pageRemovePte at hrun
    rw [hx] at hrun
    cases hrun
    exact ⟨h, rfl⟩
  | page f perm =>
    have hno := h.paging.mapped_noTable hx
    obtain rfl := h.clearPage hof hx hrun
    refine ⟨h.clear hof hpag rfl rfl rfl rfl rfl (fun g hg => ?_) fun _ _ => rfl, rfl⟩
    exact Function.update_of_ne (fun heq : g = f => hno (heq ▸ h.isTable hg)) ..
  | swap o =>
    obtain ⟨hr, rfl⟩ := h.clearSwap hof hx hrun
    refine ⟨h.clear hof hpag rfl rfl rfl rfl rfl (fun _ _ => rfl) fun p hp => ?_, rfl⟩
    exact Function.update_of_ne (fun heq : p = o => hp ((h.inRange p).mp (heq ▸ hr))) ..

theorem unmapLoop_borrowed (stop start : ℕ) (s : Sys) {s' : Sys} (h : Borrowed s₀ s mm weak)
    (hrun : unmapLoop mm stop start s = some s') : Borrowed s₀ s' mm weak ∧ s'.pde = s.pde := by
  fun_induction unmapLoop mm stop start s with
  | case1 start s hpde hgo ih => exact ih h hrun
  | case2 start s hpde hstop =>
    cases hrun
    exact ⟨h, rfl⟩
  | case3 start s f hpde ih =>
    obtain ⟨s₁, hrem, hrest⟩ := Option.bind_eq_some_iff.mp hrun
    obtain ⟨hb, hpde₁⟩ := h.pageRemovePte (x := ptep mm start) rfl hrem
    split at hrest
    · rename_i hgo
      obtain ⟨hb', hpde'⟩ := ih s₁ hgo hb hrest
      exact ⟨hb', hpde'.trans hpde₁⟩
    · cases hrest
      exact ⟨hb, hpde₁⟩

/-- **`unmap_range`** clears the copies of a range, and leaves the others. -/
theorem Borrowed.unmapRange {start stop : ℕ} (h : Borrowed s₀ s mm weak)
    (hrun : s.unmapRange mm start stop = some s') :
    Borrowed s₀ s' mm weak ∧ s'.pde = s.pde ∧ (∀ vpn, InPages start stop vpn → s'.pte (.user mm vpn) = .zero) ∧
      ∀ vpn, s.pte (.user mm vpn) = .zero → s'.pte (.user mm vpn) = .zero := by
  obtain ⟨hpaged, -, hzero⟩ := h.paging.unmapRange_spec hrun
  have hloop := hrun
  unfold Sys.unmapRange at hloop
  obtain ⟨_, -, hloop⟩ := Option.bind_eq_some_iff.mp hloop
  obtain ⟨_, -, hloop⟩ := Option.bind_eq_some_iff.mp hloop
  obtain ⟨hb, hpde⟩ := unmapLoop_borrowed stop start s h hloop
  refine ⟨hb, hpde, hzero, fun v hv => ?_⟩
  by_cases hin : InPages start stop v
  · exact hzero v hin
  · rw [hpaged.pte _ (by rintro ⟨_, ⟨⟩, hv'⟩; exact hin hv'), hv]

/-! ## Freeing the page tables -/

/-- The memory is as it was, but that entries in `weak` may have lost the right to write; frames that
were free are free, with any contents. -/
structure Reverted (s₀ s : Sys) (weak : Loc → Prop) : Prop where
  pte : ∀ x, Weakens (s₀.pte x) (s.pte x) ∧ (¬ weak x → s.pte x = s₀.pte x)
  pde : s.pde = s₀.pde
  free : s.free = s₀.free
  pageRef : s.pageRef = s₀.pageRef
  memMap : s.memMap = s₀.memMap
  shmn : s.shmn = s₀.shmn
  shmLen : s.shmLen = s₀.shmLen
  maxSwapOffset : s.maxSwapOffset = s₀.maxSwapOffset
  pageIndex : s.pageIndex = s₀.pageIndex
  hashList : s.hashList = s₀.hashList
  activeList : s.activeList = s₀.activeList
  inactiveList : s.inactiveList = s₀.inactiveList
  next : s.next = s₀.next
  disk : s.disk = s₀.disk
  inUse : ∀ f, s₀.free f = false → s.data f = s₀.data f ∧ s.pageReserved f = s₀.pageReserved f ∧
    s.pageSwap f = s₀.pageSwap f ∧ s.pageActive f = s₀.pageActive f ∧ s.pageDirty f = s₀.pageDirty f

/-- The memory is as it was, but for empty page tables of the new address space. -/
structure Emptied (s₀ s : Sys) (mm : ℕ) (weak : Loc → Prop) : Prop where
  unborn : ∀ idx, s₀.pde mm idx = none
  pte : ∀ x, Weakens (s₀.pte x) (s.pte x) ∧ (¬ weak x → s.pte x = s₀.pte x)
  pde : ∀ m, m ≠ mm → s.pde m = s₀.pde m
  free : ∀ f, s₀.free f = true ↔ s.free f = true ∨ ∃ idx, s.pde mm idx = some f
  inj : ∀ idx idx' f, s.pde mm idx = some f → s.pde mm idx' = some f → idx = idx'
  taken : ∀ idx f, s.pde mm idx = some f → s.free f = false
  pageRef : ∀ f, (∀ idx, s.pde mm idx ≠ some f) → s.pageRef f = s₀.pageRef f
  unused : ∀ f, s₀.free f = true → s₀.pageRef f = 0
  memMap : s.memMap = s₀.memMap
  shmn : s.shmn = s₀.shmn
  shmLen : s.shmLen = s₀.shmLen
  maxSwapOffset : s.maxSwapOffset = s₀.maxSwapOffset
  pageIndex : s.pageIndex = s₀.pageIndex
  hashList : s.hashList = s₀.hashList
  activeList : s.activeList = s₀.activeList
  inactiveList : s.inactiveList = s₀.inactiveList
  next : s.next = s₀.next
  disk : s.disk = s₀.disk
  inUse : ∀ f, s₀.free f = false → s.data f = s₀.data f ∧ s.pageReserved f = s₀.pageReserved f ∧
    s.pageSwap f = s₀.pageSwap f ∧ s.pageActive f = s₀.pageActive f ∧ s.pageDirty f = s₀.pageDirty f

/-- A frame that is free has no references. -/
theorem Paging.unused (h : s.Paging) (hf : s.free f = true) : s.pageRef f = 0 := by
  have htab : ¬ s.IsTable f := fun htab => by
    have hfree := (h.swap.counts.table f htab).2.1
    rw [hf] at hfree
    cases hfree
  rw [h.swap.counts.ref f htab, (h.swap.counts.free f hf).1]
  rfl

/-- Entries that have not gained or lost references have the counts that they had. -/
theorem refs_eq_of_weakens {P Q : Loc → Pte} (h : ∀ x, Weakens (P x) (Q x)) (f : ℕ) : refs Q f = refs P f := by
  unfold refs occ
  congr 1
  ext x
  exact (h x).maps f

theorem holders_eq_of_weakens {P Q : Loc → Pte} (h : ∀ x, Weakens (P x) (Q x)) (o : ℕ) :
    holders Q o = holders P o := by
  unfold holders occ
  congr 1
  ext x
  exact (h x).holds o

/-- The count of a swap entry follows from the number of its holders, and from the swap cache. -/
theorem EntryCount.unique {n : ℕ} (h : s.EntryCount n o) (h' : s'.EntryCount n o)
    (hc : ∀ f, s'.Caches f o ↔ s.Caches f o) : s'.memMap o = s.memMap o := by
  rcases h with ⟨hm, hn, hno⟩ | ⟨hm, -, hsome⟩ <;> rcases h' with ⟨hm', hn', hno'⟩ | ⟨hm', -, hsome'⟩
  · rw [hm, hm']
  · obtain ⟨f, hf⟩ := hsome' hn
    exact absurd ((hc f).mp hf) (hno f)
  · obtain ⟨f, hf⟩ := hsome hn'
    exact absurd ((hc f).mpr hf) (hno' f)
  · rw [hm, hm']

/-- **All copies are gone**: the counts are what they were. -/
theorem Borrowed.emptied (h : Borrowed s₀ s mm weak) (hzero : ∀ vpn, s.pte (.user mm vpn) = .zero) :
    Emptied s₀ s mm weak := by
  have hpte : ∀ x, Weakens (s₀.pte x) (s.pte x) ∧ (¬ weak x → s.pte x = s₀.pte x) := by
    intro x
    by_cases hx : OfMm mm x
    · have hx₀ := h.before.unborn_zero h.unborn hx
      have hx₁ : s.pte x = .zero := by
        cases x with
        | user m vpn =>
          cases hx
          exact hzero vpn
        | shm _ _ => cases hx
      exact ⟨Or.inl (hx₁.trans hx₀.symm), fun _ => hx₁.trans hx₀.symm⟩
    · exact h.pte x hx
  have hwk := fun x => (hpte x).1
  have hcaches : ∀ f o, s.Caches f o ↔ s₀.Caches f o := by
    intro f o
    have hframe := h.frame
    unfold Caches
    rw [show s.pageSwap = s₀.pageSwap by rw [hframe]; rfl, show s.pageIndex = s₀.pageIndex by rw [hframe]; rfl]
  refine ⟨h.unborn, hpte, h.pde, h.free, fun i i' f hi hi' => (h.paging.inj mm i mm i' f hi hi').2,
    fun idx f hidx => (h.paging.swap.counts.table f (Or.inl ⟨mm, idx, hidx⟩)).2.1, fun f hf => ?_,
    fun f hf => h.before.unused hf, ?_, h.shmn, ?_, ?_, ?_, ?_, ?_, ?_, ?_, ?_, fun f hf => ⟨h.data f hf, ?_⟩⟩
  · by_cases htab : s₀.IsTable f
    · exact h.tableRef f htab
    · have htab' : ¬ s.IsTable f := by
        rintro (⟨m, idx, hm⟩ | ⟨shmem, i, hi⟩)
        · by_cases hmm : m = mm
          · exact hf idx (hmm ▸ hm)
          · exact htab (Or.inl ⟨m, idx, by rw [← h.pde m hmm, hm]⟩)
        · exact htab (Or.inr ⟨shmem, i, by rw [← h.shmn, hi]⟩)
      rw [h.paging.swap.counts.ref f htab', h.before.swap.counts.ref f htab, refs_eq_of_weakens hwk]
  · funext o
    by_cases hr : s₀.InRange o
    · have hentry := h.paging.swap.counts.entry o ((h.inRange o).mpr hr)
      rw [holders_eq_of_weakens hwk] at hentry
      exact EntryCount.unique (h.before.swap.counts.entry o hr) hentry fun f => hcaches f o
    · exact h.unheld o hr
  all_goals
    rw [h.frame]
    first | rfl | exact ⟨rfl, rfl, rfl, rfl⟩

theorem exitTable_none {idx : ℕ} (hidx : s.pde mm idx = none) : s.exitTable mm idx = s := by
  unfold Sys.exitTable
  rw [hidx]

theorem exitTable_some {idx : ℕ} (hidx : s.pde mm idx = some f) : s.exitTable mm idx =
    { s.freePage f with pde := Function.update s.pde mm (Function.update (s.pde mm) idx none) } := by
  unfold Sys.exitTable
  rw [hidx]

theorem exitTable_pde (idx i : ℕ) : (s.exitTable mm idx).pde mm i = if i = idx then none else s.pde mm i := by
  cases hidx : s.pde mm idx with
  | none =>
    rw [exitTable_none hidx]
    by_cases hi : i = idx
    · rw [if_pos hi, hi, hidx]
    · rw [if_neg hi]
  | some f =>
    rw [exitTable_some hidx]
    show Function.update s.pde mm _ mm i = _
    rw [Function.update_self]
    by_cases hi : i = idx
    · rw [if_pos hi, hi, Function.update_self]
    · rw [if_neg hi, Function.update_of_ne hi]

/-- A page table that is there is freed. -/
theorem Emptied.exitSome (h : Emptied s₀ s mm weak) {idx : ℕ} (hidx : s.pde mm idx = some f) :
    Emptied s₀ (s.exitTable mm idx) mm weak := by
  have hf₀ : s₀.free f = true := (h.free f).mpr (Or.inr ⟨idx, hidx⟩)
  have hsub : ∀ i g, (s.exitTable mm idx).pde mm i = some g → i ≠ idx ∧ s.pde mm i = some g := by
    intro i g hi
    rw [exitTable_pde] at hi
    split at hi
    · cases hi
    · rename_i hne
      exact ⟨hne, hi⟩
  -- another frame of a table is at another place
  have hother : ∀ i g, g ≠ f → s.pde mm i = some g → (s.exitTable mm idx).pde mm i = some g := by
    intro i g hgf hi
    have hne : i ≠ idx := by
      rintro rfl
      rw [hidx] at hi
      exact hgf (Option.some.inj hi).symm
    rw [exitTable_pde, if_neg hne, hi]
  have hfree : (s.exitTable mm idx).free = Function.update s.free f true := by rw [exitTable_some hidx]; rfl
  have href : (s.exitTable mm idx).pageRef = Function.update s.pageRef f 0 := by rw [exitTable_some hidx]; rfl
  constructor
  case unborn => exact h.unborn
  case unused => exact h.unused
  case pde =>
    intro m hm
    rw [exitTable_some hidx]
    show Function.update s.pde mm _ m = _
    rw [Function.update_of_ne hm, h.pde m hm]
  case free =>
    intro g
    rw [hfree]
    by_cases hgf : g = f
    · subst hgf
      simp [hf₀]
    · rw [h.free, Function.update_of_ne hgf]
      apply or_congr_right
      exact ⟨fun ⟨i, hi⟩ => ⟨i, hother i g hgf hi⟩, fun ⟨i, hi⟩ => ⟨i, (hsub i g hi).2⟩⟩
  case inj =>
    intro i i' g hi hi'
    exact h.inj i i' g (hsub i g hi).2 (hsub i' g hi').2
  case taken =>
    intro i g hi
    obtain ⟨hne, hi⟩ := hsub i g hi
    have hgf : g ≠ f := by
      rintro rfl
      exact hne (h.inj i idx g hi hidx)
    rw [hfree, Function.update_of_ne hgf]
    exact h.taken i g hi
  case pageRef =>
    intro g hg
    rw [href]
    by_cases hgf : g = f
    · subst hgf
      rw [Function.update_self, h.unused g hf₀]
    · rw [Function.update_of_ne hgf]
      exact h.pageRef g fun i hi => hg i (hother i g hgf hi)
  case inUse =>
    intro g hg
    have hgf : g ≠ f := by
      rintro rfl
      rw [hf₀] at hg
      cases hg
    rw [exitTable_some hidx]
    show s.data g = _ ∧ Function.update s.pageReserved f false g = _ ∧ Function.update s.pageSwap f false g = _ ∧
      Function.update s.pageActive f false g = _ ∧ Function.update s.pageDirty f false g = _
    simp only [Function.update_of_ne hgf]
    exact h.inUse g hg
  all_goals
    rw [exitTable_some hidx]
  exacts [h.pte, h.memMap, h.shmn, h.shmLen, h.maxSwapOffset, h.pageIndex, h.hashList, h.activeList, h.inactiveList,
    h.next, h.disk]

/-- **The body of the loop of `exit_range`.** -/
theorem Emptied.exitTable (h : Emptied s₀ s mm weak) (idx : ℕ) :
    Emptied s₀ (s.exitTable mm idx) mm weak ∧ (s.exitTable mm idx).pde mm idx = none ∧
      ∀ i, s.pde mm i = none → (s.exitTable mm idx).pde mm i = none := by
  refine ⟨?_, ?_, fun i hi => ?_⟩
  · cases hidx : s.pde mm idx with
    | none => rwa [exitTable_none hidx]
    | some f => exact h.exitSome hidx
  · simp [exitTable_pde]
  · simp [exitTable_pde, hi]

theorem exitLoop_emptied (stop start : ℕ) (s : Sys) (h : Emptied s₀ s mm weak) (hal : PTSIZE ∣ start)
    (hlt : start < stop) :
    Emptied s₀ (exitLoop mm stop start s) mm weak ∧
      (∀ idx, InTables start stop idx → (exitLoop mm stop start s).pde mm idx = none) ∧
      ∀ i, s.pde mm i = none → (exitLoop mm stop start s).pde mm i = none := by
  fun_induction exitLoop mm stop start s with
  | case1 start s s₁ hgo ih =>
    obtain ⟨hb, hhere, hkeep⟩ := h.exitTable (start / PTSIZE)
    obtain ⟨hb', hrange, hkeep'⟩ := ih hb ((Nat.dvd_add_right hal).mpr (Nat.dvd_refl _)) hgo.2
    refine ⟨hb', fun idx hidx => ?_, fun i hi => hkeep' i (hkeep i hi)⟩
    by_cases hnext : InTables (start + PTSIZE) stop idx
    · exact hrange idx hnext
    · have heq : idx = start / PTSIZE := by
        unfold InTables PTSIZE PGSIZE at *
        omega
      rw [heq]
      exact hkeep' _ hhere
  | case2 start s s₁ hstop =>
    obtain ⟨hb, hhere, hkeep⟩ := h.exitTable (start / PTSIZE)
    refine ⟨hb, fun idx hidx => ?_, hkeep⟩
    have heq : idx = start / PTSIZE := by
      unfold InTables PTSIZE PGSIZE at *
      omega
    rw [heq]
    exact hhere

/-- **`exit_range`** frees the page tables of a range, and no others. -/
theorem Emptied.exitRange {start stop : ℕ} (h : Emptied s₀ s mm weak) (hrun : s.exitRange mm start stop = some s') :
    Emptied s₀ s' mm weak ∧ (∀ idx, InTables start stop idx → s'.pde mm idx = none) ∧
      ∀ i, s.pde mm i = none → s'.pde mm i = none := by
  unfold Sys.exitRange at hrun
  obtain ⟨_, -, hrest⟩ := Option.bind_eq_some_iff.mp hrun
  obtain ⟨_, hacc, hend⟩ := Option.bind_eq_some_iff.mp hrest
  cases hend
  have hlt : start / PTSIZE * PTSIZE < stop := (Nat.div_mul_le_self _ _).trans_lt (of_guard hacc).2.1
  obtain ⟨hb, hrange, hkeep⟩ := exitLoop_emptied stop _ s h (Nat.dvd_mul_left ..) hlt
  refine ⟨hb, fun idx hidx => hrange idx ?_, hkeep⟩
  unfold InTables PTSIZE PGSIZE at *
  omega

/-- **All page tables are gone**: the memory is as it was. -/
theorem Emptied.reverted (h : Emptied s₀ s mm weak) (hnone : ∀ idx, s.pde mm idx = none) : Reverted s₀ s weak := by
  have hpde : s.pde = s₀.pde := by
    funext m idx
    by_cases hm : m = mm
    · rw [hm, hnone, h.unborn]
    · rw [h.pde m hm]
  refine ⟨h.pte, hpde, ?_, funext fun f => h.pageRef f (by simp [hnone]), h.memMap, h.shmn, h.shmLen, h.maxSwapOffset,
    h.pageIndex, h.hashList, h.activeList, h.inactiveList, h.next, h.disk, h.inUse⟩
  funext f
  have hiff := h.free f
  simp only [hnone, reduceCtorEq, exists_false, or_false] at hiff
  rw [Bool.eq_iff_iff, hiff]

/-! ## Whole frames -/

/-- The memory after `alloc_pages` has found `n` frames at `f`. -/
def withPages (s : Sys) (env : Env) (f n : ℕ) : Sys :=
  { s with
    free := fun g => if f ≤ g ∧ g < f + n then false else s.free g
    data := fun g => if f ≤ g ∧ g < f + n then env.junk g else s.data g }

theorem allocPages_cases (s : Sys) (env : Env) (r : Option ℕ) (n : ℕ) :
    s.allocPages env r n = (none, s) ∨
      ∃ f, (∀ i < n, s.free (f + i) = true) ∧ s.allocPages env r n = (some f, s.withPages env f n) := by
  unfold allocPages
  cases hr : r.filter fun f => decide (∀ i < n, s.free (f + i) = true) with
  | none => exact Or.inl rfl
  | some f =>
    obtain ⟨-, hfree⟩ := Option.filter_eq_some_iff.mp hr
    exact Or.inr ⟨f, by simpa using hfree, rfl⟩

/-- Frames in use do not disturb the page tables. -/
theorem Paging.withPages (h : s.Paging) (env : Env) (f n : ℕ) : (s.withPages env f n).Paging := by
  refine ⟨h.finite, ⟨h.swap.cache.congr rfl rfl rfl rfl rfl rfl rfl, h.swap.counts.ref, fun g hg => ?_,
    fun g hg => ?_,
    h.swap.counts.entry, h.swap.counts.range, h.swap.counts.next⟩, h.table, h.inj, h.apart, h.shmInj⟩
  · obtain ⟨hR, hfree, hswap⟩ := h.swap.counts.table g hg
    refine ⟨hR, ?_, hswap⟩
    show (if f ≤ g ∧ g < f + n then false else s.free g) = false
    rw [hfree, ite_self]
  · refine h.swap.counts.free g ?_
    change (if f ≤ g ∧ g < f + n then false else s.free g) = true at hg
    split at hg
    · cases hg
    · exact hg

/-- `free_pages` touches the descriptors of the frames only. -/
theorem freePages_eq (s : Sys) (f : ℕ) : ∀ n, s.freePages f n = { s with
    pageRef := fun g => if f ≤ g ∧ g < f + n then 0 else s.pageRef g
    pageReserved := fun g => if f ≤ g ∧ g < f + n then false else s.pageReserved g
    pageSwap := fun g => if f ≤ g ∧ g < f + n then false else s.pageSwap g
    pageActive := fun g => if f ≤ g ∧ g < f + n then false else s.pageActive g
    pageDirty := fun g => if f ≤ g ∧ g < f + n then false else s.pageDirty g
    free := fun g => if f ≤ g ∧ g < f + n then true else s.free g }
  | 0 => by
    have hno : ∀ g, ¬ (f ≤ g ∧ g < f + 0) := fun g hg => by omega
    simp only [hno, if_false]
    rfl
  | n + 1 => by
    have hstep : ∀ {β : Type} (u : ℕ → β) (b : β), 
      Function.update (fun g => if f ≤ g ∧ g < f + n then b else u g) (f + n) b =
        fun g => if f ≤ g ∧ g < f + (n + 1) then b else u g := by
      intro β u b
      funext g
      by_cases hg : g = f + n
      · subst hg
        rw [Function.update_self, if_pos (by omega)]
      · rw [Function.update_of_ne hg]
        have hiff : (f ≤ g ∧ g < f + n) ↔ (f ≤ g ∧ g < f + (n + 1)) := by omega
        simp only [hiff]
    show (s.freePages f n).freePage (f + n) = _
    rw [freePages_eq s f n]
    unfold freePage
    simp only [hstep]

/-- **`free_pages` undoes `alloc_pages`.** -/
theorem Reverted.freePages {n : ℕ} (h : s.Paging) (hfree : ∀ i < n, s.free (f + i) = true)
    (hr : Reverted (s.withPages env f n) s' weak) : Reverted s (s'.freePages f n) weak := by
  have hin : ∀ g, f ≤ g ∧ g < f + n → s.free g = true := by
    rintro g ⟨hfg, hgf⟩
    have hg := hfree (g - f) (by omega)
    rwa [Nat.add_sub_cancel' hfg] at hg
  rw [freePages_eq]
  refine ⟨hr.pte, hr.pde, ?_, ?_, hr.memMap, hr.shmn, hr.shmLen, hr.maxSwapOffset, hr.pageIndex, hr.hashList,
    hr.activeList, hr.inactiveList, hr.next, hr.disk, fun g hg => ?_⟩
  · funext g
    show (if f ≤ g ∧ g < f + n then true else s'.free g) = _
    split
    · rename_i hgf
      rw [hin g hgf]
    · rename_i hgf
      rw [hr.free]
      exact if_neg hgf
  · funext g
    show (if f ≤ g ∧ g < f + n then 0 else s'.pageRef g) = _
    split
    · rename_i hgf
      rw [h.unused (hin g hgf)]
    · rw [hr.pageRef]
      rfl
  · have hgf : ¬ (f ≤ g ∧ g < f + n) := fun hgf => by
      rw [hin g hgf] at hg
      cases hg
    obtain ⟨hdata, hflags⟩ := hr.inUse g ((if_neg hgf).trans hg)
    have hd : (s.withPages env f n).data g = s.data g := if_neg hgf
    simp only [if_neg hgf]
    exact ⟨hdata.trans hd, hflags⟩

/-- Nothing has happened. -/
theorem Reverted.refl (s : Sys) (weak : Loc → Prop) : Reverted s s weak :=
  ⟨fun _ => ⟨.refl _, fun _ => rfl⟩, rfl, rfl, rfl, rfl, rfl, rfl, rfl, rfl, rfl, rfl, rfl, rfl, rfl,
    fun _ _ => ⟨rfl, rfl, rfl, rfl, rfl⟩⟩

theorem Reverted.mono {weak' : Loc → Prop} (hr : Reverted s s' weak) (hw : ∀ x, weak x → weak' x) :
    Reverted s s' weak' :=
  { hr with pte := fun x => ⟨(hr.pte x).1, fun hx => (hr.pte x).2 fun hx' => hx (hw x hx')⟩ }

end Ucore.Sys
