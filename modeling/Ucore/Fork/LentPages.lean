import Ucore.Fork.DoFork
import Ucore.Mm.PmmRange

/-!
# Page tables that are filled from others

`copy_range` fills the page tables of a new address space with second references to pages and swap
entries of an old one.  `Borrowed` says what the memory is meanwhile: one step of `copy_range` keeps it, so
does `page_remove_pte` of a copy, and once all copies and all page tables of the new address space are
gone, the memory is `Restored`.
-/

namespace Ucore

/-- The entry may have lost the right to write. -/
def Weakens (e e' : Pte) : Prop :=
  e' = e ∨ ∃ f perm, e = .page f perm ∧ perm.w = true ∧ e' = .page f { perm with w := false }

/-- Both entries map one page, or hold one swap entry. -/
def SamePage : Pte → Pte → Prop
  | .page f _, .page g _ => f = g
  | .swap o, .swap p => o = p
  | _, _ => False

/-- A mapping without the dirty bit, or no mapping. -/
def Pte.Undirty : Pte → Prop
  | .page _ perm => perm.d = false
  | _ => True

/-- The entry belongs to the address space. -/
def OfMm (mm : ℕ) : Loc → Prop
  | .user m _ => m = mm
  | .shm _ _ => False

theorem Weakens.refl (e : Pte) : Weakens e e := Or.inl rfl

theorem Weakens.trans {e e' e'' : Pte} (h : Weakens e e') (h' : Weakens e' e'') : Weakens e e'' := by
  rcases h with rfl | ⟨f, perm, rfl, hw, rfl⟩
  · exact h'
  · rcases h' with rfl | ⟨g, q, heq, hq, rfl⟩
    · exact Or.inr ⟨f, perm, rfl, hw, rfl⟩
    · cases heq
      cases hq

theorem Weakens.samePage {e e' : Pte} (h : Weakens e e') (d : Pte) : SamePage e' d ↔ SamePage e d := by
  rcases h with rfl | ⟨f, perm, rfl, -, rfl⟩
  · exact Iff.rfl
  · cases d <;> exact Iff.rfl

theorem Weakens.maps {e e' : Pte} (h : Weakens e e') (f : ℕ) : e'.Maps f ↔ e.Maps f := by
  rcases h with rfl | ⟨g, perm, rfl, -, rfl⟩
  · exact Iff.rfl
  · unfold Pte.Maps
    constructor
    · rintro ⟨q, hq⟩
      cases hq
      exact ⟨perm, rfl⟩
    · rintro ⟨q, hq⟩
      cases hq
      exact ⟨_, rfl⟩

theorem Weakens.holds {e e' : Pte} (h : Weakens e e') (o : ℕ) : e'.Holds o ↔ e.Holds o := by
  unfold Pte.Holds
  rcases h with rfl | ⟨g, perm, rfl, -, rfl⟩ <;> simp

namespace Sys

open Occurrence

variable {s₀ s s' : Sys} {x y : Loc} {f g o mm vpn la : ℕ} {env : Env} {perm : Perm} {weak : Loc → Prop}

/-- The memory `t`, with the counts, the free frames and the tables of `u`. -/
def overlay (t u : Sys) : Sys :=
  { t with
    pageRef := u.pageRef, data := u.data, free := u.free, memMap := u.memMap, pde := u.pde, pte := u.pte }

theorem overlay_trans (h : s = overlay s₀ s) (h' : s' = overlay s s') : s' = overlay s₀ s' :=
  calc s' = overlay s s' := h'
    _ = overlay (overlay s₀ s) s' := by rw [← h]
    _ = overlay s₀ s' := rfl

/-- The memory `s` is `s₀`, but for the address space `mm`, which `s₀` does not have: its tables are in
frames that were free, and its entries are copies of entries of others.  Entries in `weak` may have lost
the right to write. -/
structure Borrowed (s₀ s : Sys) (mm : ℕ) (weak : Loc → Prop) : Prop where
  before : s₀.Paging
  unborn : ∀ idx, s₀.pde mm idx = none
  paging : s.Paging
  frame : s = overlay s₀ s
  pte : ∀ x, ¬ OfMm mm x → Weakens (s₀.pte x) (s.pte x) ∧ (¬ weak x → s.pte x = s₀.pte x)
  copies : ∀ x, OfMm mm x → s.pte x ≠ .zero →
    (s.pte x).Undirty ∧ ∃ y, ¬ OfMm mm y ∧ SamePage (s.pte y) (s.pte x)
  pde : ∀ m, m ≠ mm → s.pde m = s₀.pde m
  free : ∀ f, s₀.free f = true ↔ s.free f = true ∨ ∃ idx, s.pde mm idx = some f
  data : ∀ f, s₀.free f = false → s.data f = s₀.data f
  tableRef : ∀ f, s₀.IsTable f → s.pageRef f = s₀.pageRef f
  unheld : ∀ o, ¬ s₀.InRange o → s.memMap o = s₀.memMap o

/-- An address space without tables has no entries. -/
theorem Paging.unborn_zero (h : s.Paging) (hnone : ∀ idx, s.pde mm idx = none) (hx : OfMm mm x) :
    s.pte x = .zero := by
  cases x with
  | user m vpn =>
    cases hx
    exact h.zero_of_pde (hnone _)
  | shm _ _ => cases hx

theorem Borrowed.refl (h : s.Paging) (hnone : ∀ idx, s.pde mm idx = none) (weak : Loc → Prop) :
    Borrowed s s mm weak := by
  refine ⟨h, hnone, h, rfl, fun x _ => ⟨.refl _, fun _ => rfl⟩, fun x hx hne => ?_, fun _ _ => rfl,
    fun f => ?_, fun _ _ => rfl, fun _ _ => rfl, fun _ _ => rfl⟩
  · exact absurd (h.unborn_zero hnone hx) hne
  · simp [hnone]

section lemmas

variable (h : Borrowed s₀ s mm weak)
include h

theorem Borrowed.shmn : s.shmn = s₀.shmn := by
  have hframe := congrArg Sys.shmn h.frame
  exact hframe

theorem Borrowed.inRange (o : ℕ) : s.InRange o ↔ s₀.InRange o := by
  have hframe : s.maxSwapOffset = (overlay s₀ s).maxSwapOffset := congrArg Sys.maxSwapOffset h.frame
  unfold InRange
  rw [hframe]
  rfl

/-- Tables of others are still tables. -/
theorem Borrowed.isTable (hf : s₀.IsTable f) : s.IsTable f := by
  rcases hf with ⟨m, idx, hm⟩ | ⟨shmem, i, hs⟩
  · have hne : m ≠ mm := by
      rintro rfl
      rw [h.unborn] at hm
      cases hm
    exact Or.inl ⟨m, idx, by rw [h.pde m hne, hm]⟩
  · exact Or.inr ⟨shmem, i, by rw [h.shmn, hs]⟩

theorem Borrowed.free_of_free (hf : s.free f = true) : s₀.free f = true := (h.free f).mpr (Or.inl hf)

end lemmas

/-! ## Steps that fill the tables -/

/-- The memory with a page table for the address in the frame `f`. -/
def withTable (s : Sys) (env : Env) (mm idx f : ℕ) : Sys :=
  { s with free := Function.update s.free f false, data := Function.update s.data f (env.junk f) }.addTable mm idx f

theorem getPte_cases {ok : Bool} (hrun : s.getPte env mm la true = (ok, s')) :
    s' = s ∨ ∃ f, s.free f = true ∧ s.pde mm (la / PTSIZE) = none ∧ s' = s.withTable env mm (la / PTSIZE) f := by
  unfold Sys.getPte at hrun
  split at hrun
  · cases hrun
    exact Or.inl rfl
  · rename_i hnone
    unfold allocPage at hrun
    cases hpick : (env.pick (.table la)).filter fun f => s.free f with
    | none =>
      simp only [hpick] at hrun
      cases hrun
      exact Or.inl rfl
    | some f =>
      obtain ⟨-, hfree⟩ := Option.filter_eq_some_iff.mp hpick
      simp only [hpick] at hrun
      cases hrun
      exact Or.inr ⟨f, hfree, hnone, rfl⟩

/-- A page table in a frame that was free. -/
theorem Borrowed.withTable (h : Borrowed s₀ s mm weak) {idx : ℕ} (hf : s.free f = true)
    (hpag : (s.withTable env mm idx f).Paging) (hpte : (s.withTable env mm idx f).pte = s.pte)
    (hnone : s.pde mm idx = none) : Borrowed s₀ (s.withTable env mm idx f) mm weak := by
  have hf₀ := h.free_of_free hf
  have hpde : (s.withTable env mm idx f).pde = 
      Function.update s.pde mm (Function.update (s.pde mm) idx (some f)) := rfl
  refine ⟨h.before, h.unborn, hpag, overlay_trans h.frame rfl, fun x hx => ?_, fun x hx hne => ?_, fun m hm => ?_,
    fun g => ?_, fun g hg => ?_, fun g hg => ?_, h.unheld⟩
  · rw [hpte]
    exact h.pte x hx
  · rw [hpte] at hne ⊢
    exact h.copies x hx hne
  · rw [hpde, Function.update_of_ne hm]
    exact h.pde m hm
  · rw [h.free, hpde, Function.update_self]
    show _ ↔ Function.update s.free f false g = true ∨ _
    by_cases hgf : g = f
    · subst hgf
      simp only [hf, Function.update_self, true_or, true_iff]
      exact Or.inr ⟨idx, Function.update_self ..⟩
    · rw [Function.update_of_ne hgf]
      refine or_congr_right ⟨?_, ?_⟩
      · rintro ⟨i, hi⟩
        have hne : i ≠ idx := by
          rintro rfl
          rw [hnone] at hi
          cases hi
        exact ⟨i, by rw [Function.update_of_ne hne, hi]⟩
      · rintro ⟨i, hi⟩
        by_cases hii : i = idx
        · subst hii
          rw [Function.update_self] at hi
          exact absurd (Option.some.inj hi).symm hgf
        · rw [Function.update_of_ne hii] at hi
          exact ⟨i, hi⟩
  · have hgf : g ≠ f := by
      rintro rfl
      rw [hf₀] at hg
      cases hg
    show Function.update s.data f _ g = _
    rw [Function.update_of_ne hgf]
    exact h.data g hg
  · have hgf : g ≠ f := by
      rintro rfl
      rw [(h.before.swap.counts.table g hg).2.1] at hf₀
      cases hf₀
    show Function.update s.pageRef f _ g = _
    rw [Function.update_of_ne hgf]
    exact h.tableRef g hg

/-- `get_pte` allocates a page table for the new address space, or nothing. -/
theorem Borrowed.getPte (h : Borrowed s₀ s mm weak) {ok : Bool} (hrun : s.getPte env mm la true = (ok, s')) :
    Borrowed s₀ s' mm weak ∧ s'.pte = s.pte ∧
      (∀ idx, s'.pde mm idx ≠ none → s.pde mm idx ≠ none ∨ idx = la / PTSIZE) ∧
      (ok = true → s'.HasTable (ptep mm la)) := by
  obtain ⟨hq, htab⟩ := h.paging.getPte_spec hrun
  rcases getPte_cases hrun with rfl | ⟨f, hf, hnone, rfl⟩
  · exact ⟨h, rfl, fun _ hidx => Or.inl hidx, htab⟩
  · refine ⟨h.withTable hf hq.paged.paging hq.pte hnone, hq.pte, fun idx hidx => ?_, htab⟩
    by_cases hla : idx = la / PTSIZE
    · exact Or.inr hla
    · left
      simpa [Sys.withTable, Sys.addTable, hla] using hidx

/-- `copy_range` takes the right to write. -/
theorem Borrowed.weaken (h : Borrowed s₀ s mm weak) (hx : s.pte x = .page f perm) (hmm : ¬ OfMm mm x) (hweak : weak x)
    (hw : perm.w = true) : Borrowed s₀ (s.setPte x (.page f { perm with w := false })) mm weak := by
  have hwk : ∀ y, Weakens (s.pte y) ((s.setPte x (.page f { perm with w := false })).pte y) := by
    intro y
    by_cases hyx : y = x
    · subst hyx
      exact Or.inr ⟨f, perm, hx, hw, Function.update_self ..⟩
    · exact Or.inl (Function.update_of_ne hyx ..)
  refine ⟨h.before, h.unborn, (h.paging.rewrite hx _).1.paging, overlay_trans h.frame rfl,
    fun y hy => ⟨?_, fun hn => ?_⟩,
    fun y hy hne => ?_, h.pde, h.free, h.data, h.tableRef, h.unheld⟩
  · exact (h.pte y hy).1.trans (hwk y)
  · have hyx : y ≠ x := fun heq => hn (heq ▸ hweak)
    rw [← (h.pte y hy).2 hn]
    exact Function.update_of_ne hyx ..
  · have hyx : y ≠ x := fun heq => hmm (heq ▸ hy)
    have hsame : (s.setPte x (.page f { perm with w := false })).pte y = s.pte y := Function.update_of_ne hyx ..
    rw [hsame] at hne ⊢
    obtain ⟨hd, z, hz, hpage⟩ := h.copies y hy hne
    exact ⟨hd, z, hz, ((hwk z).samePage _).mpr hpage⟩

/-- One entry of the new address space is filled, and counts of what was in use change. -/
theorem Borrowed.fill (h : Borrowed s₀ s mm weak) {e : Pte} (hdst : OfMm mm y) (hmm : ¬ OfMm mm x)
    (hsame : SamePage (s.pte x) e) (hclean : e.Undirty) (hpag : s'.Paging) (hframe : s' = overlay s s')
    (hpte : s'.pte = Function.update s.pte y e) (hpde : s'.pde = s.pde) (hfree : s'.free = s.free)
    (hdata : s'.data = s.data) (href : ∀ g, s₀.IsTable g → s'.pageRef g = s.pageRef g)
    (hmap : ∀ o, ¬ s₀.InRange o → s'.memMap o = s.memMap o) : Borrowed s₀ s' mm weak := by
  have hother : ∀ z, ¬ OfMm mm z → s'.pte z = s.pte z := by
    intro z hz
    have hzy : z ≠ y := fun heq => hz (heq ▸ hdst)
    rw [hpte, Function.update_of_ne hzy]
  refine ⟨h.before, h.unborn, hpag, overlay_trans h.frame hframe, fun z hz => ?_, fun z hz hne => ?_, ?_, ?_, ?_,
    fun g hg => (href g hg).trans (h.tableRef g hg), fun o ho => (hmap o ho).trans (h.unheld o ho)⟩
  · rw [hother z hz]
    exact h.pte z hz
  · by_cases hzy : z = y
    · subst hzy
      have hz' : s'.pte z = e := by rw [hpte, Function.update_self]
      rw [hz']
      exact ⟨hclean, x, hmm, by rw [hother x hmm]; exact hsame⟩
    · have hz' : s'.pte z = s.pte z := by rw [hpte, Function.update_of_ne hzy]
      rw [hz'] at hne ⊢
      obtain ⟨hd, w, hw, hpage⟩ := h.copies z hz hne
      exact ⟨hd, w, hw, by rw [hother w hw]; exact hpage⟩
  · rw [hpde]
    exact h.pde
  · rw [hfree, hpde]
    exact h.free
  · rw [hdata]
    exact h.data

/-- `copy_range` takes the right to write, or changes nothing. -/
theorem Paging.copyProtect_cases {src : ℕ} {share : Bool} (h : s.Paging) (hsrc : s.pte (ptep src la) = .page f perm)
    (hrun : s.copyProtect env src f la share perm = some s') :
    s' = s ∨ share = false ∧ perm.w = true ∧ s' = s.setPte (ptep src la) (.page f { perm with w := false }) := by
  have htab := h.table (ptep src la) (by simp [hsrc])
  unfold copyProtect at hrun
  split at hrun
  · rename_i hboth
    rw [pageInsert_existing htab, insertPte_same hsrc] at hrun
    cases hrun
    have hboth : share = false ∧ perm.w = true := by simpa using hboth
    exact Or.inr ⟨hboth.1, hboth.2, rfl⟩
  · cases hrun
    exact Or.inl rfl

/-- A mapping is copied. -/
theorem Borrowed.copyMap (h : Borrowed s₀ s mm weak) (hdst : OfMm mm y) (hmm : ¬ OfMm mm x)
    (hx : s.pte x = .page f perm) (hy : s.pte y = .zero) (htab : s.HasTable y) {q : Perm} (hq : q.d = false)
    (hrun : s.insertPte y f q = some s') : Borrowed s₀ s' mm weak ∧ s'.pte = Function.update s.pte y (.page f q) ∧
      s'.pde = s.pde := by
  have hpag := (h.paging.insertPte_spec htab (h.paging.mapped_inUse hx) (h.paging.mapped_noTable hx) hrun).1.paging
  rw [insertPte_zero hy] at hrun
  cases hrun
  refine ⟨h.fill hdst hmm (e := .page f q) (by rw [hx]; exact rfl) hq hpag rfl rfl rfl rfl rfl (fun g hg => ?_)
    fun _ _ => rfl, rfl, rfl⟩
  have hgf : g ≠ f := fun heq => h.paging.mapped_noTable hx (heq ▸ h.isTable hg)
  exact Function.update_of_ne hgf ..

/-- A swap entry is copied. -/
theorem Borrowed.copySwap (h : Borrowed s₀ s mm weak) (hdst : OfMm mm y) (hmm : ¬ OfMm mm x)
    (hx : s.pte x = .swap o) (hy : s.pte y = .zero) (htab : s.HasTable y)
    (hrun : s.swapDuplicate o = some s') : Borrowed s₀ (s'.setPte y (.swap o)) mm weak ∧
      (s'.setPte y (.swap o)).pte = Function.update s.pte y (.swap o) ∧ (s'.setPte y (.swap o)).pde = s.pde := by
  have hcopied : Copied s (s'.setPte y (.swap o)) x y true := h.paging.copySwap hx hy htab hrun
  have hpag := hcopied.paged.paging
  obtain ⟨-, rfl, hr, -⟩ := h.paging.swap.swapDuplicate_spec hrun
  refine ⟨h.fill hdst hmm (e := .swap o) (by rw [hx]; exact rfl) trivial hpag rfl rfl rfl rfl rfl (fun _ _ => rfl)
    fun p hp => ?_, rfl, rfl⟩
  have hpo : p ≠ o := fun heq => hp ((h.inRange p).mp (heq ▸ hr))
  exact Function.update_of_ne hpo ..

/-- What `copy_range` may have touched in the new address space: tables and entries. -/
structure Grows (s s' : Sys) (mm : ℕ) (T E : ℕ → Prop) : Prop where
  tables : ∀ idx, s'.pde mm idx ≠ none → s.pde mm idx ≠ none ∨ T idx
  entries : ∀ vpn, s'.pte (.user mm vpn) ≠ .zero → s.pte (.user mm vpn) ≠ .zero ∨ E vpn

theorem Grows.refl (s : Sys) (mm : ℕ) (T E : ℕ → Prop) : Grows s s mm T E :=
    ⟨fun _ h => Or.inl h, fun _ h => Or.inl h⟩

theorem Grows.trans {s'' : Sys} {T E : ℕ → Prop} (h : Grows s s' mm T E) (h' : Grows s' s'' mm T E) :
    Grows s s'' mm T E := by
  refine ⟨fun idx hidx => ?_, fun v hv => ?_⟩
  · rcases h'.tables idx hidx with hold | hnew
    · exact h.tables idx hold
    · exact Or.inr hnew
  · rcases h'.entries v hv with hold | hnew
    · exact h.entries v hold
    · exact Or.inr hnew

theorem Grows.mono {T E T' E' : ℕ → Prop} (h : Grows s s' mm T E) (hT : ∀ idx, T idx → T' idx)
    (hE : ∀ v, E v → E' v) : Grows s s' mm T' E' :=
  ⟨fun idx hidx => (h.tables idx hidx).imp_right (hT idx), fun v hv => (h.entries v hv).imp_right (hE v)⟩

theorem grows_of_update {e : Pte} {T : ℕ → Prop} (hpde : s'.pde = s.pde)
    (hpte : s'.pte = Function.update s.pte (.user mm vpn) e) : Grows s s' mm T (· = vpn) := by
  refine ⟨fun idx hidx => Or.inl (by rwa [hpde] at hidx), fun v hv => ?_⟩
  by_cases hvv : v = vpn
  · exact Or.inr hvv
  · left
    have hne : (Loc.user mm v) ≠ .user mm vpn := fun heq => hvv (by cases heq; rfl)
    rwa [hpte, Function.update_of_ne hne] at hv

/-- **`copy_range` for one entry.** -/
theorem Borrowed.copyPte {src : ℕ} {share : Bool} (h : Borrowed s₀ s mm weak) (hsrc : src ≠ mm)
    (hweak : share = false → weak (ptep src la)) (hdst : s.pte (ptep mm la) = .zero) (htab : s.HasTable (ptep mm la))
    (hrun : s.copyPte env mm src la share = some s') :
    Borrowed s₀ s' mm weak ∧ Grows s s' mm (fun _ => False) (· = la / PGSIZE) := by
  have hmm : ¬ OfMm mm (ptep src la) := hsrc
  have hof : OfMm mm (ptep mm la) := rfl
  unfold Sys.copyPte at hrun
  split at hrun
  · cases hrun
  · rename_i o hx
    obtain ⟨s₁, hdup, rfl⟩ := Option.map_eq_some_iff.mp hrun
    obtain ⟨hb, hpte, hpde⟩ := h.copySwap hof hmm hx hdst htab hdup
    exact ⟨hb, grows_of_update hpde hpte⟩
  · rename_i f perm hx
    obtain ⟨s₁, hprot, hrest⟩ := Option.bind_eq_some_iff.mp hrun
    obtain ⟨⟨r, s₂⟩, hins, hend⟩ := Option.bind_eq_some_iff.mp hrest
    obtain ⟨_, -, hend⟩ := Option.bind_eq_some_iff.mp hend
    cases hend
    have hne : ptep mm la ≠ ptep src la := fun heq => hmm (heq ▸ hof)
    obtain ⟨p, hb, hx₁, hdst₁, hpde₁, hpte₁⟩ : ∃ p, Borrowed s₀ s₁ mm weak ∧ s₁.pte (ptep src la) = .page f p ∧
        s₁.pte (ptep mm la) = .zero ∧ s₁.pde = s.pde ∧ ∀ z, OfMm mm z → s₁.pte z = s.pte z := by
      rcases h.paging.copyProtect_cases hx hprot with rfl | ⟨hshare, hw, rfl⟩
      · exact ⟨perm, h, hx, hdst, rfl, fun _ _ => rfl⟩
      · refine ⟨_, h.weaken hx hmm (hweak hshare) hw, Function.update_self .., ?_, rfl, fun z hz => ?_⟩
        · show Function.update s.pte _ _ _ = _
          rw [Function.update_of_ne hne, hdst]
        · exact Function.update_of_ne (fun heq : z = ptep src la => hmm (heq ▸ hz)) ..
    have htab₁ : s₁.HasTable (ptep mm la) := by
      rw [ptep_hasTable] at htab ⊢
      rwa [hpde₁]
    rw [pageInsert_existing htab₁] at hins
    obtain ⟨s₃, hins', heq⟩ := Option.map_eq_some_iff.mp hins
    cases heq
    obtain ⟨hb', hpte', hpde'⟩ := hb.copyMap hof hmm hx₁ hdst₁ htab₁ rfl hins'
    have hgrow : Grows s₁ s' mm (fun _ => False) (· = la / PGSIZE) := grows_of_update hpde' hpte'
    refine ⟨hb', ⟨fun idx hidx => ?_, fun v hv => ?_⟩⟩
    · rw [← hpde₁]
      exact hgrow.tables idx hidx
    · rw [← hpte₁ (.user mm v) rfl]
      exact hgrow.entries v hv

/-- **`copy_range` at one address.** -/
theorem Borrowed.copyPage {src : ℕ} {share : Bool} {ret : Int} (h : Borrowed s₀ s mm weak) (hsrc : src ≠ mm)
    (hweak : share = false → weak (ptep src la)) (hrun : s.copyPage env mm src la share = some (ret, s')) :
    Borrowed s₀ s' mm weak ∧ Grows s s' mm (· = la / PTSIZE) (· = la / PGSIZE) := by
  unfold Sys.copyPage at hrun
  split at hrun
  · cases hrun
    exact ⟨h, .refl ..⟩
  · split at hrun
    · rename_i s₁ hget
      cases hrun
      obtain ⟨hb, hpte, htables, -⟩ := h.getPte hget
      exact ⟨hb, htables, fun v hv => Or.inl (hpte ▸ hv)⟩
    · rename_i s₁ hget
      obtain ⟨hb, hpte, htables, htab⟩ := h.getPte hget
      split at hrun
      · rename_i hguard
        obtain ⟨s₂, hcopy, heq⟩ := Option.map_eq_some_iff.mp hrun
        cases heq
        obtain ⟨hb', hgrow⟩ := hb.copyPte hsrc hweak hguard.2 (htab rfl) hcopy
        have htable : Grows s s₁ mm (· = la / PTSIZE) (· = la / PGSIZE) := ⟨htables, fun v hv => Or.inl (hpte ▸ hv)⟩
        exact ⟨hb', htable.trans (hgrow.mono nofun fun _ hv => hv)⟩
      · cases hrun

/-- The page tables of the pages from `start` to `stop`. -/
def InTables (start stop idx : ℕ) : Prop := start / PTSIZE ≤ idx ∧ idx * PTSIZE < stop

theorem InTables.of_nextTable {start stop idx : ℕ} (h : InTables (nextTable start) stop idx) :
    InTables start stop idx := by
  unfold InTables nextTable PTSIZE PGSIZE at *
  omega

theorem InTables.of_add {start stop idx : ℕ} (h : InTables (start + PGSIZE) stop idx) : InTables start stop idx := by
  unfold InTables PTSIZE PGSIZE at *
  omega

theorem inTables_start {start stop : ℕ} (hlt : start < stop) : InTables start stop (start / PTSIZE) :=
  ⟨le_rfl, (Nat.div_mul_le_self _ _).trans_lt hlt⟩

theorem copyLoop_borrowed {src : ℕ} {share : Bool} (hsrc : src ≠ mm) (stop start : ℕ) (s : Sys) {s' : Sys} {ret : Int}
    (h : Borrowed s₀ s mm weak) (hal : PGSIZE ∣ start) (hlt : start < stop)
    (hweak : share = false → ∀ vpn, InPages start stop vpn → weak (.user src vpn))
    (hrun : copyLoop env mm src share stop start s = some (ret, s')) :
    Borrowed s₀ s' mm weak ∧ Grows s s' mm (InTables start stop) (InPages start stop) := by
  fun_induction copyLoop env mm src share stop start s with
  | case1 start s hpde hgo ih =>
    obtain ⟨hb, hgrow⟩ := ih h (nextTable_aligned start) hgo.2 (fun hs v hv => hweak hs v hv.of_nextTable) hrun
    exact ⟨hb, hgrow.mono (fun _ hi => hi.of_nextTable) fun _ hv => hv.of_nextTable⟩
  | case2 start s hpde hstop =>
    cases hrun
    exact ⟨h, .refl ..⟩
  | case3 start s f hpde ih =>
    obtain ⟨⟨r, s₁⟩, hpage, hrest⟩ := Option.bind_eq_some_iff.mp hrun
    have hin := inPages_start hal hlt
    obtain ⟨hb, hgrow⟩ := h.copyPage hsrc (fun hs => hweak hs _ hin) hpage
    have hhere : Grows s s₁ mm (InTables start stop) (InPages start stop) := by
      refine hgrow.mono ?_ ?_
      · rintro _ rfl
        exact inTables_start hlt
      · rintro _ rfl
        exact hin
    dsimp only at hrest
    split at hrest
    · cases hrest
      exact ⟨hb, hhere⟩
    · split at hrest
      · rename_i hgo
        obtain ⟨hb', hgrow'⟩ := ih s₁ hgo hb (add_aligned hal) hgo.2 (fun hs v hv => hweak hs v hv.of_add) hrest
        exact ⟨hb', hhere.trans (hgrow'.mono (fun _ hi => hi.of_add) fun _ hv => hv.of_add)⟩
      · cases hrest
        exact ⟨hb, hhere⟩

/-- **`copy_range`**, wherever it stops. -/
theorem Borrowed.copyRange {src start stop : ℕ} {share : Bool} {ret : Int} (h : Borrowed s₀ s mm weak)
    (hsrc : src ≠ mm)
    (hweak : share = false → ∀ vpn, InPages start stop vpn → weak (.user src vpn))
    (hrun : s.copyRange env mm src start stop share = some (ret, s')) :
    Borrowed s₀ s' mm weak ∧ Grows s s' mm (InTables start stop) (InPages start stop) := by
  unfold Sys.copyRange at hrun
  obtain ⟨_, hal, hrest⟩ := Option.bind_eq_some_iff.mp hrun
  obtain ⟨_, hacc, hloop⟩ := Option.bind_eq_some_iff.mp hrest
  have hacc := of_guard hacc
  exact copyLoop_borrowed hsrc stop start s h (Nat.dvd_of_mod_eq_zero (of_guard hal).1) hacc.2.1 hweak hloop

end Sys

end Ucore
