import Ucore.Lib.Count
import Ucore.Mm.Pmm
import Ucore.Mm.SwapSpec

/-!
# Page tables and reference counts

`Paging` is the invariant of the whole memory between two calls: `page->ref` is the number of
entries that map a frame and `mem_map` the number of entries that hold a swap entry, counted over
all page tables.  The functions of `kern/mm/pmm.c` are specified for arbitrary numbers of references
first, since inside `page_insert` a frame counts one mapping that no table has yet.
-/

namespace Ucore

open Occurrence

/-- Mappings of the frame `f` in one entry. -/
def Pte.maps : Pte → ℕ → ℕ
  | .page g _, f => if g = f then 1 else 0
  | _, _ => 0

/-- Holders of the swap entry `o` in one entry. -/
def Pte.holds : Pte → ℕ → ℕ
  | .swap p, o => if p = o then 1 else 0
  | _, _ => 0

theorem Pte.maps_self (f : ℕ) (perm : Perm) : (Pte.page f perm).maps f = 1 := if_pos rfl

theorem Pte.maps_ne {f g : ℕ} (perm : Perm) (h : g ≠ f) : (Pte.page g perm).maps f = 0 := if_neg h

open Classical in
theorem Pte.maps_eq (e : Pte) (f : ℕ) : e.maps f = if e.Maps f then 1 else 0 := by
  unfold Pte.Maps
  cases e <;> simp [Pte.maps]

open Classical in
theorem Pte.holds_eq (e : Pte) (o : ℕ) : e.holds o = if e.Holds o then 1 else 0 := by
  unfold Pte.Holds
  cases e <;> simp [Pte.holds]

/-- Number of entries that map the frame `f`. -/
noncomputable def refs (P : Loc → Pte) (f : ℕ) : ℕ := occ P (Pte.Maps f)

/-- Number of entries that hold the swap entry `o`. -/
noncomputable def holders (P : Loc → Pte) (o : ℕ) : ℕ := occ P (Pte.Holds o)

section tables

variable {P : Loc → Pte} {x : Loc} {f o : ℕ}

theorem finite_maps (hfin : {x | P x ≠ .zero}.Finite) (f : ℕ) : {x | (P x).Maps f}.Finite := by
  refine hfin.subset fun x hx hzero => ?_
  obtain ⟨perm, hx⟩ := hx
  rw [hzero] at hx
  cases hx

theorem finite_holds (hfin : {x | P x ≠ .zero}.Finite) (o : ℕ) : {x | (P x).Holds o}.Finite := by
  refine hfin.subset fun x (hx : P x = .swap o) hzero => ?_
  rw [hzero] at hx
  cases hx

theorem refs_update (hfin : {x | P x ≠ .zero}.Finite) (x : Loc) (e : Pte) (f : ℕ) :
    refs (Function.update P x e) f + (P x).maps f = refs P f + e.maps f := by
  rw [Pte.maps_eq, Pte.maps_eq]
  exact occ_update x e (finite_maps hfin f)

theorem holders_update (hfin : {x | P x ≠ .zero}.Finite) (x : Loc) (e : Pte) (o : ℕ) :
    holders (Function.update P x e) o + (P x).holds o = holders P o + e.holds o := by
  rw [Pte.holds_eq, Pte.holds_eq]
  exact occ_update x e (finite_holds hfin o)

theorem maps_le_refs (hfin : {x | P x ≠ .zero}.Finite) (x : Loc) (f : ℕ) :
    (P x).maps f ≤ refs P f := by
  have hup := refs_update hfin x .zero f
  have hzero : Pte.zero.maps f = 0 := rfl
  omega

theorem holds_le_holders (hfin : {x | P x ≠ .zero}.Finite) (x : Loc) (o : ℕ) :
    (P x).holds o ≤ holders P o := by
  have hup := holders_update hfin x .zero o
  have hzero : Pte.zero.holds o = 0 := rfl
  omega

theorem refs_pos (hfin : {x | P x ≠ .zero}.Finite) {perm : Perm} (hx : P x = .page f perm) :
    refs P f ≠ 0 :=
  occ_ne_zero (finite_maps hfin f) (a := x) ⟨perm, hx⟩

theorem holders_pos (hfin : {x | P x ≠ .zero}.Finite) (hx : P x = .swap o) : holders P o ≠ 0 :=
  occ_ne_zero (finite_holds hfin o) (a := x) hx

end tables

namespace Sys

/-- What the entry at `x` gives the process to read. -/
def view (s : Sys) (x : Loc) : Option Data :=
  match s.pte x with
  | .zero => none
  | .page f _ => some (s.data f)
  | .swap o => some (s.slot o)

/-- The entry at `x` stands for the page in the frame `f`. -/
def Owns (s : Sys) (x : Loc) (f : ℕ) : Prop :=
  (∃ p, s.pte x = .page f p) ∨ ∃ o, s.pte x = .swap o ∧ s.Caches f o

/-- No other entry stands for the page in the frame `f`. -/
def Sole (s : Sys) (x : Loc) (f : ℕ) : Prop := ∀ y, s.Owns y f → y = x

/-- The two entries stand for the same page, in a frame or on a slot. -/
def Linked (s : Sys) (x y : Loc) : Prop :=
  (∃ f, s.Owns x f ∧ s.Owns y f) ∨ ∃ o, s.pte x = .swap o ∧ s.pte y = .swap o

/-- Some entry maps the frame with the dirty bit set. -/
def DirtyIn (P : Loc → Pte) (f : ℕ) : Prop := ∃ x perm, P x = .page f perm ∧ perm.d = true

/-- The page table, or the node of a shared memory object, for an entry exists. -/
def HasTable (s : Sys) : Loc → Prop
  | .user mm vpn => s.pde mm (vpn / 1024) ≠ none
  | .shm shmem idx => s.shmn shmem (idx / 1024) ≠ none

/-- The invariant of paging between two calls. -/
structure Paging (s : Sys) : Prop where
  finite : {x | s.pte x ≠ .zero}.Finite
  swap : s.SwapInv (refs s.pte) (holders s.pte)
  table : ∀ x, s.pte x ≠ .zero → s.HasTable x
  inj : ∀ mm idx mm' idx' f, s.pde mm idx = some f → s.pde mm' idx' = some f →
    mm = mm' ∧ idx = idx'
  apart : ∀ mm idx shmem i f, s.pde mm idx = some f → s.shmn shmem i ≠ some f
  shmInj : ∀ shmem i shmem' i' f, s.shmn shmem i = some f → s.shmn shmem' i' = some f →
    shmem = shmem' ∧ i = i'

/-- A call that ends with the invariant and leaves alone the entries outside `T`, what these give to
read, and whether the pages they map share an entry with them. -/
structure Paged (s s' : Sys) (T : Loc → Prop) : Prop where
  paging : s'.Paging
  maxSwapOffset : s'.maxSwapOffset = s.maxSwapOffset
  shmLen : s'.shmLen = s.shmLen
  tables : ∀ x, s.HasTable x → s'.HasTable x
  pte : ∀ y, ¬ T y → s'.pte y = s.pte y
  view : ∀ y, ¬ T y → s'.view y = s.view y
  caches : ∀ y f p o, ¬ T y → s'.pte y = .page f p → s'.Caches f o →
    s.Caches f o ∨ ∀ z, ¬ T z → s'.pte z ≠ .swap o

/-- A mapped page in the cache has been there before, or its entry has no holder outside `T`. -/
def CachesOld (s s' : Sys) (T : Loc → Prop) : Prop :=
  ∀ y f p o, s'.pte y = .page f p → s'.Caches f o →
    s.Caches f o ∨ ∀ z, ¬ T z → s'.pte z ≠ .swap o

/-- A call keeps clean pages clean. -/
def CleanStep (s s' : Sys) : Prop := s.Clean (DirtyIn s.pte) → s'.Clean (DirtyIn s'.pte)

variable {s s' : Sys} {R H : ℕ → ℕ} {x y : Loc} {f g o : ℕ} {env : Env} {perm : Perm}

/-! ## Editing one entry -/

/-- What an edit of the entry `x` leaves alone; an entry with more holders than `x` keeps what it
stands for. -/
structure Edits (s s' : Sys) (x : Loc) (e : Pte) (R' H' : ℕ → ℕ) : Prop where
  maxSwapOffset : s'.maxSwapOffset = s.maxSwapOffset
  pde : s'.pde = s.pde
  shmn : s'.shmn = s.shmn
  shmLen : s'.shmLen = s.shmLen
  pte : s'.pte = Function.update s.pte x e
  data : s'.data = s.data
  slot : ∀ o, H' o ≠ e.holds o → s'.slot o = s.slot o
  caches : ∀ f o, R' f ≠ 0 → s'.Caches f o → s.Caches f o ∨ H' o = e.holds o

/-- The counts without those of one entry. -/
def without (R m : ℕ → ℕ) : ℕ → ℕ := fun f => R f - m f

theorem without_zero_maps (R : ℕ → ℕ) : without R Pte.zero.maps = R := rfl

theorem without_zero_holds (H : ℕ → ℕ) : without H Pte.zero.holds = H := rfl

theorem without_swap_maps (R : ℕ → ℕ) (o : ℕ) : without R (Pte.swap o).maps = R := rfl

theorem without_page_holds (H : ℕ → ℕ) (f : ℕ) (perm : Perm) :
    without H (Pte.page f perm).holds = H := rfl

theorem without_page_maps (R : ℕ → ℕ) (f : ℕ) (perm : Perm) :
    without R (Pte.page f perm).maps = Function.update R f (R f - 1) := by
  funext g
  unfold without Pte.maps
  by_cases hgf : g = f
  · subst hgf; simp
  · simp [hgf, Ne.symm hgf]

theorem without_swap_holds (H : ℕ → ℕ) (o : ℕ) :
    without H (Pte.swap o).holds = Function.update H o (H o - 1) := by
  funext p
  unfold without Pte.holds
  by_cases hpo : p = o
  · subst hpo; simp
  · simp [hpo, Ne.symm hpo]

theorem SwapInv.setPte (h : s.SwapInv R H) (x : Loc) (e : Pte) : (s.setPte x e).SwapInv R H :=
  ⟨h.cache.congr rfl rfl rfl rfl rfl rfl rfl, h.counts.ref, h.counts.table, h.counts.free,
    h.counts.entry, h.counts.range, h.counts.next⟩

/-- The entry of a call that keeps everything else is cleared. -/
theorem Keeps.edits {R' H' : ℕ → ℕ} (h : Keeps s s' R' H') (hdata : s'.data = s.data) (x : Loc) :
    Edits s (s'.setPte x .zero) x .zero R' H' where
  maxSwapOffset := h.maxSwapOffset
  pde := h.pde
  shmn := h.shmn
  shmLen := h.shmLen
  pte := by unfold Sys.setPte; rw [h.pte]
  data := hdata
  slot := h.slot
  caches := h.caches

/-- A call that moves the dirty bits of the entry `x`, if that is a page in the cache, to its
flag. -/
def Saves (s s' : Sys) (x : Loc) : Prop :=
  ∀ D D' : ℕ → Prop, (∀ g, D g → D' g ∨ ∃ p, s.pte x = .page g p ∧ p.d = true) →
    s.Clean D → s'.Clean D'

/-- What holds after the entry `x` has given up its reference. -/
structure Removes (s s' : Sys) (x : Loc) (R' H' : ℕ → ℕ) : Prop where
  inv : s'.SwapInv R' H'
  edits : Edits s s' x .zero R' H'
  saves : Saves s s' x
  uncached : ∀ g, s'.pageSwap g = true → s.pageSwap g = true

theorem Clean.mono {D D' : ℕ → Prop} (h : s.Clean D)
    (hD : ∀ g, s.pageSwap g = true → s.pageDirty g = false → D g → D' g) : s.Clean D' :=
  fun g hg hdirty hDg => h g hg hdirty fun hDg' => hDg (hD g hg hdirty hDg')

/-- `page_remove_pte` of a page outside the cache. -/
theorem SwapInv.removePage_spec (h : s.SwapInv R H) (hx : s.pte x = .page f perm) (hpos : 0 < R f)
    (hswap : s.pageSwap f = false) (hs' : s' =
      (if (s.pageRefDec f).pageRef f = 0 then (s.pageRefDec f).freePage f else
        s.pageRefDec f).setPte x .zero) :
    Removes s s' x (Function.update R f (R f - 1)) H := by
  have hinv := h.pageRefDec hpos
  have htab : ¬ s.IsTable f := fun htab => by
    have h0 := (h.counts.table f htab).1
    omega
  have hclean : Saves s s x := by
    intro D D' hD hc
    refine hc.mono fun g hg _ hDg => ?_
    rcases hD g hDg with hD' | ⟨p, hp, -⟩
    · exact hD'
    · rw [hx] at hp
      cases hp
      simp [hswap] at hg
  split at hs'
  · rename_i hzero
    have hR : Function.update R f (R f - 1) f = 0 := by
      have href := hinv.counts.ref f htab
      rw [hzero] at href
      exact_mod_cast href.symm
    have hkeeps₁ : Keeps s (s.pageRefDec f) (Function.update R f (R f - 1)) H :=
      ⟨⟨rfl, rfl, rfl, rfl, rfl, fun _ _ _ hf => Or.inl hf⟩, fun _ _ => rfl, fun _ _ => rfl,
        fun _ hD => hD⟩
    have hkeeps : Keeps s ((s.pageRefDec f).freePage f) (Function.update R f (R f - 1)) H :=
      hkeeps₁.trans (freePage_keeps (s := s.pageRefDec f) hswap H) (fun _ ho => ho) (Or.inr rfl)
    subst hs'
    refine ⟨(hinv.freePage hswap hR htab).setPte x .zero, hkeeps.edits rfl x,
      fun D D' hD hc => hkeeps.clean D' (hclean D D' hD hc), fun g hg => ?_⟩
    exact (freePage_caches (p := s.pageIndex g) ⟨hg, rfl⟩).1
  · subst hs'
    exact ⟨hinv.setPte x .zero, ⟨rfl, rfl, rfl, rfl, rfl, rfl, fun _ _ => rfl,
      fun _ _ _ hf => Or.inl hf⟩, hclean, fun _ hg => hg⟩

/-- `page_remove_pte` of a page in the cache. -/
theorem SwapInv.removeCached_spec (h : s.SwapInv R H) (hx : s.pte x = .page f perm) (hpos : 0 < R f)
    (hs' : s' =
      ((if perm.d then s.setPageDirty f true else s).pageRefDec f).setPte x .zero) :
    Removes s s' x (Function.update R f (R f - 1)) H := by
  split at hs'
  · subst hs'
    refine ⟨((h.setPageDirty f true).pageRefDec hpos).setPte x .zero,
      ⟨rfl, rfl, rfl, rfl, rfl, rfl, fun _ _ => rfl, fun _ _ _ hf => Or.inl hf⟩,
      fun D D' hD hc => ?_, fun _ hg => hg⟩
    refine Clean.mono (D := D) ((setPageDirty_keeps (R := R) f H).clean D hc) fun g _ hdirty hDg => ?_
    rcases hD g hDg with hD' | ⟨p, hp, -⟩
    · exact hD'
    · rw [hx] at hp
      cases hp
      simp [Sys.setPte, Sys.pageRefDec, Sys.setPageRef, Sys.setPageDirty] at hdirty
  · rename_i hd
    subst hs'
    refine ⟨(h.pageRefDec hpos).setPte x .zero,
      ⟨rfl, rfl, rfl, rfl, rfl, rfl, fun _ _ => rfl, fun _ _ _ hf => Or.inl hf⟩,
      fun D D' hD hc => ?_, fun _ hg => hg⟩
    refine Clean.mono (D := D) hc fun g _ _ hDg => ?_
    rcases hD g hDg with hD' | ⟨p, hp, hpd⟩
    · exact hD'
    · rw [hx] at hp
      cases hp
      exact absurd hpd hd

/-- An entry that is not a page has no dirty bit to save. -/
theorem saves_of_not_page (hx : ∀ g p, s.pte x ≠ .page g p)
    (hclean : ∀ D, s.Clean D → s'.Clean D) : Saves s s' x := by
  intro D D' hD hc
  refine hclean D' (hc.mono fun g _ _ hDg => ?_)
  rcases hD g hDg with hD' | ⟨p, hp, -⟩
  · exact hD'
  · exact absurd hp (hx g p)

/-- **`page_remove_pte`**: the entry gives up its reference. -/
theorem SwapInv.pageRemovePte_spec (h : s.SwapInv R H) (hR : ∀ f, (s.pte x).maps f ≤ R f)
    (hH : ∀ o, (s.pte x).holds o ≤ H o) (hrun : s.pageRemovePte x = some s') :
    Removes s s' x (without R (s.pte x).maps) (without H (s.pte x).holds) := by
  unfold pageRemovePte at hrun
  cases hx : s.pte x with
  | zero =>
    rw [hx] at hrun
    cases hrun
    rw [without_zero_maps, without_zero_holds]
    refine ⟨h, ⟨rfl, rfl, rfl, rfl, ?_, rfl, fun _ _ => rfl, fun _ _ _ hf => Or.inl hf⟩, ?_,
      fun _ hg => hg⟩
    · rw [← hx, Function.update_eq_self]
    · exact saves_of_not_page (by simp [hx]) fun _ hc => hc
  | page f perm =>
    have hpos : 0 < R f := by
      have hle := hR f
      rw [hx] at hle
      simpa [Pte.maps, Nat.one_le_iff_ne_zero, Nat.pos_iff_ne_zero] using hle
    rw [hx] at hrun
    rw [without_page_maps, without_page_holds]
    dsimp only at hrun
    cases hswap : s.pageSwap f with
    | false =>
      simp only [hswap] at hrun
      exact h.removePage_spec hx hpos hswap (Option.some.inj hrun).symm
    | true =>
      simp only [hswap] at hrun
      exact h.removeCached_spec hx hpos (Option.some.inj hrun).symm
  | swap o =>
    have hne : H o ≠ 0 := by
      have hle := hH o
      rw [hx] at hle
      simpa [Pte.holds, Nat.one_le_iff_ne_zero] using hle
    rw [hx] at hrun
    rw [without_swap_maps, without_swap_holds]
    obtain ⟨s₁, hrem, rfl⟩ := Option.map_eq_some_iff.mp hrun
    obtain ⟨hinv, hkeeps, hdata, hswap⟩ := h.swapRemoveEntry_spec hne hrem
    exact ⟨hinv.setPte x .zero, hkeeps.edits hdata x,
      saves_of_not_page (by simp [hx]) hkeeps.clean, hswap⟩

/-- The counts with those of one entry in place of another. -/
def replaced (R m m' : ℕ → ℕ) : ℕ → ℕ := fun f => R f - m f + m' f

/-- What holds after `page_insert` has written the entry `x`. -/
structure Inserts (s s' : Sys) (R H : ℕ → ℕ) (x : Loc) (f : ℕ) (perm : Perm) : Prop where
  inv : s'.SwapInv (replaced R (s.pte x).maps (Pte.page f perm).maps)
    (without H (s.pte x).holds)
  edits : Edits s s' x (.page f perm) (replaced R (s.pte x).maps (Pte.page f perm).maps)
    (without H (s.pte x).holds)
  saves : (∀ p, s.pte x = .page f p → p.d = true → perm.d = true) → CleanStep s s'
  uncached : ∀ g, s'.pageSwap g = true → s.pageSwap g = true

/-- A dirty mapping is elsewhere, or in the entry that is overwritten. -/
theorem DirtyIn.update_or {P : Loc → Pte} (h : DirtyIn P g) (x : Loc) (e : Pte) :
    DirtyIn (Function.update P x e) g ∨ ∃ p, P x = .page g p ∧ p.d = true := by
  obtain ⟨y, p, hy, hd⟩ := h
  by_cases hyx : y = x
  · subst hyx
    exact Or.inr ⟨p, hy, hd⟩
  · exact Or.inl ⟨y, p, by rw [Function.update_of_ne hyx, hy], hd⟩

theorem maps_replaced (R : ℕ → ℕ) (e : Pte) (f : ℕ) (perm : Perm) (hle : ∀ g, e.maps g ≤ R g) :
    without (Function.update R f (R f + 1)) e.maps = replaced R e.maps (Pte.page f perm).maps := by
  funext g
  have hg := hle g
  unfold without replaced
  by_cases hgf : g = f
  · subst hgf
    rw [Function.update_self, Pte.maps_self]
    omega
  · rw [Function.update_of_ne hgf, Pte.maps_ne perm (Ne.symm hgf)]
    rfl

/-- `page_insert` over an entry that it removes, or over an empty one. -/
theorem SwapInv.insertOver_spec (h : s.SwapInv R H) (hR : ∀ f, (s.pte x).maps f ≤ R f)
    (hH : ∀ o, (s.pte x).holds o ≤ H o) (hfree : s.free f = false) (htab : ¬ s.IsTable f)
    {s₁ : Sys} (hrun : (s.pageRefInc f).pageRemovePte x = some s₁) :
    Inserts s (s₁.setPte x (.page f perm)) R H x f perm := by
  have hinc := h.pageRefInc hfree htab
  have hR' : ∀ g, ((s.pageRefInc f).pte x).maps g ≤ Function.update R f (R f + 1) g := by
    intro g
    have hg := hR g
    show (s.pte x).maps g ≤ _
    by_cases hgf : g = f
    · subst hgf; simp only [Function.update_self]; omega
    · rwa [Function.update_of_ne hgf]
  obtain ⟨hinv, hedits, hsaves, hswap⟩ := hinc.pageRemovePte_spec hR' hH hrun
  have hpte : (s.pageRefInc f).pte = s.pte := rfl
  rw [hpte] at hinv hedits
  rw [maps_replaced R (s.pte x) f perm hR] at hinv hedits
  refine ⟨hinv.setPte x _, ⟨hedits.maxSwapOffset, hedits.pde, hedits.shmn, hedits.shmLen, ?_,
    hedits.data, hedits.slot, hedits.caches⟩, fun _ hc => ?_, hswap⟩
  · show Function.update s₁.pte x _ = _
    rw [hedits.pte, hpte, Function.update_idem]
  · have hpte' : (s₁.setPte x (.page f perm)).pte = Function.update s.pte x (.page f perm) := by
      show Function.update s₁.pte x _ = _
      rw [hedits.pte, hpte, Function.update_idem]
    rw [hpte']
    exact hsaves (DirtyIn s.pte) _ (fun g hg => hg.update_or x _) hc

/-- **`page_insert`**, once the page table exists. -/
theorem SwapInv.insertPte_spec (h : s.SwapInv R H) (hR : ∀ f, (s.pte x).maps f ≤ R f)
    (hH : ∀ o, (s.pte x).holds o ≤ H o) (hfree : s.free f = false) (htab : ¬ s.IsTable f)
    (hrun : s.insertPte x f perm = some s') : Inserts s s' R H x f perm := by
  unfold insertPte at hrun
  have hpte : (s.pageRefInc f).pte x = s.pte x := rfl
  simp only [hpte] at hrun
  cases hx : s.pte x with
  | zero =>
    rw [hx] at hrun
    cases hrun
    refine h.insertOver_spec hR hH hfree htab ?_
    unfold pageRemovePte
    rw [hpte, hx]
  | page g p =>
    rw [hx] at hrun
    dsimp only at hrun
    split at hrun
    · rename_i hgf
      subst hgf
      cases hrun
      have href : (s.pageRefInc g).pageRefDec g = s := by
        simp [Sys.pageRefInc, Sys.pageRefDec, Sys.setPageRef]
      rw [href]
      have hsame : replaced R (s.pte x).maps (Pte.page g perm).maps = R := by
        funext k
        have hk := hR k
        rw [hx] at hk ⊢
        simp only [replaced, Pte.maps] at hk ⊢
        omega
      refine ⟨?_, ⟨rfl, rfl, rfl, rfl, rfl, rfl, fun _ _ => rfl, fun _ _ _ hf => Or.inl hf⟩,
        fun hd hc => ?_, fun _ hg => hg⟩
      · rw [hsame, hx, without_page_holds]
        exact h.setPte x _
      · refine Clean.mono (D := DirtyIn s.pte) hc fun k _ _ hk => ?_
        rcases hk.update_or x (.page g perm) with hk' | ⟨q, hq, hqd⟩
        · exact hk'
        · rw [hx] at hq
          cases hq
          exact ⟨x, perm, Function.update_self .., hd p hx hqd⟩
    · obtain ⟨s₁, hrem, rfl⟩ := Option.map_eq_some_iff.mp hrun
      exact h.insertOver_spec hR hH hfree htab hrem
  | swap o =>
    rw [hx] at hrun
    obtain ⟨s₁, hrem, rfl⟩ := Option.map_eq_some_iff.mp hrun
    exact h.insertOver_spec hR hH hfree htab hrem

/-! ## The invariant of paging -/

theorem Paged.refl (h : s.Paging) (T : Loc → Prop) : Paged s s T :=
  ⟨h, rfl, rfl, fun _ hx => hx, fun _ _ => rfl, fun _ _ => rfl, fun _ _ _ _ _ _ hf => Or.inl hf⟩

theorem Paged.trans {s'' : Sys} {T : Loc → Prop} (h : Paged s s' T) (h' : Paged s' s'' T) :
    Paged s s'' T where
  paging := h'.paging
  maxSwapOffset := h'.maxSwapOffset.trans h.maxSwapOffset
  shmLen := h'.shmLen.trans h.shmLen
  tables x hx := h'.tables x (h.tables x hx)
  pte y hy := (h'.pte y hy).trans (h.pte y hy)
  view y hy := (h'.view y hy).trans (h.view y hy)
  caches y f p o hy hpte hf := by
    rcases h'.caches y f p o hy hpte hf with hf' | hno
    · rw [h'.pte y hy] at hpte
      rcases h.caches y f p o hy hpte hf' with hf'' | hno
      · exact Or.inl hf''
      · refine Or.inr fun z hz => ?_
        rw [h'.pte z hz]
        exact hno z hz
    · exact Or.inr hno

theorem Paged.mono {T T' : Loc → Prop} (h : Paged s s' T) (hT : ∀ y, T y → T' y) : Paged s s' T' where
  paging := h.paging
  maxSwapOffset := h.maxSwapOffset
  shmLen := h.shmLen
  tables := h.tables
  pte y hy := h.pte y fun hTy => hy (hT y hTy)
  view y hy := h.view y fun hTy => hy (hT y hTy)
  caches y f p o hy hpte hf := by
    rcases h.caches y f p o (fun hTy => hy (hT y hTy)) hpte hf with hf' | hno
    · exact Or.inl hf'
    · exact Or.inr fun z hz => hno z fun hTz => hz (hT z hTz)

theorem HasTable.congr (hpde : s'.pde = s.pde) (hshmn : s'.shmn = s.shmn) (h : s.HasTable x) :
    s'.HasTable x := by
  cases x <;> simpa only [HasTable, hpde, hshmn] using h

/-- One entry is edited, and the counts follow. -/
theorem Paging.edit {e : Pte} {R' H' : ℕ → ℕ} (h : s.Paging) (hedits : Edits s s' x e R' H')
    (hinv : s'.SwapInv R' H')
    (hR : ∀ f, R' f + (s.pte x).maps f = refs s.pte f + e.maps f)
    (hH : ∀ o, H' o + (s.pte x).holds o = holders s.pte o + e.holds o)
    (hx : e ≠ .zero → s.HasTable x) : Paged s s' (· = x) ∧ CachesOld s s' (· = x) := by
  have hfin' : {y | s'.pte y ≠ .zero}.Finite := by
    rw [hedits.pte]
    exact finite_update (P := fun e => e ≠ Pte.zero) x e h.finite
  have hrefs : R' = refs s'.pte := by
    funext f
    have hup := refs_update h.finite x e f
    have hf := hR f
    rw [hedits.pte]
    omega
  have hholders : H' = holders s'.pte := by
    funext o
    have hup := holders_update h.finite x e o
    have ho := hH o
    rw [hedits.pte]
    omega
  have hpte : ∀ y, y ≠ x → s'.pte y = s.pte y := fun y hy => by
    rw [hedits.pte, Function.update_of_ne hy]
  have htab : ∀ y, s'.pte y ≠ .zero → s'.HasTable y := by
    intro y hy
    by_cases hyx : y = x
    · subst hyx
      rw [hedits.pte, Function.update_self] at hy
      exact (hx hy).congr hedits.pde hedits.shmn
    · rw [hpte y hyx] at hy
      exact (h.table y hy).congr hedits.pde hedits.shmn
  have hpaging : s'.Paging := by
    refine ⟨hfin', hrefs ▸ hholders ▸ hinv, htab, ?_, ?_, ?_⟩
    · rw [hedits.pde]
      exact h.inj
    · rw [hedits.pde, hedits.shmn]
      exact h.apart
    · rw [hedits.shmn]
      exact h.shmInj
  -- an entry that some `y ≠ x` holds has more holders than `x`
  have hother : ∀ y o, y ≠ x → s'.pte y = .swap o → H' o ≠ e.holds o := by
    intro y o hy hyo heq
    rw [hholders] at heq
    have hpos := holders_pos hfin' hyo
    have hxo := holds_le_holders hfin' x o
    have hle : holders s'.pte o ≤ 1 := by
      rw [heq, Pte.holds_eq]
      split <;> omega
    have hxe : s'.pte x = .swap o := by
      have hpe : s'.pte x = e := by rw [hedits.pte, Function.update_self]
      rw [hpe]
      cases e with
      | zero => exact absurd heq hpos
      | page f p => exact absurd heq hpos
      | swap o' =>
        by_cases ho : o' = o
        · rw [ho]
        · rw [heq] at hpos
          simp [Pte.holds, ho] at hpos
    exact hy (eq_of_occ_le_one (finite_holds hfin' o) hle hyo hxe)
  have hold : CachesOld s s' (· = x) := by
    intro y f p o hy hf
    have hne : R' f ≠ 0 := by
      rw [hrefs]
      exact refs_pos hfin' hy
    rcases hedits.caches f o hne hf with hf' | h0
    · exact Or.inl hf'
    · exact Or.inr fun z hz hzo => hother z o hz hzo h0
  refine ⟨⟨hpaging, hedits.maxSwapOffset, hedits.shmLen,
    fun y hy => hy.congr hedits.pde hedits.shmn, hpte, fun y hy => ?_,
    fun y f p o _ hy hf => hold y f p o hy hf⟩, hold⟩
  have hy' := hpte y hy
  unfold view
  rw [hy']
  cases hyp : s.pte y with
  | zero => rfl
  | page f p => simp only [hedits.data]
  | swap o => simp only [hedits.slot o (hother y o hy (hy'.trans hyp))]

/-- **`page_remove_pte` keeps the invariant of paging.** -/
theorem Paging.pageRemovePte_spec (h : s.Paging) (hrun : s.pageRemovePte x = some s') :
    Paged s s' (· = x) ∧ s'.pte x = .zero ∧ CleanStep s s' ∧ s'.data = s.data := by
  have hR := maps_le_refs h.finite x
  have hH := holds_le_holders h.finite x
  obtain ⟨hinv, hedits, hsaves, -⟩ := h.swap.pageRemovePte_spec hR hH hrun
  refine ⟨(h.edit hedits hinv (fun f => ?_) (fun o => ?_) (fun hne => absurd rfl hne)).1, ?_, ?_,
    hedits.data⟩
  · have hf := hR f
    have hzero : Pte.zero.maps f = 0 := rfl
    unfold without
    omega
  · have ho := hH o
    have hzero : Pte.zero.holds o = 0 := rfl
    unfold without
    omega
  · rw [hedits.pte, Function.update_self]
  · intro hc
    rw [hedits.pte]
    exact hsaves (DirtyIn s.pte) _ (fun g hg => hg.update_or x _) hc

/-- **`page_insert` keeps the invariant of paging**, once the page table exists. -/
theorem Paging.insertPte_spec (h : s.Paging) (hx : s.HasTable x) (hfree : s.free f = false)
    (htab : ¬ s.IsTable f) (hrun : s.insertPte x f perm = some s') :
    Paged s s' (· = x) ∧ CachesOld s s' (· = x) ∧ s'.pte x = .page f perm ∧ s'.data = s.data ∧
      (∀ g, s'.pageSwap g = true → s.pageSwap g = true) ∧ (∀ g, s'.IsTable g ↔ s.IsTable g) ∧
      ((∀ p, s.pte x = .page f p → p.d = true → perm.d = true) → CleanStep s s') := by
  have hR := maps_le_refs h.finite x
  have hH := holds_le_holders h.finite x
  obtain ⟨hinv, hedits, hsaves, hswap⟩ := h.swap.insertPte_spec hR hH hfree htab hrun
  have hedit := h.edit hedits hinv (fun g => ?_) (fun o => ?_) (fun _ => hx)
  · refine ⟨hedit.1, hedit.2, ?_, hedits.data, hswap,
      fun g => IsTable.congr hedits.pde hedits.shmn, hsaves⟩
    rw [hedits.pte, Function.update_self]
  · have hg := hR g
    unfold replaced
    omega
  · have ho := hH o
    have hzero : (Pte.page f perm).holds o = 0 := rfl
    unfold without
    omega

end Sys

end Ucore
