import Mathlib.Data.Nat.Bitwise
import Ucore.Mm.PmmInv

/-!
# Specifications of the page table functions

The functions of `kern/mm/pmm.c` and `do_pgfault`, `swap_out_vma` for private areas: each keeps the
invariant of paging and says which entries it touches.
-/

namespace Ucore.Sys

variable {s s' : Sys} {x y : Loc} {f g o : ℕ} {env : Env} {perm : Perm} {mm la : ℕ}

/-- No entry is touched. -/
def Untouched : Loc → Prop := fun _ => False

/-- A call of `swap.c` that keeps everything. -/
theorem Paging.same (h : s.Paging) (hinv : s'.SwapInv (refs s.pte) (holders s.pte))
    (ht : SameTables s s' (refs s.pte) (holders s.pte)) : s'.Paging := by
  refine ⟨by rw [ht.pte]; exact h.finite, by rw [ht.pte]; exact hinv, fun x hx => ?_, ?_, ?_, ?_⟩
  · rw [ht.pte] at hx
    exact (h.table x hx).congr ht.pde ht.shmn
  · rw [ht.pde]
    exact h.inj
  · rw [ht.pde, ht.shmn]
    exact h.apart
  · rw [ht.shmn]
    exact h.shmInj

theorem Paging.mapped_inUse (h : s.Paging) (hx : s.pte x = .page f perm) : s.free f = false := by
  cases hfree : s.free f with
  | false => rfl
  | true => exact absurd (h.swap.counts.free f hfree).1 (refs_pos h.finite hx)

theorem Paging.mapped_noTable (h : s.Paging) (hx : s.pte x = .page f perm) : ¬ s.IsTable f :=
  fun htab => refs_pos h.finite hx (h.swap.counts.table f htab).1

/-- A call of `swap.c` that keeps everything touches no entry. -/
theorem Paging.keep (h : s.Paging) (hinv : s'.SwapInv (refs s.pte) (holders s.pte))
    (hk : Keeps s s' (refs s.pte) (holders s.pte)) :
    Paged s s' Untouched ∧ CachesOld s s' Untouched ∧ CleanStep s s' := by
  have hold : CachesOld s s' Untouched := by
    intro y f p o hy hf
    rw [hk.pte] at hy
    rcases hk.caches f o (refs_pos h.finite hy) hf with hf' | h0
    · exact Or.inl hf'
    · refine Or.inr fun z _ hz => ?_
      rw [hk.pte] at hz
      exact holders_pos h.finite hz h0
  refine ⟨⟨h.same hinv hk.toSameTables, hk.maxSwapOffset, hk.shmLen,
    fun y hy => hy.congr hk.pde hk.shmn, fun y _ => by rw [hk.pte], fun y _ => ?_,
    fun y f p o _ hy hf => hold y f p o hy hf⟩, hold, fun hc => ?_⟩
  · unfold view
    rw [hk.pte]
    cases hy : s.pte y with
    | zero => rfl
    | page f p => simp only [hk.data f (h.mapped_inUse hy)]
    | swap o => simp only [hk.slot o (holders_pos h.finite hy)]
  · rw [hk.pte]
    exact hk.clean _ hc

/-! ## Page tables -/

/-- What a call that only takes free frames leaves alone. -/
structure Quiet (s s' : Sys) : Prop where
  paged : Paged s s' Untouched
  grows : CacheGrows s s'
  clean : CleanStep s s'
  pte : s'.pte = s.pte
  noneFreed : NoneFreed s s'
  data : ∀ g, s.free g = false → s'.data g = s.data g
  fresh : ∀ g, s.Fresh (refs s.pte) g → s'.Fresh (refs s'.pte) g
  noTable : ∀ g, s.free g = false → ¬ s.IsTable g → ¬ s'.IsTable g

theorem Quiet.refl (h : s.Paging) : Quiet s s :=
  ⟨.refl h _, ⟨fun _ _ hf => hf, fun _ _ hf => Or.inl hf⟩, fun hc => hc, rfl, fun _ hg => hg, fun _ _ => rfl,
    fun _ hg => hg, fun _ _ hg => hg⟩

theorem Paging.allocPage_spec {site : AllocSite} {r : Option ℕ} (h : s.Paging)
    (hrun : s.allocPage env site = (r, s')) :
    Quiet s s' ∧ ∀ f, r = some f → s'.Fresh (refs s'.pte) f ∧ s.free f = true := by
  obtain ⟨hinv, hk, hnone, ⟨free, data, hs'⟩, hfresh⟩ := h.swap.allocPage_spec hrun
  obtain ⟨hpaged, -, hclean⟩ := h.keep hinv hk
  refine ⟨⟨hpaged, ⟨fun g p hg => ?_, fun g p hg => ?_⟩, hclean, hk.pte, hnone, hk.data,
    fun g hg => ?_, fun g _ hg htab => ?_⟩, fun f hf => ?_⟩
  · subst hs'
    exact hg
  · subst hs'
    exact Or.inl hg
  · subst hs'
    exact ⟨hg.unmapped, hnone g hg.inUse, hg.uncached, hg.noTable⟩
  · exact hg ((IsTable.congr hk.pde hk.shmn).mp htab)
  · rw [hk.pte]
    exact hfresh f hf

theorem addTable_isTable {idx : ℕ} (hnone : s.pde mm idx = none) :
    (s.addTable mm idx f).IsTable g ↔ s.IsTable g ∨ g = f := by
  unfold IsTable addTable
  constructor
  · rintro (⟨m, i, hm⟩ | hsh)
    · by_cases hmm : m = mm
      · subst hmm
        by_cases hi : i = idx
        · subst hi
          simp only [Function.update_self, Option.some.injEq] at hm
          exact Or.inr hm.symm
        · simp only [Function.update_self, Function.update_of_ne hi] at hm
          exact Or.inl (Or.inl ⟨m, i, hm⟩)
      · simp only [Function.update_of_ne hmm] at hm
        exact Or.inl (Or.inl ⟨m, i, hm⟩)
    · exact Or.inl (Or.inr hsh)
  · rintro ((⟨m, i, hm⟩ | hsh) | rfl)
    · refine Or.inl ⟨m, i, ?_⟩
      by_cases hmm : m = mm
      · subst hmm
        have hi : i ≠ idx := fun hi => by rw [hi, hnone] at hm; cases hm
        simpa only [Function.update_self, Function.update_of_ne hi] using hm
      · simpa only [Function.update_of_ne hmm] using hm
    · exact Or.inr hsh
    · exact Or.inl ⟨mm, idx, by simp⟩

theorem addTable_pte {idx : ℕ} (h : s.Paging) (hnone : s.pde mm idx = none) :
    (s.addTable mm idx f).pte = s.pte := by
  funext x
  cases x with
  | shm shmem i => rfl
  | user m vpn =>
    simp only [addTable]
    split
    · rename_i hin
      by_contra hne
      have htab := h.table (.user m vpn) (Ne.symm hne)
      rw [← hin.2, ← hin.1] at hnone
      exact htab hnone
    · rfl

theorem addTable_pde {idx m i k : ℕ} (hm : (s.addTable mm idx f).pde m i = some k) :
    s.pde m i = some k ∨ (m = mm ∧ i = idx ∧ k = f) := by
  unfold addTable at hm
  by_cases hmm : m = mm
  · subst hmm
    by_cases hi : i = idx
    · subst hi
      simp only [Function.update_self, Option.some.injEq] at hm
      exact Or.inr ⟨rfl, rfl, hm.symm⟩
    · simp only [Function.update_self, Function.update_of_ne hi] at hm
      exact Or.inl hm
  · simp only [Function.update_of_ne hmm] at hm
    exact Or.inl hm

/-- A fresh frame becomes a page table: no counter but its own changes. -/
theorem SwapInv.addTable {R H : ℕ → ℕ} {idx : ℕ} (h : s.SwapInv R H) (hf : s.Fresh R f)
    (hnone : s.pde mm idx = none) : (s.addTable mm idx f).SwapInv R H := by
  refine ⟨h.cache.congr rfl rfl rfl rfl rfl rfl rfl, fun g hg => ?_, fun g hg => ?_,
    h.counts.free, h.counts.entry, h.counts.range, h.counts.next⟩
  · rw [addTable_isTable hnone, not_or] at hg
    have hold := h.counts.ref g hg.1
    simpa [Sys.addTable, setPageRef, hg.2] using hold
  · rw [addTable_isTable hnone] at hg
    rcases hg with hg | rfl
    · exact h.counts.table g hg
    · exact ⟨hf.unmapped, hf.inUse, hf.uncached⟩

theorem Paging.addTable {idx : ℕ} (h : s.Paging) (hf : s.Fresh (refs s.pte) f)
    (hnone : s.pde mm idx = none) : (s.addTable mm idx f).Paging := by
  have hpte := addTable_pte (f := f) h hnone
  refine ⟨by rw [hpte]; exact h.finite, ?_, fun x hx => ?_, fun m i m' i' k hm hm' => ?_,
    fun m i shmem j k hm => ?_, h.shmInj⟩
  · rw [hpte]
    exact h.swap.addTable hf hnone
  · rw [hpte] at hx
    have htab := h.table x hx
    cases x with
    | shm shmem i => exact htab
    | user m vpn =>
      simp only [HasTable, Sys.addTable] at htab ⊢
      by_cases hmm : m = mm
      · subst hmm
        by_cases hi : vpn / 1024 = idx
        · subst hi; simp
        · simpa [hi] using htab
      · simpa [hmm] using htab
  · have hnew : ∀ a b, s.pde a b ≠ some f := fun a b hab => hf.noTable (Or.inl ⟨a, b, hab⟩)
    rcases addTable_pde hm with hold | ⟨hma, hia, hkf⟩ <;>
      rcases addTable_pde hm' with hold' | ⟨hma', hia', hkf'⟩
    · exact h.inj m i m' i' k hold hold'
    · exact absurd (hkf' ▸ hold) (hnew m i)
    · exact absurd (hkf ▸ hold') (hnew m' i')
    · exact ⟨hma.trans hma'.symm, hia.trans hia'.symm⟩
  · rcases addTable_pde hm with hold | ⟨-, -, hkf⟩
    · exact h.apart m i shmem j k hold
    · exact fun hsh => hf.noTable (Or.inr ⟨shmem, j, hkf ▸ hsh⟩)

theorem view_congr (hpte : s'.pte = s.pte) (hdata : s'.data = s.data) (hslot : s'.slot = s.slot)
    (y : Loc) : s'.view y = s.view y := by
  unfold view
  rw [hpte, hdata, hslot]

theorem addTable_hasTable {idx : ℕ} (hy : s.HasTable y) : (s.addTable mm idx f).HasTable y := by
  cases y with
  | shm shmem i => exact hy
  | user m vpn =>
    simp only [HasTable, Sys.addTable] at hy ⊢
    by_cases hmm : m = mm
    · subst hmm
      by_cases hi : vpn / 1024 = idx
      · subst hi; simp
      · simpa [hi] using hy
    · simpa [hmm] using hy

/-- A frame that was free before the call becomes a page table. -/
theorem Quiet.addTable {s₁ : Sys} {idx : ℕ} (hq : Quiet s s₁) (hf : s₁.Fresh (refs s₁.pte) f)
    (hwas : s.free f = true) (hnone : s₁.pde mm idx = none) : Quiet s (s₁.addTable mm idx f) := by
  have hpte := addTable_pte (f := f) hq.paged.paging hnone
  have hview : ∀ y, (s₁.addTable mm idx f).view y = s₁.view y :=
    view_congr hpte rfl (slot_congr rfl rfl rfl rfl)
  have hne : ∀ g, s.free g = false → g ≠ f := by
    intro g hg hgf
    subst hgf
    simp [hwas] at hg
  refine ⟨⟨hq.paged.paging.addTable hf hnone, hq.paged.maxSwapOffset, hq.paged.shmLen,
    fun y hy => addTable_hasTable (hq.paged.tables y hy), fun y hy => ?_, fun y hy => ?_,
    fun y k p o hT hy hc => ?_⟩, hq.grows, fun hc => ?_, hpte.trans hq.pte, hq.noneFreed, hq.data,
    fun g hg => ?_, fun g hg htab => ?_⟩
  · rw [hpte, hq.paged.pte y hy]
  · rw [hview y, hq.paged.view y hy]
  · rw [hpte] at hy ⊢
    exact hq.paged.caches y k p o hT hy hc
  · rw [hpte]
    exact hq.clean hc
  · have hg' := hq.fresh g hg
    rw [hpte]
    refine ⟨hg'.unmapped, hg'.inUse, hg'.uncached, fun htab => ?_⟩
    rw [addTable_isTable hnone] at htab
    rcases htab with htab | hgf
    · exact hg'.noTable htab
    · exact hne g hg.inUse hgf
  · rw [addTable_isTable hnone, not_or]
    exact ⟨hq.noTable g hg htab, hne g hg⟩

theorem ptep_hasTable : s.HasTable (ptep mm la) ↔ s.pde mm (la / PTSIZE) ≠ none := by
  have hdiv : la / PGSIZE / 1024 = la / PTSIZE := Nat.div_div_eq_div_mul la PGSIZE 1024
  rw [← hdiv]
  exact Iff.rfl

/-- **`get_pte`**: nothing is touched, and with the result true the entry exists. -/
theorem Paging.getPte_spec {create ok : Bool} (h : s.Paging)
    (hrun : s.getPte env mm la create = (ok, s')) :
    Quiet s s' ∧ (ok = true → s'.HasTable (ptep mm la)) := by
  unfold getPte at hrun
  split at hrun
  · rename_i k hk
    cases hrun
    exact ⟨.refl h, fun _ => ptep_hasTable.mpr (by simp [hk])⟩
  · rename_i hnone
    split at hrun
    · split at hrun
      · rename_i s₁ halloc
        cases hrun
        exact ⟨(h.allocPage_spec halloc).1, fun h0 => by cases h0⟩
      · rename_i f s₁ halloc
        cases hrun
        obtain ⟨hq, hfresh⟩ := h.allocPage_spec halloc
        obtain ⟨hf, hwas⟩ := hfresh f rfl
        have hnone₁ : s₁.pde mm (la / PTSIZE) = none := by
          obtain ⟨-, hk, -, -, -⟩ := h.swap.allocPage_spec halloc
          rw [hk.pde, hnone]
        refine ⟨hq.addTable hf hwas hnone₁, fun _ => ptep_hasTable.mpr ?_⟩
        simp [Sys.addTable]
    · cases hrun
      exact ⟨.refl h, fun h0 => by cases h0⟩

/-- `get_pte` on an existing table does nothing. -/
theorem getPte_existing {create : Bool} (hx : s.HasTable (ptep mm la)) :
    s.getPte env mm la create = (true, s) := by
  rw [ptep_hasTable] at hx
  unfold getPte
  split
  · rfl
  · rename_i hnone
    exact absurd hnone hx

/-! ## Inserting and removing pages -/

/-- **`page_insert` keeps the invariant of paging.** -/
theorem Paging.pageInsert_spec {ret : Int} (h : s.Paging) (hfree : s.free f = false)
    (htab : ¬ s.IsTable f) (hrun : s.pageInsert env mm f la perm = some (ret, s')) :
    Paged s s' (· = ptep mm la) ∧
      ((ret ≠ 0 ∧ Quiet s s') ∨ (ret = 0 ∧ s'.pte (ptep mm la) = .page f perm ∧
        s'.data f = s.data f)) := by
  unfold pageInsert at hrun
  split at hrun
  · rename_i s₁ hget
    cases hrun
    have hq := (h.getPte_spec hget).1
    exact ⟨hq.paged.mono fun _ hy => hy.elim, Or.inl ⟨by decide, hq⟩⟩
  · rename_i s₁ hget
    obtain ⟨hq, htable⟩ := h.getPte_spec hget
    obtain ⟨s₂, hins, hend⟩ := Option.map_eq_some_iff.mp hrun
    cases hend
    obtain ⟨hpaged, -, hpte, hdata, -, -, -⟩ := hq.paged.paging.insertPte_spec (htable rfl)
      (hq.noneFreed f hfree) (hq.noTable f hfree htab) hins
    refine ⟨(hq.paged.mono fun _ hy => hy.elim).trans hpaged, Or.inr ⟨rfl, hpte, ?_⟩⟩
    rw [hdata, hq.data f hfree]

/-- `page_insert` into an existing table. -/
theorem pageInsert_existing (hx : s.HasTable (ptep mm la)) :
    s.pageInsert env mm f la perm = (s.insertPte (ptep mm la) f perm).map fun s => (0, s) := by
  unfold pageInsert
  rw [getPte_existing hx]

/-- `free_page` of a frame that was never mapped. -/
theorem Paging.freeFresh (h : s.Paging) (hswap : s.pageSwap f = false) (hR : refs s.pte f = 0)
    (htab : ¬ s.IsTable f) :
    Paged s (s.freePage f) Untouched ∧ CleanStep s (s.freePage f) := by
  obtain ⟨hpaged, -, hclean⟩ := h.keep (h.swap.freePage hswap hR htab) (freePage_keeps hswap _)
  exact ⟨hpaged, hclean⟩

/-- **`page_remove` keeps the invariant of paging.** -/
theorem Paging.pageRemove_spec (h : s.Paging) (hrun : s.pageRemove mm la = some s') :
    Paged s s' (· = ptep mm la) ∧ CleanStep s s' ∧ s'.pte (ptep mm la) = .zero := by
  unfold pageRemove at hrun
  split at hrun
  · obtain ⟨hpaged, hzero, hclean, -⟩ := h.pageRemovePte_spec hrun
    exact ⟨hpaged, hclean, hzero⟩
  · rename_i hnone
    cases hrun
    refine ⟨.refl h _, fun hc => hc, ?_⟩
    by_contra hne
    exact ptep_hasTable.mp (h.table _ hne) hnone

/-! ## Which entries stand for a page -/

theorem Paging.view_owns (h : s.Paging) (hx : s.Owns x f) : s.view x = some (s.data f) := by
  unfold view
  rcases hx with ⟨p, hx⟩ | ⟨o, hx, hf⟩
  · rw [hx]
  · rw [hx]
    simp only [h.swap.cache.slot_cached hf]

/-- A frame that no entry stands for. -/
theorem Fresh.not_owned (hf : s.Fresh (refs s.pte) f) (h : s.Paging) (y : Loc) : ¬ s.Owns y f := by
  rintro (⟨p, hy⟩ | ⟨o, -, hc⟩)
  · exact refs_pos h.finite hy hf.unmapped
  · have hswap := hc.1
    simp [hf.uncached] at hswap

theorem Paging.free_not_owned (h : s.Paging) (hf : s.free f = true) (y : Loc) : ¬ s.Owns y f := by
  obtain ⟨hR, hswap⟩ := h.swap.counts.free f hf
  rintro (⟨p, hy⟩ | ⟨o, -, hc⟩)
  · exact refs_pos h.finite hy hR
  · have hcached := hc.1
    simp [hswap] at hcached

theorem Paging.owned_inUse (h : s.Paging) (hx : s.Owns x f) : s.free f = false := by
  cases hfree : s.free f with
  | false => rfl
  | true => exact absurd hx (h.free_not_owned hfree x)

theorem Paging.owned_noTable (h : s.Paging) (hx : s.Owns x f) : ¬ s.IsTable f := by
  intro htab
  obtain ⟨hR, -, hswap⟩ := h.swap.counts.table f htab
  rcases hx with ⟨p, hy⟩ | ⟨o, -, hc⟩
  · exact refs_pos h.finite hy hR
  · have hcached := hc.1
    simp [hswap] at hcached

/-- Ownership outside the touched entries has been there before. -/
theorem Paged.owns_old {T : Loc → Prop} {p : Perm} (h : Paged s s' T) (hy : ¬ T y)
    (hpage : s'.pte y = .page f p) {z : Loc} (hz : ¬ T z) (hown : s'.Owns z f) : s.Owns z f := by
  rcases hown with ⟨q, hzq⟩ | ⟨o, hzo, hc⟩
  · rw [h.pte z hz] at hzq
    exact Or.inl ⟨q, hzq⟩
  · rcases h.caches y f p o hy hpage hc with hc' | hno
    · rw [h.pte z hz] at hzo
      exact Or.inr ⟨o, hzo, hc'⟩
    · exact absurd hzo (hno z hz)

/-- **`page->ref` and `swap_page_count` tell whether a page is shared.** -/
theorem Paging.sole_of_mustCopy (h : s.Paging) (hx : s.Owns x f)
    (hcopy : s.mustCopy f true = some false) : s.Sole x f := by
  unfold mustCopy at hcopy
  simp only [if_true] at hcopy
  obtain ⟨count, hcount, hle⟩ := Option.map_eq_some_iff.mp hcopy
  have href := h.swap.counts.ref f (h.owned_noTable hx)
  have hle : refs s.pte f + count ≤ 1 := by
    simp only [decide_eq_false_iff_not, gt_iff_lt, not_lt, href] at hle
    exact_mod_cast hle
  have hheld : ∀ o, s.Caches f o → count = holders s.pte o := by
    intro o hc
    unfold swapPageCount at hcount
    rw [if_pos hc.1, hc.2] at hcount
    obtain ⟨p, hp, rfl⟩ := Option.map_eq_some_iff.mp hcount
    obtain ⟨rfl, hr⟩ := swapOffset_eq_some hp
    exact (h.swap.counts.memMap_cached hr hc).1
  -- two references, mapped or held, would make the sum at least two
  intro y hy
  rcases hx with ⟨p, hx⟩ | ⟨o, hx, hc⟩ <;> rcases hy with ⟨q, hy⟩ | ⟨o', hy, hc'⟩
  · have hone : refs s.pte f ≤ 1 := by omega
    exact Occurrence.eq_of_occ_le_one (finite_maps h.finite f) hone ⟨q, hy⟩ ⟨p, hx⟩
  · have hmapped := refs_pos h.finite hx
    have hholds := holders_pos h.finite hy
    have hcount' := hheld o' hc'
    omega
  · have hmapped := refs_pos h.finite hy
    have hholds := holders_pos h.finite hx
    have hcount' := hheld o hc
    omega
  · have hsame : o' = o := by rw [← hc'.2, ← hc.2]
    subst hsame
    have hone : holders s.pte o' ≤ 1 := by
      have hcount' := hheld o' hc
      omega
    exact Occurrence.eq_of_occ_le_one (finite_holds h.finite o') hone hy hx

/-! ## Page faults -/

/-- A call that changes how the entry `x` stands for its page, if it has one: what it gives to read
stays, the right to write is kept or comes to the sole owner of the page, and a dirty bit is kept
with the right to write. -/
structure Adjusts (s s' : Sys) (x : Loc) : Prop where
  paged : Paged s s' (· = x)
  view : s.pte x ≠ .zero → s'.view x = s.view x
  writable : ∀ f p, s'.pte x = .page f p → p.w = true → s'.Sole x f ∨
    ((∃ p', s.pte x = .page f p' ∧ p'.w = true) ∧ ∀ y, s'.Owns y f → s.Owns y f)
  dirty : ∀ f p, s'.pte x = .page f p → p.d = true →
    ∃ f' p', s.pte x = .page f' p' ∧ p'.d = true ∧ (p'.w = true → p.w = true)
  origin : ∀ f, s'.Owns x f → s.Owns x f ∨ ∀ y, ¬ s.Owns y f
  links : ∀ y, y ≠ x → s'.Linked x y → s.Linked x y
  clean : (∀ f p, s.pte x = .page f p → p.d = true → p.w = true) → CleanStep s s'

theorem Adjusts.refl (h : s.Paging) (x : Loc) : Adjusts s s x :=
  ⟨.refl h _, fun _ => rfl, fun _ p hx hw => Or.inr ⟨⟨p, hx, hw⟩, fun _ hy => hy⟩,
    fun f p hx hd => ⟨f, p, hx, hd, id⟩, fun _ hf => Or.inl hf, fun _ _ hl => hl, fun _ hc => hc⟩

/-- Who stands for a page before a quiet call and after it. -/
theorem Quiet.owns (hq : Quiet s s') (h : s.Paging) (hown : s'.Owns x f) :
    s.Owns x f ∨ ∀ y, ¬ s.Owns y f := by
  rcases hown with ⟨p, hx⟩ | ⟨o, hx, hc⟩
  · rw [hq.pte] at hx
    exact Or.inl (Or.inl ⟨p, hx⟩)
  · rw [hq.pte] at hx
    rcases hq.grows.2 f o hc with hc' | hfree
    · exact Or.inl (Or.inr ⟨o, hx, hc'⟩)
    · exact Or.inr (h.free_not_owned hfree)

theorem Quiet.owns_mono (hq : Quiet s s') (hown : s.Owns x f) : s'.Owns x f := by
  rcases hown with ⟨p, hx⟩ | ⟨o, hx, hc⟩
  · exact Or.inl ⟨p, by rw [hq.pte, hx]⟩
  · exact Or.inr ⟨o, by rw [hq.pte, hx], hq.grows.1 f o hc⟩

/-- An entry that maps a page and another that stands for the same one, or two holders of a swap
entry: there is no other way for two entries to be linked. -/
theorem Linked.cases (hl : s.Linked x y) :
    (∃ f p, s.pte x = .page f p ∧ s.Owns y f) ∨ (∃ f p, s.pte y = .page f p ∧ s.Owns x f) ∨
      ∃ o, s.pte x = .swap o ∧ s.pte y = .swap o := by
  rcases hl with ⟨f, hx, hy⟩ | hswap
  · rcases hx with ⟨p, hx⟩ | ⟨o, hx, hc⟩
    · exact Or.inl ⟨f, p, hx, hy⟩
    · rcases hy with ⟨p, hy⟩ | ⟨o', hy, hc'⟩
      · exact Or.inr (Or.inl ⟨f, p, hy, Or.inr ⟨o, hx, hc⟩⟩)
      · have hsame : o' = o := by rw [← hc'.2, ← hc.2]
        exact Or.inr (Or.inr ⟨o, hx, hsame ▸ hy⟩)
  · exact Or.inr (Or.inr hswap)

/-- Where the touched entries are empty afterwards, linked entries have been linked before. -/
theorem Paged.linked {T : Loc → Prop} (hp : Paged s s' T) (hT : ∀ y, T y → s'.pte y = .zero)
    (hl : s'.Linked x y) : s.Linked x y := by
  have hout : ∀ u e, s'.pte u = e → e ≠ .zero → ¬ T u := by
    intro u e hu hne hTu
    exact hne (hu ▸ hT u hTu)
  have hown : ∀ u g, s'.Owns u g → ¬ T u := by
    rintro u g (⟨p, hu⟩ | ⟨o, hu, -⟩)
    · exact hout u _ hu (by simp)
    · exact hout u _ hu (by simp)
  rcases hl.cases with ⟨g, p, hx, hy⟩ | ⟨g, p, hy, hx⟩ | ⟨o, hx, hy⟩
  · have hTx := hout x _ hx (by simp)
    have hx' : s.pte x = .page g p := by rw [← hp.pte x hTx, hx]
    exact Or.inl ⟨g, Or.inl ⟨p, hx'⟩, hp.owns_old hTx hx (hown y g hy) hy⟩
  · have hTy := hout y _ hy (by simp)
    have hy' : s.pte y = .page g p := by rw [← hp.pte y hTy, hy]
    exact Or.inl ⟨g, hp.owns_old hTy hy (hown x g hx) hx, Or.inl ⟨p, hy'⟩⟩
  · have hTx := hout x _ hx (by simp)
    have hTy := hout y _ hy (by simp)
    rw [hp.pte x hTx] at hx
    rw [hp.pte y hTy] at hy
    exact Or.inr ⟨o, hx, hy⟩

theorem Quiet.linked (hq : Quiet s s') (hl : s'.Linked x y) : s.Linked x y :=
  hq.paged.linked (fun _ hT => hT.elim) hl

theorem Quiet.adjusts {s₁ : Sys} (hq : Quiet s s₁) (h : s.Paging) (hf : Adjusts s₁ s' x) :
    Adjusts s s' x where
  paged := (hq.paged.mono fun _ hy => hy.elim).trans hf.paged
  view hx := by
    rw [← hq.pte] at hx
    rw [hf.view hx, hq.paged.view x id]
  writable f p hx hw := by
    rcases hf.writable f p hx hw with hsole | ⟨⟨p', hp', hw'⟩, hown⟩
    · exact Or.inl hsole
    · rw [hq.pte] at hp'
      refine Or.inr ⟨⟨p', hp', hw'⟩, fun y hy => ?_⟩
      rcases hq.owns h (hown y hy) with hy' | hno
      · exact hy'
      · exact absurd (Or.inl ⟨p', hp'⟩) (hno x)
  dirty := by
    rw [← hq.pte]
    exact hf.dirty
  origin f hown := by
    rcases hf.origin f hown with hown' | hno
    · exact hq.owns h hown'
    · exact Or.inr fun y hy => hno y (hq.owns_mono hy)
  links y hy hl := hq.linked (hf.links y hy hl)
  clean hx hc := by
    rw [← hq.pte] at hx
    exact hf.clean hx (hq.clean hc)

/-- Entries that stand for a page which an entry maps have done so before. -/
theorem CachesOld.owns {T : Loc → Prop} {p : Perm} (hold : CachesOld s s' T)
    (hx : s'.pte x = .page f p) (hT : ¬ T y) (hy : s'.pte y = s.pte y) (hown : s'.Owns y f) :
    s.Owns y f := by
  rcases hown with ⟨q, hyq⟩ | ⟨o, hyo, hc⟩
  · exact Or.inl ⟨q, hy ▸ hyq⟩
  · rcases hold x f p o hx hc with hc' | hno
    · exact Or.inr ⟨o, hy ▸ hyo, hc'⟩
    · exact absurd hyo (hno y hT)

/-- A frame that nobody stands for gets contents. -/
theorem Paging.fillFresh (h : s.Paging) (hf : s.Fresh (refs s.pte) f) (d : Data) :
    Paged s { s with data := Function.update s.data f d } Untouched ∧
      CleanStep s { s with data := Function.update s.data f d } := by
  have hinv := h.swap.setData (Function.update s.data f d)
  have hslot := h.swap.cache.setData_slot hf.uncached d
  refine ⟨⟨⟨h.finite, hinv, h.table, h.inj, h.apart, h.shmInj⟩, rfl, rfl, fun _ hx => hx, fun _ _ => rfl,
    fun y _ => ?_, fun _ _ _ _ _ _ hc => Or.inl hc⟩, fun hc => hc.setData hf.uncached d⟩
  unfold view
  cases hy : s.pte y with
  | zero => rfl
  | swap o => simp only [hslot]
  | page g p =>
    have hgf : g ≠ f := by
      intro hgf
      subst hgf
      exact hf.not_owned h y (Or.inl ⟨p, hy⟩)
    simp only [Function.update_of_ne hgf]

/-- `page_insert` in a page fault: the entry comes to map the page it stands for, or a copy that
nobody else has. -/
theorem Paging.faultInsert_spec (h : s.Paging) (hx : s.HasTable x) (hfree : s.free f = false)
    (htab : ¬ s.IsTable f) (horigin : s.Owns x f ∨ ∀ y, ¬ s.Owns y f)
    (hview : s.pte x ≠ .zero → s.view x = some (s.data f)) (hd : perm.d = false)
    (hsole : perm.w = true → s.Sole x f) (hro : ∀ g p, s.pte x = .page g p → p.w = false)
    (hrun : s.insertPte x f perm = some s') : Adjusts s s' x := by
  obtain ⟨hpaged, hold, hpte, hdata, -, -, hclean⟩ := h.insertPte_spec hx hfree htab hrun
  refine ⟨hpaged, fun hne => ?_, fun g p hg hw => Or.inl fun y hy => ?_, fun g p hg hpd => ?_,
    fun g hg => ?_, fun y hyx hl => ?_, fun hnod => hclean fun p hp hpd => ?_⟩
  · rw [hview hne, hpaged.paging.view_owns (Or.inl ⟨perm, hpte⟩), hdata]
  · rw [hpte] at hg
    cases hg
    by_contra hyx
    exact hyx (hsole hw y (hold.owns hpte hyx (hpaged.pte y hyx) hy))
  · rw [hpte] at hg
    cases hg
    simp [hd] at hpd
  · rcases hg with ⟨p, hp⟩ | ⟨o, ho, -⟩
    · rw [hpte] at hp
      cases hp
      exact horigin
    · rw [hpte] at ho
      cases ho
  · have hown : s'.Owns y f := by
      rcases hl.cases with ⟨g, p, hx', hy⟩ | ⟨g, p, hy, hx' | ⟨o, ho, -⟩⟩ | ⟨o, ho, -⟩
      · rw [hpte] at hx'
        cases hx'
        exact hy
      · obtain ⟨q, hq⟩ := hx'
        rw [hpte] at hq
        cases hq
        exact Or.inl ⟨p, hy⟩
      · rw [hpte] at ho
        cases ho
      · rw [hpte] at ho
        cases ho
    have hold' := hold.owns hpte hyx (hpaged.pte y hyx) hown
    rcases horigin with hx' | hno
    · exact Or.inl ⟨f, hx', hold'⟩
    · exact absurd hold' (hno y)
  · have hpw := hnod f p hp hpd
    simp [hro f p hp] at hpw

theorem refs_eq_zero (h : s.Paging) (hno : ∀ y p, s.pte y ≠ .page f p) : refs s.pte f = 0 :=
  (Occurrence.occ_eq_zero (finite_maps h.finite f)).mpr fun y hy => hno y hy.choose hy.choose_spec

/-- `free_page` of the frame that a page fault has allocated and not used. -/
theorem Adjusts.freeNew (hf : Adjusts s s' x) (hswap : s'.pageSwap f = false)
    (hno : ∀ y p, s'.pte y ≠ .page f p) (htab : ¬ s'.IsTable f) :
    Adjusts s (s'.freePage f) x := by
  obtain ⟨hpaged, hclean⟩ :=
    hf.paged.paging.freeFresh hswap (refs_eq_zero hf.paged.paging hno) htab
  have howns : ∀ y g, (s'.freePage f).Owns y g → s'.Owns y g := by
    rintro y g (hy | ⟨o, hy, hc⟩)
    · exact Or.inl hy
    · exact Or.inr ⟨o, hy, freePage_caches hc⟩
  refine ⟨hf.paged.trans (hpaged.mono fun _ hy => hy.elim), fun hne => ?_, fun g p hg hw => ?_,
    hf.dirty, fun g hg => hf.origin g (howns x g hg), fun y hyx hl => hf.links y hyx ?_,
    fun hx hc => hclean (hf.clean hx hc)⟩
  · rw [hpaged.view x id, hf.view hne]
  · rcases hf.writable g p hg hw with hsole | ⟨hold, hown⟩
    · exact Or.inl fun y hy => hsole y (howns y g hy)
    · exact Or.inr ⟨hold, fun y hy => hown y (howns y g hy)⟩
  · rcases hl with ⟨g, hgx, hgy⟩ | hswap'
    · exact Or.inl ⟨g, howns x g hgx, howns y g hgy⟩
    · exact Or.inr hswap'

/-- **The end of `do_pgfault`**: the page that the entry stands for is mapped, or a copy of it. -/
theorem Paging.pgfaultMap_spec {page : ℕ} {newpage : Option ℕ} {mayCopy : Bool} {ret r : Int}
    (h : s.Paging) (hx : s.HasTable (ptep mm la)) (hown : s.Owns (ptep mm la) page)
    (hnew : ∀ f, newpage = some f → s.Fresh (refs s.pte) f) (hd : perm.d = false)
    (hw : perm.w = true → mayCopy = true)
    (hro : ∀ g p, s.pte (ptep mm la) = .page g p → p.w = false)
    (hrun : s.pgfaultMap env mm la page newpage mayCopy ret perm = some (r, s')) :
    Adjusts s s' (ptep mm la) := by
  unfold pgfaultMap at hrun
  obtain ⟨copy, hcopy, hrest⟩ := Option.bind_eq_some_iff.mp hrun
  have hview := h.view_owns hown
  split at hrest
  · cases newpage with
    | none =>
      cases hrest
      exact .refl h _
    | some f =>
      have hf := hnew f rfl
      obtain ⟨⟨r', s₂⟩, hins, hend⟩ := Option.bind_eq_some_iff.mp hrest
      cases hend
      obtain ⟨hfill, hclean⟩ := h.fillFresh hf (s.data page)
      rw [pageInsert_existing (hfill.tables _ hx)] at hins
      obtain ⟨s₃, hins', hend⟩ := Option.map_eq_some_iff.mp hins
      cases hend
      have hno : ∀ y, ¬ s.Owns y f := hf.not_owned h
      have hfault := hfill.paging.faultInsert_spec (hfill.tables _ hx) hf.inUse hf.noTable
        (Or.inr hno) (fun _ => ?_) hd (fun _ y hy => absurd hy (hno y)) hro hins'
      · refine ⟨(hfill.mono fun _ hy => hy.elim).trans hfault.paged, fun hne => ?_,
          hfault.writable, hfault.dirty, hfault.origin, hfault.links, fun hx hc => hfault.clean hx (hclean hc)⟩
        rw [hfault.view hne, hfill.view _ id]
      · rw [hfill.view _ id, hview]
        simp
  · rename_i hcopy'
    obtain ⟨⟨r', s₂⟩, hins, hend⟩ := Option.bind_eq_some_iff.mp hrest
    cases hend
    rw [pageInsert_existing hx] at hins
    obtain ⟨s₃, hins', hend⟩ := Option.map_eq_some_iff.mp hins
    cases hend
    have hsole : perm.w = true → s.Sole (ptep mm la) page := by
      intro hpw
      rw [hw hpw] at hcopy
      have hfalse : copy = false := by simpa using hcopy'
      rw [hfalse] at hcopy
      exact h.sole_of_mustCopy hown hcopy
    have hfault := h.faultInsert_spec hx (h.owned_inUse hown) (h.owned_noTable hown)
      (Or.inl hown) (fun _ => hview) hd hsole hro hins'
    cases newpage with
    | none => exact hfault
    | some f =>
      have hf := hnew f rfl
      obtain ⟨hpaged, -, hpte, -, hswap, htab, -⟩ :=
        h.insertPte_spec hx (h.owned_inUse hown) (h.owned_noTable hown) hins'
      refine hfault.freeNew ?_ (fun y p hy => ?_) (fun ht => hf.noTable ((htab f).mp ht))
      · cases hs : s₂.pageSwap f with
        | false => rfl
        | true =>
          have hout := hswap f hs
          simp [hf.uncached] at hout
      · by_cases hyx : y = ptep mm la
        · subst hyx
          rw [hpte] at hy
          cases hy
          exact hf.not_owned h _ hown
        · rw [hpaged.pte y hyx] at hy
          exact hf.not_owned h y (Or.inl ⟨p, hy⟩)

theorem Paging.fresh_freeNew (h : s.Paging) (x : Loc) (hf : s.Fresh (refs s.pte) f) :
    Adjusts s (s.freePage f) x :=
  (Adjusts.refl h x).freeNew hf.uncached (fun y p hy => hf.not_owned h y (Or.inl ⟨p, hy⟩))
    hf.noTable

/-- **`swap_in_page` keeps the invariant of paging.** -/
theorem Paging.swapInPage_spec {ret : Int} (h : s.Paging) (hused : s.memMap o ≠ SWAP_UNUSED)
    (hrun : s.swapInPage env o = some (ret, f, s')) :
    Quiet s s' ∧ (ret = 0 → s'.Caches f o) := by
  obtain ⟨hinv, hk, hnone, hgrows, hret⟩ := h.swap.swapInPage_spec hused hrun
  obtain ⟨hpaged, -, hclean⟩ := h.keep hinv hk
  have htab : ∀ g, s'.IsTable g → s.IsTable g := fun g => (IsTable.congr hk.pde hk.shmn).mp
  refine ⟨⟨hpaged, hgrows, hclean, hk.pte, hnone, hk.data, fun g hg => ?_,
    fun g _ hg ht => hg (htab g ht)⟩, hret⟩
  refine ⟨by rw [hk.pte]; exact hg.unmapped, hnone g hg.inUse, ?_, fun ht => hg.noTable (htab g ht)⟩
  cases hs : s'.pageSwap g with
  | false => rfl
  | true =>
    rcases hgrows.2 g _ ⟨hs, rfl⟩ with ⟨hs', -⟩ | hfree
    · simp [hg.uncached] at hs'
    · simp [hg.inUse] at hfree

theorem Paging.allocNewpage_spec {cow : Bool} {newpage : Option ℕ} (h : s.Paging)
    (hrun : s.allocNewpage env cow = (newpage, s')) :
    Quiet s s' ∧ ∀ f, newpage = some f → s'.Fresh (refs s'.pte) f := by
  unfold allocNewpage at hrun
  split at hrun
  · obtain ⟨hq, hfresh⟩ := h.allocPage_spec hrun
    exact ⟨hq, fun f hf => (hfresh f hf).1⟩
  · cases hrun
    exact ⟨.refl h, fun f hf => by cases hf⟩

theorem and_two_eq {n : ℕ} (h : n &&& 2 ≠ 0) : n &&& 2 = 2 := by
  have hbit : n &&& 2 = (n.testBit 1).toNat * 2 := Nat.and_two_pow n 1
  rw [hbit] at h ⊢
  cases hb : n.testBit 1 with
  | true => rfl
  | false => simp [hb] at h

/-- A private area that may be written is copied on write. -/
theorem isCow_of_private {vma : Vma} (hshare : vma.vmFlags &&& VM_SHARE = 0)
    (hwrite : vma.vmFlags &&& VM_WRITE ≠ 0) : isCow vma = true := by
  unfold isCow
  rw [decide_eq_true_iff, ← UInt32.toNat_inj]
  rw [ne_eq, ← UInt32.toNat_inj] at hwrite
  rw [← UInt32.toNat_inj] at hshare
  simp only [UInt32.toNat_and, UInt32.toNat_or] at *
  rw [Nat.and_or_distrib_left, hshare]
  simpa [VM_WRITE] using and_two_eq hwrite

theorem Quiet.hasTable (hq : Quiet s s') (hx : s.HasTable x) : s'.HasTable x := hq.paged.tables x hx

theorem Paging.pgfaultEntry_spec {vma : Vma} {errorCode : ℕ} {ret : Int} (h : s.Paging)
    (hx : s.HasTable (ptep mm la)) (hd : perm.d = false) (hw : perm.w = true → isCow vma = true)
    (hrun : s.pgfaultEntry env mm vma errorCode la perm = some (ret, s')) :
    Adjusts s s' (ptep mm la) := by
  unfold pgfaultEntry at hrun
  cases hpte : s.pte (ptep mm la) with
  | zero => simp [hpte] at hrun
  | page f p =>
    rw [hpte] at hrun
    dsimp only at hrun
    split at hrun
    · rename_i hcase
      obtain ⟨newpage, s₁, hnew⟩ : ∃ newpage s₁, s.allocNewpage env (isCow vma) = (newpage, s₁) :=
        ⟨_, _, rfl⟩
      rw [hnew] at hrun
      obtain ⟨hq, hfresh⟩ := h.allocNewpage_spec hnew
      have hpte₁ : s₁.pte (ptep mm la) = .page f p := by rw [hq.pte, hpte]
      refine hq.adjusts h (hq.paged.paging.pgfaultMap_spec (hq.hasTable hx) (Or.inl ⟨p, hpte₁⟩)
        hfresh hd (fun _ => rfl) (fun g q hg => ?_) hrun)
      rw [hpte₁] at hg
      cases hg
      simpa using hcase.2.1
    · cases hrun
  | swap o =>
    rw [hpte] at hrun
    dsimp only at hrun
    obtain ⟨newpage, s₁, hnew⟩ : ∃ newpage s₁, s.allocNewpage env (isCow vma) = (newpage, s₁) :=
      ⟨_, _, rfl⟩
    rw [hnew] at hrun
    obtain ⟨⟨r, f, s₂⟩, hin, hrest⟩ := Option.bind_eq_some_iff.mp hrun
    obtain ⟨hq₁, hfresh₁⟩ := h.allocNewpage_spec hnew
    have hpte₁ : s₁.pte (ptep mm la) = .swap o := by rw [hq₁.pte, hpte]
    have h₁ := hq₁.paged.paging
    have hused : s₁.memMap o ≠ SWAP_UNUSED := by
      have hheld := h₁.swap.counts.memMap_held (holders_pos h₁.finite hpte₁)
      omega
    obtain ⟨hq₂, hcached⟩ := h₁.swapInPage_spec hused hin
    have hpte₂ : s₂.pte (ptep mm la) = .swap o := by rw [hq₂.pte, hpte₁]
    have hfresh₂ : ∀ f, newpage = some f → s₂.Fresh (refs s₂.pte) f :=
      fun f hf => hq₂.fresh f (hfresh₁ f hf)
    refine hq₁.adjusts h (hq₂.adjusts h₁ ?_)
    dsimp only at hrest
    split at hrest
    · cases hrest
      cases newpage with
      | none => exact .refl hq₂.paged.paging _
      | some f => exact hq₂.paged.paging.fresh_freeNew _ (hfresh₂ f rfl)
    · rename_i hret
      have hret : r = 0 := by simpa using hret
      generalize hp : ({ perm with w := perm.w && ! (! decide (errorCode / 2 % 2 = 1) && isCow vma) } :
        Perm) = p at hrest
      refine hq₂.paged.paging.pgfaultMap_spec (hq₂.hasTable (hq₁.hasTable hx))
        (Or.inr ⟨o, hpte₂, hcached hret⟩) hfresh₂ (by rw [← hp]; exact hd) (fun hpw => ?_)
        (fun g q hg => ?_) hrest
      · rw [← hp] at hpw
        simp only [Bool.and_eq_true] at hpw ⊢
        exact ⟨hw hpw.1, hpw.2⟩
      · rw [hpte₂] at hg
        cases hg

/-- `do_pgfault` on an empty entry of a private area: a new page. -/
theorem Paging.pgdirAllocPage_spec {ok : Bool} (h : s.Paging) (hx : s.HasTable (ptep mm la))
    (hzero : s.pte (ptep mm la) = .zero) (hd : perm.d = false)
    (hrun : s.pgdirAllocPage env mm la perm = some (ok, s')) : Adjusts s s' (ptep mm la) := by
  unfold pgdirAllocPage at hrun
  split at hrun
  · rename_i s₁ halloc
    cases hrun
    have hq := (h.allocPage_spec halloc).1
    exact hq.adjusts h (.refl hq.paged.paging _)
  · rename_i f s₁ halloc
    obtain ⟨hq, hfresh⟩ := h.allocPage_spec halloc
    have hf := (hfresh f rfl).1
    have h₁ := hq.paged.paging
    rw [pageInsert_existing (hq.hasTable hx)] at hrun
    obtain ⟨⟨r, s₂⟩, hins, hend⟩ := Option.bind_eq_some_iff.mp hrun
    obtain ⟨s₃, hins', hr⟩ := Option.map_eq_some_iff.mp hins
    cases hr
    cases hend
    have hzero₁ : s₁.pte (ptep mm la) = .zero := by rw [hq.pte, hzero]
    have hno := hf.not_owned h₁
    refine hq.adjusts h (h₁.faultInsert_spec (hq.hasTable hx) hf.inUse hf.noTable (Or.inr hno)
      (fun hne => absurd hzero₁ hne) hd (fun _ y hy => absurd hy (hno y)) (fun g p hp => ?_) hins')
    rw [hzero₁] at hp
    cases hp

/-- **`do_pgfault` in a private area** keeps the invariant, what the page gives to read, and the
rule that only the sole owner of a page may write to it. -/
theorem Paging.doPgfault_spec {vma : Option Vma} {errorCode addr : ℕ} {ret : Int} (h : s.Paging)
    (hpriv : ∀ v, vma = some v → v.vmFlags &&& VM_SHARE = 0)
    (hrun : s.doPgfault env mm vma errorCode addr = some (ret, s')) :
    Adjusts s s' (ptep mm (rounddown addr)) := by
  unfold doPgfault at hrun
  cases vma with
  | none =>
    cases hrun
    exact .refl h _
  | some vma =>
    dsimp only at hrun
    split at hrun
    · split at hrun
      · rename_i s₁ hget
        cases hrun
        have hq := (h.getPte_spec hget).1
        exact hq.adjusts h (.refl hq.paged.paging _)
      · rename_i s₁ hget
        obtain ⟨hq, htable⟩ := h.getPte_spec hget
        have hx := htable rfl
        refine hq.adjusts h ?_
        split at hrun
        · rename_i hzero
          unfold pgfaultEmpty at hrun
          rw [if_pos (hpriv vma rfl)] at hrun
          obtain ⟨⟨ok, s₂⟩, hnew, hend⟩ := Option.bind_eq_some_iff.mp hrun
          cases hend
          exact hq.paged.paging.pgdirAllocPage_spec hx hzero rfl hnew
        · refine hq.paged.paging.pgfaultEntry_spec hx rfl (fun hw => ?_) hrun
          exact isCow_of_private (hpriv vma rfl) (by simpa using hw)
    · cases hrun
      exact .refl h _

end Ucore.Sys
