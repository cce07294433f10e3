import Ucore.Mm.SwapInv

/-!
# Specifications of the functions of `swap.c`

One theorem per function: from a state with `SwapInv` the function ends in such a state, with the
numbers of references that its callers account for, and it leaves alone what it has no business
with (`Keeps`).
-/

set_option linter.constructorNameAsVariable false

namespace Ucore.Sys

open Function (update update_apply update_eq_self update_of_ne update_self)

variable {s s' : Sys} {R H : ℕ → ℕ} {off : Option ℕ} {f g o n : ℕ} {env : Env}

/-! ## Slots and counts under small changes -/

/-- The entry stands for the same if its page in the cache is the same, or else its slot is. -/
theorem CacheInv.slot_eq {off' : Option ℕ} (h : s.CacheInv off) (h' : s'.CacheInv off')
    (hiff : ∀ g, s'.Caches g o ↔ s.Caches g o) (hdata : ∀ g, s.Caches g o → s'.data g = s.data g)
    (hdisk : s'.disk o = s.disk o) : s'.slot o = s.slot o := by
  by_cases hex : ∃ g, s.Caches g o
  · obtain ⟨g, hg⟩ := hex
    rw [h.slot_cached hg, h'.slot_cached ((hiff g).mpr hg), hdata g hg]
  · have hno : ∀ g, ¬ s.Caches g o := fun g hg => hex ⟨g, hg⟩
    rw [h.slot_disk hno, h'.slot_disk fun g hg => hno g ((hiff g).mp hg), hdisk]

theorem Counts.not_table (h : s.Counts R H) (hf : s.pageSwap f = true) : ¬ s.IsTable f := by
  intro htab
  have hswap := (h.table f htab).2.2
  simp [hf] at hswap

theorem Counts.ref_cached (h : s.Counts R H) (hf : s.pageSwap f = true) : s.pageRef f = R f :=
  h.ref f (h.not_table hf)

theorem Counts.entry_of_ne (h : s.Counts R H) (ho : s.InRange o) (hne : s.memMap o ≠ SWAP_UNUSED) :
    s.memMap o = H o ∧ H o < SWAP_UNUSED ∧ (H o = 0 → ∃ f, s.Caches f o) := by
  rcases h.entry o ho with ⟨hu, -, -⟩ | hused
  · exact absurd hu hne
  · exact hused

/-- An entry with a page in the cache, or with a holder, is in use. -/
theorem Counts.memMap_cached (h : s.Counts R H) (ho : s.InRange o) (hf : s.Caches f o) :
    s.memMap o = H o ∧ H o < SWAP_UNUSED := by
  rcases h.entry o ho with ⟨-, -, hno⟩ | hused
  · exact absurd hf (hno f)
  · exact ⟨hused.1, hused.2.1⟩

theorem Counts.memMap_held (h : s.Counts R H) (ho : H o ≠ 0) :
    s.memMap o = H o ∧ H o < SWAP_UNUSED := by
  rcases h.entry o (h.range o ho) with ⟨-, h0, -⟩ | hused
  · exact absurd h0 ho
  · exact ⟨hused.1, hused.2.1⟩

/-- One count changes, with the number of its holders. -/
theorem Counts.setMemMap {m : ℕ} (h : s.Counts R H) (ho : s.InRange o)
    (hnew : (n = SWAP_UNUSED ∧ m = 0 ∧ ∀ f, ¬ s.Caches f o) ∨
      (n = m ∧ m < SWAP_UNUSED ∧ (m = 0 → ∃ f, s.Caches f o))) :
    (s.setMemMap o n).Counts R (update H o m) := by
  refine ⟨h.ref, h.table, h.free, fun p hp => ?_, fun p hp => ?_, h.next⟩
  · by_cases hpo : p = o
    · subst hpo
      simpa [EntryCount, Caches, Sys.setMemMap] using hnew
    · have hold := h.entry p hp
      simpa [EntryCount, Caches, Sys.setMemMap, hpo] using hold
  · by_cases hpo : p = o
    · subst hpo; exact ho
    · rw [update_of_ne hpo] at hp
      exact h.range p hp

/-- A count of references changes, with the number of mappings. -/
theorem Counts.setPageRef {m : ℕ} (h : s.Counts R H) (hfree : s.free f = false)
    (htab : ¬ s.IsTable f) : (s.setPageRef f m).Counts (update R f m) H := by
  refine ⟨fun g hg => ?_, fun g hg => ?_, fun g hg => ?_, h.entry, h.range, h.next⟩
  · by_cases hgf : g = f
    · subst hgf; simp [Sys.setPageRef]
    · have hold := h.ref g hg
      simpa [Sys.setPageRef, hgf] using hold
  · have hgf : g ≠ f := fun hgf => htab (hgf ▸ hg)
    have hold := h.table g hg
    simpa [Sys.setPageRef, hgf] using hold
  · have hgf : g ≠ f := by
      intro hgf
      subst hgf
      have hfree' : s.free g = true := hg
      simp [hfree] at hfree'
    have hold := h.free g hg
    simpa [Sys.setPageRef, hgf] using hold

/-- `page_ref_inc` for a frame in use. -/
theorem SwapInv.pageRefInc (h : s.SwapInv R H) (hfree : s.free f = false) (htab : ¬ s.IsTable f) :
    (s.pageRefInc f).SwapInv (update R f (R f + 1)) H := by
  have hcount := h.counts.setPageRef (m := R f + 1) hfree htab
  unfold Sys.pageRefInc
  rw [h.counts.ref f htab]
  exact ⟨h.cache.congr rfl rfl rfl rfl rfl rfl rfl, hcount⟩

/-- `page_ref_dec` for a frame with a mapping. -/
theorem SwapInv.pageRefDec (h : s.SwapInv R H) (hpos : 0 < R f) :
    (s.pageRefDec f).SwapInv (update R f (R f - 1)) H := by
  have htab : ¬ s.IsTable f := fun htab => by
    have h0 := (h.counts.table f htab).1
    omega
  have hfree : s.free f = false := by
    cases hfree : s.free f with
    | false => rfl
    | true =>
      have h0 := (h.counts.free f hfree).1
      omega
  have hcount := h.counts.setPageRef (m := R f - 1) hfree htab
  unfold Sys.pageRefDec
  rw [h.counts.ref f htab, show ((R f : Int) - 1) = ((R f - 1 : ℕ) : Int) by omega]
  exact ⟨h.cache.congr rfl rfl rfl rfl rfl rfl rfl, hcount⟩

/-- `free_page` of a page without mappings and outside the cache. -/
theorem SwapInv.freePage (h : s.SwapInv R H) (hswap : s.pageSwap f = false) (hR : R f = 0)
    (htab : ¬ s.IsTable f) : (s.freePage f).SwapInv R H := by
  have heq : update s.pageSwap f false = s.pageSwap := by
    rw [← hswap, update_eq_self]
  refine ⟨h.cache.freePage hswap, fun g hg => ?_, fun g hg => ?_, fun g hg => ?_, fun o ho => ?_,
    h.counts.range, h.counts.next⟩
  · have hold := h.counts.ref g hg
    by_cases hgf : g = f
    · subst hgf; simp [Sys.freePage, hR]
    · simpa [Sys.freePage, hgf] using hold
  · have hgf : g ≠ f := fun hgf => htab (hgf ▸ hg)
    have hold := h.counts.table g hg
    simpa [Sys.freePage, hgf] using hold
  · have hold := h.counts.free g
    by_cases hgf : g = f
    · subst hgf; simp [Sys.freePage, hR]
    · simp only [Sys.freePage, update_of_ne hgf] at hg ⊢
      exact hold hg
  · have hold := h.counts.entry o ho
    simp only [EntryCount, Caches, Sys.freePage, heq] at hold ⊢
    exact hold

theorem freePage_caches {p : ℕ} (h : (s.freePage f).Caches g p) : s.Caches g p := by
  obtain ⟨hswap, hidx⟩ := h
  refine ⟨?_, hidx⟩
  by_cases hgf : g = f
  · subst hgf; simp [Sys.freePage] at hswap
  · simpa [Sys.freePage, hgf] using hswap

theorem freePage_keeps (hswap : s.pageSwap f = false) (H' : ℕ → ℕ) :
    Keeps s (s.freePage f) R H' where
  toSameTables := ⟨rfl, rfl, rfl, rfl, rfl, fun _ _ _ hg => Or.inl (freePage_caches hg)⟩
  data _ _ := rfl
  slot o _ := congrFun (slot_congr (s := s) rfl rfl rfl rfl) o
  clean D hD g hg hdirty hDg := by
    have hgf : g ≠ f := by
      intro hgf
      subst hgf
      simp [Sys.freePage] at hg
    simp only [Sys.freePage, update_of_ne hgf] at hg hdirty
    exact hD g hg hdirty hDg

/-! ## A page leaves the cache -/

/-- The cache without the page `f`, and the count of its entry set to `n`. -/
def uncached (s : Sys) (f n : ℕ) : Sys :=
  { s with
    pageSwap := update s.pageSwap f false
    hashList := fun b => (s.hashList b).erase f
    memMap := update s.memMap (s.pageIndex f) n }

theorem uncached_caches (hc : s.CacheInv off) (hf : s.pageSwap f = true) (n p : ℕ) :
    (s.uncached f n).Caches g p ↔ s.Caches g p ∧ p ≠ s.pageIndex f := by
  have hu := hc.unique f g p
  simp only [Caches, uncached, update_apply] at hu ⊢
  by_cases hgf : g = f
  · subst hgf
    simp
    intro _ hp
    exact hp.symm
  · simp only [hgf, if_false]
    grind

/-- The counts after a page has left: its entry is unused, or has its holders. -/
theorem Counts.uncached (h : s.Counts R H) (hc : s.CacheInv off) (hf : s.pageSwap f = true)
    (hnew : (n = SWAP_UNUSED ∧ H (s.pageIndex f) = 0) ∨
      (n = H (s.pageIndex f) ∧ H (s.pageIndex f) ≠ 0)) : (s.uncached f n).Counts R H := by
  have hcount := h.memMap_cached (hc.index f hf) ⟨hf, rfl⟩
  refine ⟨h.ref, fun g hg => ?_, fun g hg => ?_, fun p hp => ?_, h.range, h.next⟩
  · obtain ⟨h0, hfree, hswap⟩ := h.table g hg
    refine ⟨h0, hfree, ?_⟩
    simp only [Sys.uncached, update_apply, hswap]
    split <;> rfl
  · obtain ⟨h0, hswap⟩ := h.free g hg
    refine ⟨h0, ?_⟩
    simp only [Sys.uncached, update_apply, hswap]
    split <;> rfl
  · have hold := h.entry p hp
    unfold EntryCount at hold ⊢
    simp only [uncached_caches hc hf]
    by_cases hpo : p = s.pageIndex f
    · subst hpo
      simp only [Sys.uncached, update_self]
      grind
    · simp only [Sys.uncached, update_of_ne hpo]
      grind

/-- What a page that leaves the cache leaves behind, if its entry has no holder or its slot is
clean. -/
theorem CacheInv.uncached_keeps (hc : s.CacheInv off) (hc' : (s.uncached f n).CacheInv none)
    (hf : s.pageSwap f = true)
    (hslot : H (s.pageIndex f) ≠ 0 → s.disk (s.pageIndex f) = s.data f) :
    Keeps s (s.uncached f n) R H where
  toSameTables := ⟨rfl, rfl, rfl, rfl, rfl,
    fun _ _ _ hg => Or.inl ((uncached_caches hc hf _ _).mp hg).1⟩
  data _ _ := rfl
  slot p hp := by
    by_cases hpo : p = s.pageIndex f
    · subst hpo
      rw [hc.slot_cached ⟨hf, rfl⟩, hc'.slot_disk fun g hg => ?_, ← hslot hp]
      · rfl
      · exact ((uncached_caches hc hf _ _).mp hg).2 rfl
    · refine hc.slot_eq hc' (fun g => ?_) (fun _ _ => rfl) rfl
      rw [uncached_caches hc hf]
      exact and_iff_left hpo
  clean D hD g hg hdirty hDg := by
    have hgf : g ≠ f := by
      intro hgf
      subst hgf
      simp [uncached] at hg
    simp only [uncached, update_of_ne hgf] at hg
    exact hD g hg hdirty hDg

/-- The count of an entry whose page leaves: it is unused, or has its holders. -/
def LeftCount (s : Sys) (H : ℕ → ℕ) (f n : ℕ) : Prop :=
  (n = SWAP_UNUSED ∧ H (s.pageIndex f) = 0) ∨ (n = H (s.pageIndex f) ∧ H (s.pageIndex f) ≠ 0)

/-- `swap_page_del`, and the count of the entry. -/
theorem Counts.swapPageDel_spec (h : s.Counts R H) (hc : s.CacheInv (some f))
    (hn : s.LeftCount H f n) (hrun : s.swapPageDel f = some s') :
    s' = { s.uncached f n with memMap := s.memMap } ∧ (s.uncached f n).SwapInv R H ∧
      ((H (s.pageIndex f) ≠ 0 → s.disk (s.pageIndex f) = s.data f) →
        Keeps s (s.uncached f n) R H) := by
  have hf : s.pageSwap f = true := by
    unfold swapPageDel at hrun
    split at hrun
    · rename_i hf; exact hf
    · cases hrun
  obtain ⟨hc', rfl⟩ := hc.swapPageDel_spec hrun
  have hc' : (s.uncached f n).CacheInv none := hc'.congr rfl rfl rfl rfl rfl rfl rfl
  exact ⟨rfl, ⟨hc', h.uncached hc hf hn⟩, hc.uncached_keeps hc' hf⟩

/-- `swap_free_page`, and the count of the entry. -/
theorem Counts.swapFreePage_spec (h : s.Counts R H) (hc : s.CacheInv (some f))
    (hn : s.LeftCount H f n) (hrun : s.swapFreePage f = some s') :
    s' = { (s.uncached f n).freePage f with memMap := s.memMap } ∧
      ((s.uncached f n).freePage f).SwapInv R H ∧
      ((H (s.pageIndex f) ≠ 0 → s.disk (s.pageIndex f) = s.data f) →
        Keeps s ((s.uncached f n).freePage f) R H) := by
  unfold swapFreePage at hrun
  split at hrun
  · rename_i hguard
    obtain ⟨hf, href⟩ := hguard
    have hR : R f = 0 := by
      have hcount := h.ref_cached hf
      omega
    have hout : (s.uncached f n).pageSwap f = false := by simp [Sys.uncached]
    obtain ⟨s₁, hdel, rfl⟩ := Option.map_eq_some_iff.mp hrun
    obtain ⟨rfl, hinv, hkeeps⟩ := h.swapPageDel_spec hc hn hdel
    refine ⟨rfl, hinv.freePage hout hR (h.not_table hf), fun hslot => ?_⟩
    exact (hkeeps hslot).trans (freePage_keeps hout H) (fun _ ho => ho) (Or.inr rfl)
  · cases hrun

/-- The lists are no part of what a call keeps. -/
theorem Keeps.of_lists {H' : ℕ → ℕ} {ac : ℕ → Bool} {al il : SwapList}
    (h : Keeps { s with pageActive := ac, activeList := al, inactiveList := il } s' R H') :
    Keeps s s' R H' where
  toSameTables := ⟨h.maxSwapOffset, h.pde, h.shmn, h.shmLen, h.pte, h.caches⟩
  data := h.data
  slot := h.slot
  clean := h.clean

/-! ## Allocating an entry -/

/-- The scan finds unused entries and entries without holders, and `next` stays in range. -/
theorem scanEntry_spec (stop : ℕ) : ∀ (fuel next zero : ℕ) {next' empty' zero' : ℕ},
    s.InRange next → (zero ≠ 0 → s.InRange zero ∧ s.memMap zero = 0) →
    s.scanEntry stop fuel next zero = some (next', empty', zero') →
    s.InRange next' ∧ (empty' ≠ 0 → s.InRange empty' ∧ s.memMap empty' = SWAP_UNUSED) ∧
      (zero' ≠ 0 → s.InRange zero' ∧ s.memMap zero' = 0)
  | 0, _, _, _, _, _, _, _, hrun => by simp [scanEntry] at hrun
  | fuel + 1, next, zero, next', empty', zero', hn, hz, hrun => by
    have hzero : (if s.memMap next = 0 ∧ zero = 0 then next else zero) ≠ 0 →
        s.InRange (if s.memMap next = 0 ∧ zero = 0 then next else zero) ∧
          s.memMap (if s.memMap next = 0 ∧ zero = 0 then next else zero) = 0 := by
      split
      · rename_i h0
        exact fun _ => ⟨hn, h0.1⟩
      · exact hz
    have hempty : (if s.memMap next = SWAP_UNUSED then next else 0) ≠ 0 →
        s.InRange (if s.memMap next = SWAP_UNUSED then next else 0) ∧
          s.memMap (if s.memMap next = SWAP_UNUSED then next else 0) = SWAP_UNUSED := by
      split
      · rename_i hu
        exact fun _ => ⟨hn, hu⟩
      · exact fun h0 => absurd rfl h0
    have hnext : s.InRange (if next + 1 = s.maxSwapOffset then 1 else next + 1) := by
      unfold InRange at hn ⊢
      split <;> omega
    simp only [scanEntry] at hrun
    generalize (if s.memMap next = SWAP_UNUSED then next else 0) = empty at hempty hrun
    generalize (if s.memMap next = 0 ∧ zero = 0 then next else zero) = zero at hzero hrun
    generalize (if next + 1 = s.maxSwapOffset then 1 else next + 1) = next at hnext hrun
    split at hrun
    · exact scanEntry_spec stop fuel _ _ hnext hzero hrun
    · simp only [Option.some.injEq, Prod.mk.injEq] at hrun
      obtain ⟨rfl, rfl, rfl⟩ := hrun
      exact ⟨hnext, hempty, hzero⟩

/-- Steps of the scan from `next` until it is back at `stop`. -/
def scanLeft (s : Sys) (stop next : ℕ) : ℕ :=
  if next < stop then stop - next else s.maxSwapOffset - 1 - next + stop

/-- The scan ends after one round. -/
theorem scanEntry_ends (stop : ℕ) (hstop : s.InRange stop) : ∀ (fuel next zero : ℕ),
    s.InRange next → s.scanLeft stop next ≤ fuel → 0 < fuel →
    ∃ r, s.scanEntry stop fuel next zero = some r
  | 0, _, _, _, _, hpos => by omega
  | fuel + 1, next, zero, hn, hleft, _ => by
    simp only [scanEntry]
    generalize (if s.memMap next = SWAP_UNUSED then next else 0) = empty
    by_cases hgo : empty = 0 ∧ (if next + 1 = s.maxSwapOffset then 1 else next + 1) ≠ stop
    · rw [if_pos hgo]
      unfold InRange at hn hstop
      unfold scanLeft at hleft
      have hback := hgo.2
      by_cases hwrap : next + 1 = s.maxSwapOffset
      · rw [if_pos hwrap] at hback ⊢
        refine scanEntry_ends stop hstop fuel 1 _ ⟨by omega, by omega⟩ ?_ ?_
        · unfold scanLeft
          rw [if_pos (by omega)]
          split at hleft <;> omega
        · split at hleft <;> omega
      · rw [if_neg hwrap] at hback ⊢
        refine scanEntry_ends stop hstop fuel (next + 1) _ ⟨by omega, by omega⟩ ?_ ?_
        · unfold scanLeft
          split at hleft <;> split <;> omega
        · split at hleft <;> omega
    · rw [if_neg hgo]
      exact ⟨_, rfl⟩

theorem SwapInv.stealEntry_spec (h : s.SwapInv R H) (ho : s.InRange o) (hzero : s.memMap o = 0)
    (hrun : s.stealEntry o = some s') :
    s'.SwapInv R H ∧ s'.memMap o = SWAP_UNUSED ∧ Keeps s s' R H ∧ s'.data = s.data ∧
      ∀ g, s'.pageSwap g = true → s.pageSwap g = true := by
  have hH : H o = 0 := by
    have hne : s.memMap o ≠ SWAP_UNUSED := by rw [hzero]; decide
    have hcount := (h.counts.entry_of_ne ho hne).1
    omega
  unfold stealEntry at hrun
  obtain ⟨f, hfind, hrun⟩ := Option.bind_eq_some_iff.mp hrun
  obtain ⟨s₁, hdel, hrun⟩ := Option.bind_eq_some_iff.mp hrun
  obtain ⟨s₂, hout, hrun⟩ := Option.bind_eq_some_iff.mp hrun
  cases hrun
  obtain ⟨-, rfl⟩ := h.cache.caches_of_find hfind
  obtain ⟨-, hc, al, il, rfl⟩ := h.cache.swapListDel_spec hdel
  have hcounts : Sys.Counts { s with activeList := al, inactiveList := il } R H :=
    ⟨h.counts.ref, h.counts.table, h.counts.free, h.counts.entry, h.counts.range, h.counts.next⟩
  have hleft : LeftCount { s with activeList := al, inactiveList := il } H f SWAP_UNUSED :=
    Or.inl ⟨rfl, hH⟩
  unfold stealPage at hout
  split at hout
  · obtain ⟨rfl, hinv, hkeeps⟩ := hcounts.swapFreePage_spec hc hleft hout
    refine ⟨hinv, ?_, (hkeeps fun hne => absurd hH hne).of_lists, rfl, fun g => ?_⟩
    · simp [Sys.setMemMap]
    · simp only [Sys.setMemMap, Sys.freePage, Sys.uncached, update_apply]
      grind
  · obtain ⟨rfl, hinv, hkeeps⟩ := hcounts.swapPageDel_spec hc hleft hout
    refine ⟨hinv, ?_, (hkeeps fun hne => absurd hH hne).of_lists, rfl, fun g => ?_⟩
    · simp [Sys.setMemMap]
    · simp only [Sys.setMemMap, Sys.uncached, update_apply]
      grind

theorem SwapInv.stealEntry_total (h : s.SwapInv R H) (ho : s.InRange o) (hzero : s.memMap o = 0) :
    ∃ s', s.stealEntry o = some s' := by
  have hne : s.memMap o ≠ SWAP_UNUSED := by rw [hzero]; decide
  obtain ⟨hcount, -, hcached⟩ := h.counts.entry_of_ne ho hne
  obtain ⟨f, hf⟩ := hcached (by omega)
  have hfind := h.cache.find_some.mpr hf
  unfold stealEntry stealPage swapFreePage swapPageDel swapListDel
  simp only [hfind, hf.1, Option.bind_eq_bind, Option.bind_some, if_true]
  by_cases href : s.pageRef f = 0
  · simp [href]
  · simp [href]

theorem SwapInv.scan_total (h : s.SwapInv R H) :
    ∃ r, s.scanEntry s.next s.maxSwapOffset s.next 0 = some r := by
  have hn := h.counts.next
  refine scanEntry_ends s.next hn s.maxSwapOffset s.next 0 hn ?_ (Nat.zero_lt_of_lt hn.2)
  unfold InRange at hn
  unfold scanLeft
  split <;> omega

/-- `next` moves. -/
theorem SwapInv.setNext (h : s.SwapInv R H) (hn : s.InRange n) :
    Sys.SwapInv { s with next := n } R H :=
  ⟨h.cache.congr rfl rfl rfl rfl rfl rfl rfl, h.counts.ref, h.counts.table, h.counts.free,
    h.counts.entry, h.counts.range, hn⟩

/-- **`try_alloc_swap_entry` always returns**, and it returns `0` or an unused entry, which no page
in the cache has. -/
theorem SwapInv.tryAllocSwapEntry_spec (h : s.SwapInv R H) :
    ∃ o s', s.tryAllocSwapEntry = some (o, s') ∧ s'.SwapInv R H ∧ Keeps s s' R H ∧
      s'.data = s.data ∧ (∀ g, s'.pageSwap g = true → s.pageSwap g = true) ∧
      (o ≠ 0 → s'.InRange o ∧ s'.memMap o = SWAP_UNUSED) := by
  obtain ⟨⟨next, empty, zero⟩, hscan⟩ := h.scan_total
  have hspec := scanEntry_spec s.next _ _ _ h.counts.next (fun h0 => absurd rfl h0) hscan
  obtain ⟨hnext, hempty, hzero⟩ := hspec
  have hinv := h.setNext hnext
  have hkeeps : Keeps s { s with next := next } R H :=
    ⟨⟨rfl, rfl, rfl, rfl, rfl, fun _ _ _ hf => Or.inl hf⟩, fun _ _ => rfl, fun _ _ => rfl, fun _ hD => hD⟩
  unfold tryAllocSwapEntry
  rw [hscan]
  simp only [Option.bind_eq_bind, Option.bind_some]
  by_cases he : empty = 0
  · by_cases hz : zero = 0
    · simp only [he, hz, ne_eq, not_true_eq_false, if_false]
      exact ⟨0, _, rfl, hinv, hkeeps, rfl, fun _ hg => hg, fun h0 => absurd rfl h0⟩
    · simp only [he, hz, ne_eq, not_true_eq_false, not_false_eq_true, if_false, if_true]
      obtain ⟨s', hsteal⟩ := hinv.stealEntry_total (hzero hz).1 (hzero hz).2
      obtain ⟨hinv', hunused, hkeeps', hdata, hswap⟩ :=
        hinv.stealEntry_spec (hzero hz).1 (hzero hz).2 hsteal
      rw [hsteal]
      refine ⟨zero, s', rfl, hinv', hkeeps.trans hkeeps' (fun _ ho => ho) (Or.inr hdata), hdata,
        hswap, fun _ => ⟨?_, hunused⟩⟩
      unfold InRange
      rw [hkeeps'.maxSwapOffset]
      exact (hzero hz).1
  · simp only [he, ne_eq, not_false_eq_true, if_true]
    exact ⟨empty, _, rfl, hinv, hkeeps, rfl, fun _ hg => hg, fun _ => hempty he⟩

/-! ## A page enters the cache -/

/-- The cache with the page `f` under the entry `o`, whose count is `n`. -/
def cached (s : Sys) (f o n : ℕ) : Sys := (s.setMemMap o n).hashAdd f o

theorem cached_caches (hf : s.pageSwap f = false) (p : ℕ) :
    (s.cached f o n).Caches g p ↔ s.Caches g p ∨ (g = f ∧ p = o) := by
  simp only [Caches, cached, hashAdd, setMemMap, setPageSwap, setIndex, update_apply]
  grind

/-- The counts after a page has entered; the number of holders of its entry is `n`. -/
theorem Counts.cached (h : s.Counts R H) (hf : s.pageSwap f = false) (hfree : s.free f = false)
    (htab : ¬ s.IsTable f) (hn : n = H o) (hlt : n < SWAP_UNUSED) :
    (s.cached f o n).Counts R H := by
  refine ⟨h.ref, fun g hg => ?_, fun g hg => ?_, fun p hp => ?_, h.range, h.next⟩
  · obtain ⟨h0, hfree', hswap⟩ := h.table g hg
    refine ⟨h0, hfree', ?_⟩
    have hgf : g ≠ f := fun hgf => htab (hgf ▸ hg)
    simpa [Sys.cached, hashAdd, Sys.setMemMap, setPageSwap, setIndex, hgf] using hswap
  · obtain ⟨h0, hswap⟩ := h.free g hg
    refine ⟨h0, ?_⟩
    have hgf : g ≠ f := by
      intro hgf
      subst hgf
      have hg' : s.free g = true := hg
      simp [hfree] at hg'
    simpa [Sys.cached, hashAdd, Sys.setMemMap, setPageSwap, setIndex, hgf] using hswap
  · have hold := h.entry p hp
    unfold EntryCount at hold ⊢
    simp only [cached_caches hf]
    by_cases hpo : p = o
    · subst hpo
      right
      refine ⟨?_, by omega, fun _ => ⟨f, Or.inr ⟨rfl, rfl⟩⟩⟩
      simp [Sys.cached, hashAdd, Sys.setMemMap, setPageSwap, setIndex, hn]
    · have hmap : (s.cached f o n).memMap p = s.memMap p := by
        simp [Sys.cached, hashAdd, Sys.setMemMap, setPageSwap, setIndex, hpo]
      rw [hmap]
      simpa [hpo] using hold

/-- What a page that enters the cache leaves alone, if its entry has no holder or the page is what
the slot has. -/
theorem CacheInv.cached_keeps (hc : s.CacheInv none) (hc' : (s.cached f o n).CacheInv (some f))
    (hf : s.pageSwap f = false) (hno : ∀ g, ¬ s.Caches g o) (hR : R f ≠ 0 → H o = 0)
    (hslot : H o ≠ 0 → s.disk o = s.data f)
    (hclean : s.pageDirty f = false → s.disk o = s.data f) : Keeps s (s.cached f o n) R H where
  toSameTables := by
    refine ⟨rfl, rfl, rfl, rfl, rfl, fun g p hRg hg => ?_⟩
    rcases (cached_caches hf p).mp hg with hg' | ⟨rfl, rfl⟩
    · exact Or.inl hg'
    · exact Or.inr (hR hRg)
  data _ _ := rfl
  slot p hp := by
    by_cases hpo : p = o
    · subst hpo
      rw [hc.slot_disk hno, hc'.slot_cached ((cached_caches hf p).mpr (Or.inr ⟨rfl, rfl⟩))]
      exact (hslot hp).symm
    · refine hc.slot_eq hc' (fun g => ?_) (fun _ _ => rfl) rfl
      rw [cached_caches hf]
      simp [hpo]
  clean D hD g hg hdirty hDg := by
    have hcaches : (s.cached f o n).Caches g ((s.cached f o n).pageIndex g) := ⟨hg, rfl⟩
    rw [cached_caches hf] at hcaches
    rcases hcaches with ⟨hold, hidx⟩ | ⟨hgf, hidx⟩
    · have hslot' := hD g hold hdirty hDg
      rw [hidx] at hslot'
      exact hslot'
    · rw [hidx]
      subst hgf
      exact hclean hdirty

/-- `SetPageDirty` and `ClearPageDirty`. -/
theorem SwapInv.setPageDirty (h : s.SwapInv R H) (f : ℕ) (b : Bool) :
    (s.setPageDirty f b).SwapInv R H :=
  ⟨h.cache.congr rfl rfl rfl rfl rfl rfl rfl, h.counts.ref, h.counts.table, h.counts.free,
    h.counts.entry, h.counts.range, h.counts.next⟩

theorem setPageDirty_keeps (f : ℕ) (H' : ℕ → ℕ) : Keeps s (s.setPageDirty f true) R H' where
  toSameTables := ⟨rfl, rfl, rfl, rfl, rfl, fun _ _ _ hf => Or.inl hf⟩
  data _ _ := rfl
  slot _ _ := rfl
  clean D hD g hg hdirty hDg := by
    by_cases hgf : g = f
    · subst hgf; simp [Sys.setPageDirty] at hdirty
    · simp only [Sys.setPageDirty, update_of_ne hgf] at hdirty
      exact hD g hg hdirty hDg

/-- **`swap_page_add` with a new entry**: without an entry nothing happens to the page; otherwise it
is in the cache, and still to be put on a list. -/
theorem SwapInv.swapPageAddNew_spec {ok : Bool} (h : s.SwapInv R H) (hR : R f ≠ 0)
    (hrun : s.swapPageAddNew f = some (ok, s')) :
    s'.Counts R H ∧ Keeps s s' R H ∧ s'.data = s.data ∧
      (ok = false → s'.CacheInv none) ∧
      (ok = true → s'.CacheInv (some f) ∧ s'.pageSwap f = true ∧ s'.pageDirty f = true) := by
  unfold swapPageAddNew at hrun
  split at hrun
  · cases hrun
  · rename_i hswap
    obtain ⟨o, s₁, halloc, hinv, hkeeps, hdata, hsub, hentry⟩ := h.tryAllocSwapEntry_spec
    rw [halloc] at hrun
    simp only [Option.bind_eq_bind, Option.bind_some] at hrun
    split at hrun
    · cases hrun
      exact ⟨hinv.counts, hkeeps, hdata, fun _ => hinv.cache, fun h0 => by cases h0⟩
    · rename_i ho
      obtain ⟨hrange, hunused⟩ := hentry ho
      rw [hunused] at hrun
      simp only [guard_true, Option.pure_def, Option.bind_some] at hrun
      cases hrun
      have hout : s₁.pageSwap f = false := by
        cases hf : s₁.pageSwap f with
        | false => rfl
        | true => exact absurd (hsub f hf) hswap
      have hfree : s₁.free f = false := by
        cases hf : s₁.free f with
        | false => rfl
        | true => exact absurd (hinv.counts.free f hf).1 hR
      have htab : ¬ s₁.IsTable f := fun htab => hR (hinv.counts.table f htab).1
      obtain ⟨hH, hno⟩ : H o = 0 ∧ ∀ g, ¬ s₁.Caches g o := by
        rcases hinv.counts.entry o hrange with ⟨-, hH, hno⟩ | ⟨hmap, hlt, -⟩
        · exact ⟨hH, hno⟩
        · omega
      have hinv₂ := hinv.setPageDirty f true
      have hc : ((s₁.setPageDirty f true).cached f o 0).CacheInv (some f) :=
        (hinv₂.cache.hashAdd (f := f) (o := o) hout hrange hno).congr rfl rfl rfl rfl rfl rfl rfl
      have hkeeps₂ : Keeps (s₁.setPageDirty f true) ((s₁.setPageDirty f true).cached f o 0) R H :=
        hinv₂.cache.cached_keeps hc hout hno (fun _ => hH) (fun hne => absurd hH hne)
          (fun hd => by simp [Sys.setPageDirty] at hd)
      refine ⟨hinv₂.counts.cached hout hfree htab hH.symm (by decide), ?_, hdata, ?_,
        fun _ => ⟨hc, ?_, ?_⟩⟩
      · exact hkeeps.trans ((setPageDirty_keeps f H).trans hkeeps₂ (fun _ ho => ho) (Or.inr rfl))
          (fun _ ho => ho) (Or.inr rfl)
      · exact fun h0 => by cases h0
      · simp [Sys.hashAdd, setPageSwap, setIndex]
      · simp [Sys.hashAdd, setPageSwap, setIndex, Sys.setPageDirty]

/-! ## Holders of an entry -/

/-- `mem_map` is no part of what a call keeps. -/
theorem setMemMap_keeps (o n : ℕ) (H' : ℕ → ℕ) : Keeps s (s.setMemMap o n) R H' :=
  ⟨⟨rfl, rfl, rfl, rfl, rfl, fun _ _ _ hf => Or.inl hf⟩, fun _ _ => rfl, fun _ _ => rfl, fun _ hD => hD⟩

theorem swapOffset_eq_some {p : ℕ} (h : s.swapOffset o = some p) : p = o ∧ s.InRange o := by
  unfold swapOffset at h
  split at h
  · rename_i hr
    cases h
    exact ⟨rfl, hr⟩
  · cases h

/-- `swap_duplicate` of an entry in use: it has one more holder. -/
theorem SwapInv.swapDuplicate_spec (h : s.SwapInv R H) (hrun : s.swapDuplicate o = some s') :
    s'.SwapInv R (update H o (H o + 1)) ∧ s' = s.setMemMap o (H o + 1) ∧ s.InRange o ∧
      s.memMap o = H o := by
  unfold swapDuplicate at hrun
  obtain ⟨p, hp, hrun⟩ := Option.bind_eq_some_iff.mp hrun
  obtain ⟨_, hguard, hrun⟩ := Option.bind_eq_some_iff.mp hrun
  cases hrun
  obtain ⟨rfl, hr⟩ := swapOffset_eq_some hp
  have hlt := of_guard hguard
  have hne : s.memMap p ≠ SWAP_UNUSED := by
    unfold MAX_SWAP_REF at hlt
    unfold SWAP_UNUSED
    omega
  obtain ⟨hcount, -, -⟩ := h.counts.entry_of_ne hr hne
  rw [hcount] at hlt ⊢
  refine ⟨⟨h.cache.congr rfl rfl rfl rfl rfl rfl rfl, h.counts.setMemMap hr (Or.inr ?_)⟩, rfl, hr,
    rfl⟩
  unfold MAX_SWAP_REF at hlt
  unfold SWAP_UNUSED
  omega

/-- `swap_remove_entry` when the last holder has gone. -/
theorem SwapInv.swapRemoveLast_spec (h : s.Counts R H) (hc : s.CacheInv none) (hr : s.InRange o)
    (hH : H o = 1) (hrun : (s.setMemMap o 0).swapRemoveLast o = some s') :
    s'.SwapInv R (update H o 0) ∧ Keeps s s' R (update H o 0) ∧
      s'.data = s.data ∧ ∀ g, s'.pageSwap g = true → s.pageSwap g = true := by
  have hc₁ : (s.setMemMap o 0).CacheInv none := hc.congr rfl rfl rfl rfl rfl rfl rfl
  have hkeeps₁ := setMemMap_keeps (s := s) (R := R) o 0 (update H o 0)
  unfold swapRemoveLast at hrun
  split at hrun
  · rename_i hfind
    cases hrun
    have hno := hc₁.find_none.mp hfind
    have hcounts := h.setMemMap (n := SWAP_UNUSED) hr (Or.inl ⟨rfl, rfl, hno⟩)
    have hmap : (s.setMemMap o 0).setMemMap o SWAP_UNUSED = s.setMemMap o SWAP_UNUSED := by
      simp [Sys.setMemMap]
    rw [hmap]
    exact ⟨⟨hc.congr rfl rfl rfl rfl rfl rfl rfl, hcounts⟩, setMemMap_keeps o _ _, rfl,
      fun _ hg => hg⟩
  · rename_i f hfind
    obtain ⟨hswap, hidx⟩ : s.Caches f o := hc₁.caches_of_find hfind
    have hcounts := h.setMemMap (n := 0) hr (Or.inr ⟨rfl, by decide, fun _ => ⟨f, hswap, hidx⟩⟩)
    have hinv : (s.setMemMap o 0).SwapInv R (update H o 0) := ⟨hc₁, hcounts⟩
    split at hrun
    · cases hrun
      exact ⟨hinv, hkeeps₁, rfl, fun _ hg => hg⟩
    · obtain ⟨s₁, hdel, hrun⟩ := Option.bind_eq_some_iff.mp hrun
      obtain ⟨s₂, hfree, hrun⟩ := Option.bind_eq_some_iff.mp hrun
      cases hrun
      obtain ⟨-, hc₂, al, il, rfl⟩ := hc₁.swapListDel_spec hdel
      have hcounts₂ : Sys.Counts { s.setMemMap o 0 with activeList := al, inactiveList := il } R
          (update H o 0) :=
        ⟨hcounts.ref, hcounts.table, hcounts.free, hcounts.entry, hcounts.range, hcounts.next⟩
      have h0 : update H o 0 (s.pageIndex f) = 0 := by
        rw [hidx, update_self]
      have hleft : LeftCount { s.setMemMap o 0 with activeList := al, inactiveList := il }
          (update H o 0) f SWAP_UNUSED := Or.inl ⟨rfl, h0⟩
      obtain ⟨rfl, hinv₂, hkeeps₂⟩ := hcounts₂.swapFreePage_spec hc₂ hleft hfree
      have hstate := hkeeps₁.trans (hkeeps₂ fun hne => absurd h0 hne).of_lists (fun _ ho => ho)
        (Or.inr rfl)
      subst hidx
      refine ⟨hinv₂, hstate, rfl, fun g => ?_⟩
      simp only [Sys.setMemMap, Sys.freePage, Sys.uncached, update_apply]
      grind

/-- **`swap_remove_entry`**: a holder gives up the entry; a page that nobody has any more is
freed. -/
theorem SwapInv.swapRemoveEntry_spec (h : s.SwapInv R H) (hH : H o ≠ 0)
    (hrun : s.swapRemoveEntry o = some s') :
    s'.SwapInv R (update H o (H o - 1)) ∧
      Keeps s s' R (update H o (H o - 1)) ∧ s'.data = s.data ∧
      ∀ g, s'.pageSwap g = true → s.pageSwap g = true := by
  obtain ⟨hcount, hlt⟩ := h.counts.memMap_held hH
  unfold swapRemoveEntry at hrun
  obtain ⟨p, hp, hrest⟩ := Option.bind_eq_some_iff.mp hrun
  clear hrun
  obtain ⟨_, _, hrun⟩ := Option.bind_eq_some_iff.mp hrest
  clear hrest
  obtain ⟨rfl, hr⟩ := swapOffset_eq_some hp
  simp only [hcount] at hrun
  by_cases hone : H p = 1
  · have hzero : (s.setMemMap p (H p - 1)).memMap p = 0 := by simp [Sys.setMemMap, hone]
    rw [if_pos hzero, hone] at hrun
    rw [hone]
    exact SwapInv.swapRemoveLast_spec h.counts h.cache hr hone hrun
  · have hpos : (s.setMemMap p (H p - 1)).memMap p ≠ 0 := by
      simp only [Sys.setMemMap, update_self]
      omega
    rw [if_neg hpos] at hrun
    cases hrun
    refine ⟨⟨h.cache.congr rfl rfl rfl rfl rfl rfl rfl, h.counts.setMemMap hr (Or.inr ?_)⟩,
      setMemMap_keeps p _ _, rfl, fun _ hg => hg⟩
    exact ⟨rfl, by omega, fun h0 => by omega⟩

/-! ## Frames and swapping in -/

/-- A frame that a function has allocated and not yet mapped. -/
structure Fresh (s : Sys) (R : ℕ → ℕ) (f : ℕ) : Prop where
  unmapped : R f = 0
  inUse : s.free f = false
  uncached : s.pageSwap f = false
  noTable : ¬ s.IsTable f

/-- No frame in use has become free. -/
def NoneFreed (s s' : Sys) : Prop := ∀ g, s.free g = false → s'.free g = false

/-- The contents of a frame outside the cache are no part of any slot. -/
theorem CacheInv.setData_slot (hc : s.CacheInv off) (hf : s.pageSwap f = false) (d : Data) :
    Sys.slot { s with data := update s.data f d } = s.slot := by
  funext p
  refine hc.slot_eq (hc.congr rfl rfl rfl rfl rfl rfl rfl) (fun g => Iff.rfl) (fun g hg => ?_) rfl
  have hgf : g ≠ f := by
    intro hgf
    subst hgf
    have hswap := hg.1
    simp [hf] at hswap
  simp [hgf]

theorem Clean.setData {D : ℕ → Prop} (h : s.Clean D) (hf : s.pageSwap f = false) (d : Data) :
    Clean { s with data := update s.data f d } D := by
  intro g hg hdirty hDg
  have hgf : g ≠ f := by
    intro hgf
    subst hgf
    have hswap : s.pageSwap g = true := hg
    simp [hf] at hswap
  simpa [hgf] using h g hg hdirty hDg

theorem SwapInv.setData (h : s.SwapInv R H) (d : ℕ → Data) : Sys.SwapInv { s with data := d } R H :=
  ⟨h.cache.congr rfl rfl rfl rfl rfl rfl rfl, h.counts.ref, h.counts.table, h.counts.free,
    h.counts.entry, h.counts.range, h.counts.next⟩

/-- **`alloc_page`**: a frame that was free, or nothing. -/
theorem SwapInv.allocPage_spec {site : AllocSite} {r : Option ℕ} (h : s.SwapInv R H)
    (hrun : s.allocPage env site = (r, s')) :
    s'.SwapInv R H ∧ Keeps s s' R H ∧ NoneFreed s s' ∧
      (∃ free data, s' = { s with free := free, data := data }) ∧
      ∀ f, r = some f → s'.Fresh R f ∧ s.free f = true := by
  unfold allocPage at hrun
  split at hrun
  · cases hrun
    exact ⟨h, .refl s R H, fun _ hg => hg, ⟨_, _, rfl⟩, fun f hf => by cases hf⟩
  · rename_i f hpick
    cases hrun
    have hfree : s.free f = true := (Option.filter_eq_some_iff.mp hpick).2
    obtain ⟨hR, hswap⟩ := h.counts.free f hfree
    have htab : ¬ s.IsTable f := fun htab => by
      have hused := (h.counts.table f htab).2.1
      simp [hfree] at hused
    have hinv := h.setData (update s.data f (env.junk f))
    refine ⟨⟨hinv.cache.congr rfl rfl rfl rfl rfl rfl rfl, h.counts.ref, fun g hg => ?_,
      fun g hg => ?_, h.counts.entry, h.counts.range, h.counts.next⟩,
      ⟨⟨rfl, rfl, rfl, rfl, rfl, fun _ _ _ hf => Or.inl hf⟩, fun g hg => ?_, fun o _ => ?_, fun D hD => ?_⟩,
        fun g hg => ?_,
      ⟨_, _, rfl⟩, fun g hg => ?_⟩
    · obtain ⟨h0, hused, hout⟩ := h.counts.table g hg
      exact ⟨h0, by simp [update_apply, hused], hout⟩
    · have hg' : s.free g = true := by
        by_cases hgf : g = f
        · subst hgf; simp at hg
        · simpa [hgf] using hg
      exact h.counts.free g hg'
    · have hgf : g ≠ f := by
        intro hgf
        subst hgf
        simp [hfree] at hg
      simp [hgf]
    · exact congrFun (h.cache.setData_slot hswap _) o
    · exact hD.setData hswap _
    · simp [update_apply, hg]
    · cases hg
      exact ⟨⟨hR, by simp, hswap, htab⟩, hfree⟩

/-- Contents are written to a frame that was free before the call. -/
theorem Keeps.setData {s₁ : Sys} (hkeeps : Keeps s s₁ R H) (hc : s₁.CacheInv off)
    (hwas : s.free f = true) (hf : s₁.pageSwap f = false) (d : Data) :
    Keeps s { s₁ with data := update s₁.data f d } R H where
  toSameTables := ⟨hkeeps.maxSwapOffset, hkeeps.pde, hkeeps.shmn, hkeeps.shmLen, hkeeps.pte,
    hkeeps.caches⟩
  data g hg := by
    have hgf : g ≠ f := by
      intro hgf
      subst hgf
      simp [hwas] at hg
    simpa [hgf] using hkeeps.data g hg
  slot o ho := by rw [hc.setData_slot hf, hkeeps.slot o ho]
  clean D hD := (hkeeps.clean D hD).setData hf d

theorem setMemMap_self (h : s.memMap o = n) : s.setMemMap o n = s := by
  unfold Sys.setMemMap
  rw [← h, update_eq_self]

/-- A frame with the contents of the slot enters the cache and the active list. -/
theorem SwapInv.enter_spec {s₁ : Sys} (h : s.SwapInv R H) (hfresh : s.Fresh R f) (hr : s.InRange o)
    (hcount : s.memMap o = H o) (hlt : H o < SWAP_UNUSED) (hno : ∀ g, ¬ s.Caches g o)
    (hread : s.disk o = s.data f) (hadd : s.swapPageAdd f o = some s₁)
    (hlist : s₁.swapActiveListAdd f = some s') :
    s'.SwapInv R H ∧ Keeps s s' R H ∧ s'.data = s.data ∧ s'.free = s.free ∧
      ∀ g p, s'.Caches g p ↔ s.Caches g p ∨ (g = f ∧ p = o) := by
  have hs₁ : s₁ = s.cached f o (H o) := by
    unfold swapPageAdd at hadd
    simp only [hfresh.uncached] at hadd
    cases hadd
    unfold cached
    rw [setMemMap_self hcount]
  have hc : s₁.CacheInv (some f) := by
    rw [hs₁]
    unfold cached
    rw [setMemMap_self hcount]
    exact h.cache.hashAdd hfresh.uncached hr hno
  have hcounts : s₁.Counts R H := by
    rw [hs₁]
    exact h.counts.cached hfresh.uncached hfresh.inUse hfresh.noTable rfl hlt
  have hkeeps : Keeps s s₁ R H := by
    rw [hs₁] at hc ⊢
    exact h.cache.cached_keeps hc hfresh.uncached hno (fun hne => absurd hfresh.unmapped hne)
      (fun _ => hread) (fun _ => hread)
  have hcaches : ∀ g p, s₁.Caches g p ↔ s.Caches g p ∨ (g = f ∧ p = o) := by
    rw [hs₁]
    exact fun g p => cached_caches hfresh.uncached p
  have hsame : s₁.data = s.data ∧ s₁.free = s.free := by
    rw [hs₁]
    exact ⟨rfl, rfl⟩
  obtain ⟨hc', ac, al, rfl⟩ := hc.swapActiveListAdd_spec hlist
  exact ⟨⟨hc', hcounts.ref, hcounts.table, hcounts.free, hcounts.entry, hcounts.range,
    hcounts.next⟩, ⟨⟨hkeeps.maxSwapOffset, hkeeps.pde, hkeeps.shmn, hkeeps.shmLen, hkeeps.pte,
    hkeeps.caches⟩, hkeeps.data, hkeeps.slot, hkeeps.clean⟩, hsame.1, hsame.2, hcaches⟩

/-- The cache has what it had, and perhaps pages in frames that were free. -/
def CacheGrows (s s' : Sys) : Prop :=
  (∀ g p, s.Caches g p → s'.Caches g p) ∧ ∀ g p, s'.Caches g p → s.Caches g p ∨ s.free g = true

/-- `swap_in_page` reads the slot into a new frame. -/
theorem SwapInv.swapRead_spec {s₁ : Sys} {ret : Int} (h : s₁.SwapInv R H) (hkeeps : Keeps s s₁ R H)
    (hnone : NoneFreed s s₁) (hsame : ∀ g p, s₁.Caches g p ↔ s.Caches g p) (hwas : s.free f = true)
    (hfresh : s₁.Fresh R f) (hr : s₁.InRange o)
    (hcount : s₁.memMap o = H o) (hlt : H o < SWAP_UNUSED) (hno : ∀ g, ¬ s₁.Caches g o)
    (hrun : s₁.swapRead env o f = some (ret, g, s')) :
    s'.SwapInv R H ∧ Keeps s s' R H ∧ NoneFreed s s' ∧ CacheGrows s s' ∧
      (ret = 0 → s'.Caches g o) := by
  unfold swapRead at hrun
  split at hrun
  · obtain ⟨s₂, hadd, hrest⟩ := Option.bind_eq_some_iff.mp hrun
    obtain ⟨s₃, hlist, hend⟩ := Option.bind_eq_some_iff.mp hrest
    cases hend
    obtain ⟨hinv, hkeeps', hdata, hfree, hcaches⟩ :=
      (h.setData (update s₁.data f (s₁.disk o))).enter_spec
        ⟨hfresh.unmapped, hfresh.inUse, hfresh.uncached, hfresh.noTable⟩ hr hcount hlt hno
        (by simp) hadd hlist
    refine ⟨hinv, ?_, fun k hk => ?_, ⟨fun k p hk => ?_, fun k p hk => ?_⟩, fun _ => ?_⟩
    · exact (hkeeps.setData h.cache hwas hfresh.uncached (s₁.disk o)).trans hkeeps'
        (fun _ ho => ho) (Or.inr hdata)
    · rw [hfree]
      exact hnone k hk
    · exact (hcaches k p).mpr (Or.inl ((hsame k p).mpr hk))
    · rcases (hcaches k p).mp hk with hold | ⟨rfl, -⟩
      · exact Or.inl ((hsame k p).mp hold)
      · exact Or.inr hwas
    · exact (hcaches _ _).mpr (Or.inr ⟨rfl, rfl⟩)
  · cases hrun
    refine ⟨h.freePage hfresh.uncached hfresh.unmapped hfresh.noTable,
      hkeeps.trans (freePage_keeps hfresh.uncached H) (fun _ ho => ho) (Or.inr rfl),
      fun k hk => ?_, ⟨fun k p hk => ?_, fun k p hk => ?_⟩, fun h0 => by cases h0⟩
    · have hkf : k ≠ f := by
        intro hkf
        subst hkf
        simp [hwas] at hk
      simpa [Sys.freePage, hkf] using hnone k hk
    · have hold := (hsame k p).mpr hk
      have hkf : k ≠ f := by
        intro hkf
        subst hkf
        have hswap := hold.1
        simp [hfresh.uncached] at hswap
      exact ⟨by simpa [Sys.freePage, hkf] using hold.1, hold.2⟩
    · exact Or.inl ((hsame k p).mp (freePage_caches hk))

/-- **`swap_in_page`** of an entry in use: with return value zero the page of the entry is in the
cache. -/
theorem SwapInv.swapInPage_spec {ret : Int} (h : s.SwapInv R H) (hused : s.memMap o ≠ SWAP_UNUSED)
    (hrun : s.swapInPage env o = some (ret, f, s')) :
    s'.SwapInv R H ∧ Keeps s s' R H ∧ NoneFreed s s' ∧ CacheGrows s s' ∧
      (ret = 0 → s'.Caches f o) := by
  unfold swapInPage at hrun
  obtain ⟨p, hp, hrest⟩ := Option.bind_eq_some_iff.mp hrun
  clear hrun
  obtain ⟨rfl, hr⟩ := swapOffset_eq_some hp
  obtain ⟨hcount, hlt, -⟩ := h.counts.entry_of_ne hr hused
  split at hrest
  · rename_i g hfind
    cases hrest
    exact ⟨h, .refl s R H, fun _ hg => hg, ⟨fun _ _ hg => hg, fun _ _ hg => Or.inl hg⟩,
      fun _ => h.cache.caches_of_find hfind⟩
  · rename_i hfind
    have hno := h.cache.find_none.mp hfind
    split at hrest
    · rename_i s₁ halloc
      cases hrest
      obtain ⟨hinv, hkeeps, hnone, ⟨free, data, rfl⟩, -⟩ := h.allocPage_spec halloc
      exact ⟨hinv, hkeeps, hnone, ⟨fun _ _ hg => hg, fun _ _ hg => Or.inl hg⟩,
        fun h0 => by cases h0⟩
    · rename_i g s₁ halloc
      obtain ⟨hinv, hkeeps, hnone, ⟨free, data, rfl⟩, hfresh⟩ := h.allocPage_spec halloc
      obtain ⟨hfresh, hwas⟩ := hfresh g rfl
      exact hinv.swapRead_spec hkeeps hnone (fun _ _ => Iff.rfl) hwas hfresh hr hcount hlt hno
        hrest

/-! ## Laundering -/

/-- What `page_launder` guarantees: nothing is lost, provided that clean pages are clean. -/
structure Launders (s s' : Sys) (R H : ℕ → ℕ) : Prop where
  inv : s'.SwapInv R H
  tables : SameTables s s' R H
  data : s'.data = s.data
  keeps : ∀ D : ℕ → Prop, (∀ g, R g = 0 → ¬ D g) → s.Clean D → Keeps s s' R H

theorem Launders.of_keeps (h : s'.SwapInv R H) (hkeeps : Keeps s s' R H) (hdata : s'.data = s.data) :
    Launders s s' R H :=
  ⟨h, hkeeps.toSameTables, hdata, fun _ _ _ => hkeeps⟩

theorem Launders.trans {s'' : Sys} (h : Launders s s' R H) (h' : Launders s' s'' R H) :
    Launders s s'' R H where
  inv := h'.inv
  tables := h.tables.trans h'.tables fun _ ho => ho
  data := h'.data.trans h.data
  keeps D hD hclean := by
    have hkeeps := h.keeps D hD hclean
    exact hkeeps.trans (h'.keeps D hD (hkeeps.clean D hclean)) (fun _ ho => ho) (Or.inr h'.data)

/-- `Launders` does not look at the lists. -/
theorem Launders.of_lists {ac : ℕ → Bool} {al il : SwapList}
    (h : Launders { s with pageActive := ac, activeList := al, inactiveList := il } s' R H) :
    Launders s s' R H where
  inv := h.inv
  tables := ⟨h.tables.1, h.tables.2, h.tables.3, h.tables.4, h.tables.5, h.tables.6⟩
  data := h.data
  keeps D hD hclean := (h.keeps D hD hclean).of_lists

/-- The counts do not look at the lists. -/
theorem Counts.lists (h : s.Counts R H) (ac : ℕ → Bool) (al il : SwapList) :
    Sys.Counts { s with pageActive := ac, activeList := al, inactiveList := il } R H :=
  ⟨h.ref, h.table, h.free, h.entry, h.range, h.next⟩

/-- The slot of a cached page is written, or spoilt; the page is clean only if it was written. -/
theorem CacheInv.write_keeps (hc : s.CacheInv off) (hf : s.Caches f o) (d : Data) (b : Bool)
    (hb : b = false → d = s.data f) :
    Keeps s { s with
      disk := update s.disk o d
      pageDirty := update s.pageDirty f b } R H where
  toSameTables := ⟨rfl, rfl, rfl, rfl, rfl, fun _ _ _ hf => Or.inl hf⟩
  data _ _ := rfl
  slot p _ := by
    have hc' : CacheInv { s with
        disk := update s.disk o d
        pageDirty := update s.pageDirty f b } off := hc.congr rfl rfl rfl rfl rfl rfl rfl
    by_cases hpo : p = o
    · subst hpo
      rw [hc.slot_cached hf, hc'.slot_cached (f := f) hf]
    · exact hc.slot_eq hc' (fun _ => Iff.rfl) (fun _ _ => rfl) (update_of_ne hpo _ _)
  clean D hD g hg hdirty hDg := by
    by_cases hgf : g = f
    · subst hgf
      simp only [update_self] at hdirty
      simp only [hf.2, update_self, hb hdirty]
    · have hidx : s.pageIndex g ≠ o := fun hidx => hgf (hc.unique g f o ⟨hg, hidx⟩ hf)
      simp only [update_of_ne hgf] at hdirty
      simp only [update_of_ne hidx]
      exact hD g hg hdirty hDg

theorem setMemMap_swapFreePage (o n : ℕ) :
    (s.setMemMap o n).swapFreePage f = (s.swapFreePage f).map fun s => s.setMemMap o n := by
  unfold swapFreePage swapPageDel
  split <;> rename_i h
  · have h' : s.pageSwap f = true ∧ s.pageRef f = 0 := h
    simp only [h'.1, h'.2, Sys.setMemMap, setPageSwap, Sys.freePage, and_self, if_true,
      Option.map_some]
  · have h' : ¬ (s.pageSwap f = true ∧ s.pageRef f = 0) := h
    simp only [h', if_false, Option.map_none]

/-- The page goes, and its entry becomes unused. -/
theorem Counts.launder_unused (h : s.Counts R H) (hc : s.CacheInv (some f))
    (hzero : H (s.pageIndex f) = 0)
    (hrun : (s.setMemMap (s.pageIndex f) SWAP_UNUSED).swapFreePage f = some s') :
    Launders s s' R H := by
  rw [setMemMap_swapFreePage] at hrun
  obtain ⟨s₁, hfree, rfl⟩ := Option.map_eq_some_iff.mp hrun
  obtain ⟨rfl, hinv, hkeeps⟩ := h.swapFreePage_spec hc (Or.inl ⟨rfl, hzero⟩) hfree
  exact .of_keeps hinv (hkeeps fun hne => absurd hzero hne) rfl

/-- The page goes, and its contents are in its slot. -/
theorem Counts.launder_clean (h : s.Counts R H) (hc : s.CacheInv (some f)) (hf : s.pageSwap f = true)
    (hheld : H (s.pageIndex f) ≠ 0) (hdirty : s.pageDirty f = false)
    (hrun : s.swapFreePage f = some s') : Launders s s' R H := by
  have hR : R f = 0 := by
    unfold swapFreePage at hrun
    split at hrun
    · rename_i hguard
      have href := h.ref_cached hf
      omega
    · cases hrun
  obtain ⟨hcount, -⟩ := h.memMap_held hheld
  obtain ⟨hs', hinv, hkeeps⟩ := h.swapFreePage_spec hc (Or.inr ⟨rfl, hheld⟩) hrun
  have heq : s' = (s.uncached f (H (s.pageIndex f))).freePage f := by
    rw [hs', ← hcount]
    simp [Sys.uncached, Sys.freePage]
  rw [heq]
  refine ⟨hinv, ⟨rfl, rfl, rfl, rfl, rfl, fun g p _ hg => ?_⟩, rfl, fun D hD hclean => ?_⟩
  · exact Or.inl ((uncached_caches hc hf _ _).mp (freePage_caches hg)).1
  · exact hkeeps fun _ => hclean f hf hdirty (hD f hR)

theorem launderIo_spec (hrun : s.launderIo env o f = some s') :
    ∃ d b, s' = { s with
        disk := update s.disk o d
        pageDirty := update s.pageDirty f b } ∧ (b = false → d = s.data f) := by
  unfold launderIo at hrun
  obtain ⟨s₁, hdup, hrest⟩ := Option.bind_eq_some_iff.mp hrun
  unfold swapDuplicate at hdup
  obtain ⟨p, hp, hdup'⟩ := Option.bind_eq_some_iff.mp hdup
  obtain ⟨_, _, hdup''⟩ := Option.bind_eq_some_iff.mp hdup'
  cases hdup''
  obtain ⟨rfl, -⟩ := swapOffset_eq_some hp
  unfold swapfsWrite at hrest
  cases hw : env.write f with
  | none =>
    rw [hw] at hrest
    cases hrest
    refine ⟨s.data f, false, ?_, fun _ => rfl⟩
    simp [Sys.setPageDirty, Sys.setMemMap]
  | some junk =>
    rw [hw] at hrest
    cases hrest
    refine ⟨junk, true, ?_, fun h0 => by cases h0⟩
    simp [Sys.setPageDirty, Sys.setMemMap]

theorem tryFreeSwapEntry_spec {unused : Bool} (hrun : s.tryFreeSwapEntry o = some (unused, s')) :
    s.InRange o ∧ ((s.memMap o = 0 ∧ unused = true ∧ s' = s.setMemMap o SWAP_UNUSED) ∨
      (s.memMap o ≠ 0 ∧ unused = false ∧ s' = s)) := by
  unfold tryFreeSwapEntry at hrun
  obtain ⟨p, hp, hrest⟩ := Option.bind_eq_some_iff.mp hrun
  obtain ⟨rfl, hr⟩ := swapOffset_eq_some hp
  refine ⟨hr, ?_⟩
  split at hrest <;> rename_i hmap <;> cases hrest
  · exact Or.inl ⟨hmap, rfl, rfl⟩
  · exact Or.inr ⟨hmap, rfl, rfl⟩

/-- A dirty page without mappings is written: it stays, dirty, or it can go. -/
theorem Counts.launderDirty_spec {done : Bool} (h : s.Counts R H) (hc : s.CacheInv (some f))
    (hf : s.pageSwap f = true) (hR : R f = 0) (hheld : H (s.pageIndex f) ≠ 0)
    (hrun : s.launderDirty env (s.pageIndex f) f = some (done, s')) :
    (done = false ∧ Launders s s' R H) ∨
      (done = true ∧ s'.Counts R H ∧ s'.CacheInv (some f) ∧ Keeps s s' R H ∧ s'.data = s.data ∧
        s'.pageSwap f = true ∧ s'.pageIndex f = s.pageIndex f ∧ s'.pageDirty f = false) := by
  unfold launderDirty at hrun
  obtain ⟨s₁, hio, hrest⟩ := Option.bind_eq_some_iff.mp hrun
  obtain ⟨d, b, rfl, hb⟩ := launderIo_spec hio
  have hkeeps := hc.write_keeps (R := R) (H := H) ⟨hf, rfl⟩ d b hb
  have href := h.ref_cached hf
  have hcounts : Sys.Counts { s with
      disk := update s.disk (s.pageIndex f) d
      pageDirty := update s.pageDirty f b } R H :=
    ⟨h.ref, h.table, h.free, h.entry, h.range, h.next⟩
  have hc₁ : Sys.CacheInv { s with
      disk := update s.disk (s.pageIndex f) d
      pageDirty := update s.pageDirty f b } (some f) :=
    hc.congr rfl rfl rfl rfl rfl rfl rfl
  rw [if_neg (by simp [href, hR])] at hrest
  split at hrest
  · obtain ⟨s₂, hlist, hend⟩ := Option.map_eq_some_iff.mp hrest
    cases hend
    obtain ⟨hc₂, ac, il, rfl⟩ := hc₁.swapInactiveListAdd_spec hlist
    refine Or.inl ⟨rfl, .of_keeps ⟨hc₂, hcounts.lists _ _ _⟩ ?_ rfl⟩
    exact ⟨⟨rfl, rfl, rfl, rfl, rfl, fun _ _ _ hf => Or.inl hf⟩, hkeeps.data, hkeeps.slot, hkeeps.clean⟩
  · rename_i hdirty
    obtain ⟨⟨u, s₂⟩, hfree, hend⟩ := Option.map_eq_some_iff.mp hrest
    cases hend
    obtain ⟨hr, ⟨hzero, -, -⟩ | ⟨-, -, rfl⟩⟩ := tryFreeSwapEntry_spec hfree
    · have hcount := (hcounts.memMap_held hheld).1
      omega
    · exact Or.inr ⟨rfl, hcounts, hc₁, hkeeps, rfl, hf, rfl, by simpa using hdirty⟩

/-- `page_launder` for a page without mappings. -/
theorem Counts.launderUnmapped_spec (h : s.Counts R H) (hc : s.CacheInv (some f))
    (hf : s.pageSwap f = true) (hR : R f = 0) (hrun : s.launderUnmapped env f = some s') :
    Launders s s' R H := by
  have hcount := (h.memMap_cached (hc.index f hf) ⟨hf, rfl⟩).1
  unfold launderUnmapped launderWrite at hrun
  obtain ⟨⟨done, s₁⟩, hwrite, hrest⟩ := Option.bind_eq_some_iff.mp hrun
  obtain ⟨⟨unused, s₂⟩, hfree, hwrite'⟩ := Option.bind_eq_some_iff.mp hwrite
  obtain ⟨-, ⟨hzero, rfl, rfl⟩ | ⟨hne, rfl, rfl⟩⟩ := tryFreeSwapEntry_spec hfree
  · simp only [not_true_eq_false, false_and, if_false] at hwrite'
    cases hwrite'
    exact h.launder_unused hc (by omega) hrest
  · have hheld : H (s₂.pageIndex f) ≠ 0 := by omega
    dsimp only at hwrite'
    split at hwrite'
    · rcases h.launderDirty_spec hc hf hR hheld hwrite' with ⟨rfl, hl⟩ |
        ⟨rfl, hcounts, hc₁, hkeeps, hdata, hf₁, hidx, hdirty⟩
      · cases hrest
        exact hl
      · have hl := hcounts.launder_clean hc₁ hf₁ (hidx ▸ hheld) hdirty hrest
        refine ⟨hl.inv, hkeeps.toSameTables.trans hl.tables (fun _ ho => ho), hl.data.trans hdata,
          fun D hD hclean => ?_⟩
        exact hkeeps.trans (hl.keeps D hD (hkeeps.clean D hclean)) (fun _ ho => ho)
          (Or.inr hl.data)
    · rename_i hdirty
      cases hwrite'
      have hclean : s₁.pageDirty f = false := by simpa using hdirty
      exact h.launder_clean hc hf hheld hclean hrest

/-- Body of the loop of `page_launder`. -/
theorem SwapInv.launderPage_spec (h : s.SwapInv R H) (hrun : s.launderPage env f = some s') :
    Launders s s' R H := by
  unfold launderPage at hrun
  split at hrun
  · obtain ⟨s₁, hdel, hrest⟩ := Option.bind_eq_some_iff.mp hrun
    obtain ⟨hf, hc, al, il, rfl⟩ := h.cache.swapListDel_spec hdel
    have hcounts := h.counts.lists s.pageActive al il
    have href := h.counts.ref_cached hf
    split at hrest
    · obtain ⟨hc', ac, al', rfl⟩ := hc.swapActiveListAdd_spec hrest
      exact .of_keeps ⟨hc', hcounts.lists _ _ _⟩
        ⟨⟨rfl, rfl, rfl, rfl, rfl, fun _ _ _ hf => Or.inl hf⟩, fun _ _ => rfl, fun _ _ => rfl, fun _ hD => hD⟩ rfl
    · rename_i hzero
      have hR : R f = 0 := by
        have hzero' : s.pageRef f = 0 := by simpa using hzero
        omega
      exact (hcounts.launderUnmapped_spec hc hf hR hrest).of_lists
  · cases hrun

theorem launderLoop_spec : ∀ (maxscan : ℕ) (le : Option ℕ) (s : Sys) {s' : Sys}, s.SwapInv R H →
    launderLoop env maxscan le s = some s' → Launders s s' R H
  | 0, le, s, s', h, hrun => by
    cases le <;> cases hrun <;> exact .of_keeps h (.refl s R H) rfl
  | maxscan + 1, none, s, s', h, hrun => by
    cases hrun
    exact .of_keeps h (.refl s R H) rfl
  | maxscan + 1, some f, s, s', h, hrun => by
    unfold launderLoop at hrun
    obtain ⟨s₁, hpage, hrest⟩ := Option.bind_eq_some_iff.mp hrun
    have hl := h.launderPage_spec hpage
    exact hl.trans (launderLoop_spec maxscan _ s₁ hl.inv hrest)

/-- **`page_launder` keeps the counts, and loses no contents.** -/
theorem SwapInv.pageLaunder_spec (h : s.SwapInv R H) (hrun : s.pageLaunder env = some s') :
    Launders s s' R H :=
  launderLoop_spec _ _ s h hrun

/-! ## Refilling the inactive list -/

theorem SwapInv.refillPage_spec (h : s.SwapInv R H) (hrun : s.refillPage f = some s') :
    s'.SwapInv R H ∧ ∃ ac al il, s' = { s with
      pageActive := ac, activeList := al, inactiveList := il } := by
  unfold refillPage at hrun
  split at hrun
  · split at hrun
    · obtain ⟨s₁, hdel, hadd⟩ := Option.bind_eq_some_iff.mp hrun
      obtain ⟨-, hc, al, il, rfl⟩ := h.cache.swapListDel_spec hdel
      obtain ⟨hc', ac, il', rfl⟩ := hc.swapInactiveListAdd_spec hadd
      exact ⟨⟨hc', h.counts.lists _ _ _⟩, _, _, _, rfl⟩
    · cases hrun
      exact ⟨h, _, _, _, rfl⟩
  · cases hrun

theorem refillLoop_spec : ∀ (maxscan : ℕ) (le : Option ℕ) (s : Sys) {s' : Sys}, s.SwapInv R H →
    refillLoop maxscan le s = some s' →
    s'.SwapInv R H ∧ ∃ ac al il, s' = { s with
      pageActive := ac, activeList := al, inactiveList := il }
  | 0, le, s, s', h, hrun => by
    cases le <;> cases hrun <;> exact ⟨h, _, _, _, rfl⟩
  | maxscan + 1, none, s, s', h, hrun => by
    cases hrun
    exact ⟨h, _, _, _, rfl⟩
  | maxscan + 1, some f, s, s', h, hrun => by
    unfold refillLoop at hrun
    obtain ⟨s₁, hpage, hrest⟩ := Option.bind_eq_some_iff.mp hrun
    obtain ⟨h₁, ac, al, il, rfl⟩ := h.refillPage_spec hpage
    obtain ⟨h₂, ac', al', il', rfl⟩ := refillLoop_spec maxscan _ _ h₁ hrest
    exact ⟨h₂, ac', al', il', rfl⟩

/-- **`refill_inactive_scan` moves pages between the lists, and does nothing else.** -/
theorem SwapInv.refillInactiveScan_spec (h : s.SwapInv R H)
    (hrun : s.refillInactiveScan = some s') :
    s'.SwapInv R H ∧ ∃ ac al il, s' = { s with
      pageActive := ac, activeList := al, inactiveList := il } :=
  refillLoop_spec _ _ s h hrun

end Ucore.Sys
