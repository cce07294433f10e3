import Ucore.Mm.BuddyInv

/-!
# Specifications of the functions of `buddy_pmm.c`

Every function is run on a state that satisfies `Buddy.Inv` and is shown to return (no assertion
fails) in a state that satisfies it again, with the set of allocated pages changed as it should:

* `buddyFreePagesSub_spec`, `buddyFreePages_spec` — freeing allocated pages removes exactly these
  pages from the set;
* `buddyAllocPages_spec` — allocation adds `n` fresh pages, or returns `NULL` and changes nothing,
  and it does the latter only when no list of sufficient order holds a block;
* `buddyInitMemmap_spec` — a new zone becomes completely free.
-/

namespace Ucore

open DyadicTiling

namespace Buddy

variable {Z : Zones} {g : ℕ → Page} {N : ℕ} {s : Buddy} {A : Finset ℕ}

/-! ## `buddy_free_pages_sub` -/

/-- The state after a loop over `n` pages from `p` on. -/
def mapRange (f : Page → Page) (p n : ℕ) (s : Buddy) : Buddy :=
  { s with pages := fun q => if p ≤ q ∧ q < p + n then f (s.pages q) else s.pages q }

theorem pageLoop_spec (ok : Page → Bool) (f : Page → Page) : ∀ (n p : ℕ) (s : Buddy),
    (∀ q, p ≤ q → q < p + n → ok (s.pages q) = true) →
    pageLoop ok f p n s = some (s.mapRange f p n)
  | 0, p, s, _ => by
    have hnone : ∀ q, ¬ (p ≤ q ∧ q < p) := by intro q; omega
    simp [pageLoop, mapRange, hnone]
  | n + 1, p, s, h => by
    rw [pageLoop, if_pos (h p (Nat.le_refl _) (by omega)), pageLoop_spec ok f n (p + 1)]
    · simp only [mapRange, setPage, Option.some.injEq, Buddy.mk.injEq, and_true, true_and]
      funext q
      by_cases hq : q = p
      · subst hq
        rw [if_neg (by omega), if_pos (by omega), Function.update_self]
      · rw [Function.update_of_ne hq]
        by_cases hr : p + 1 ≤ q ∧ q < p + 1 + n
        · rw [if_pos hr, if_pos (by omega)]
        · rw [if_neg hr, if_neg (by omega)]
    · intro q hq hlt
      have hne : q ≠ p := by omega
      simpa [setPage, Function.update_of_ne hne] using h q (by omega) (by omega)

/-- The state after the check loop of `buddy_free_pages_sub`. -/
def resetRange (s : Buddy) (p n : ℕ) : Buddy :=
  s.mapRange (fun p => { p with flags := PageFlags.zero, ref := 0 }) p n

/-- Resetting flags and reference counts of allocated pages is invisible to the invariant. -/
theorem Inv.reset (h : Inv Z g N s A) {p n : ℕ} (hA : Finset.Ico p (p + n) ⊆ A) :
    Inv Z g N (s.resetRange p n) A := by
  have hin : ∀ q, p ≤ q ∧ q < p + n → q ∈ A := fun q hq => hA (Finset.mem_Ico.mpr hq)
  have hzn : ∀ q, ((s.resetRange p n).pages q).zoneNum = (s.pages q).zoneNum := by
    intro q; simp only [resetRange, mapRange]; split <;> rfl
  have hblocks : ∀ z, (s.resetRange p n).freeBlocks z = s.freeBlocks z := by
    intro z; ext ⟨i, k⟩
    simp only [freeBlocks, Set.mem_ofPred_eq, hzn]
    rfl
  refine
    { layout := h.layout.of_pages rfl rfl rfl ?_ ?_
      listed := h.listed, nodup := h.nodup, nrFree := h.nrFree, flagged := ?_, order := ?_
      allocated := h.allocated, tile := ?_, coalesced := ?_, count := h.count }
  · intro q _
    refine ⟨hzn q, ?_⟩
    simp only [resetRange, mapRange]
    split
    · rename_i hq
      obtain ⟨z, b, n', hz, hb, hlt⟩ := mem_initPages.mp (h.allocated (hin q hq))
      exact (h.layout.zone z b n' hz q hb hlt).2.symm
    · rfl
  · intro q hq
    simp only [resetRange, mapRange]
    rw [if_neg fun hr => hq (h.allocated (hin q hr))]
  · intro q hq
    simp only [resetRange, mapRange]
    split
    · rename_i hr
      have := h.property_false (hin q hr)
      rw [← h.flagged q hq, this]
      simp [PageFlags.zero]
    · exact h.flagged q hq
  · intro k q hk hl
    have hprop : ((s.resetRange p n).pages q).property = (s.pages q).property := by
      simp only [resetRange, mapRange]; split <;> rfl
    rw [hprop]
    exact h.order k q hk hl
  · intro z b n' hz
    rw [hblocks]
    exact h.tile z b n' hz
  · intro z hz
    rw [hblocks]
    exact h.coalesced z hz

/-- `page_is_buddy` holds exactly of the heads of the free blocks of that order in the zone. -/
theorem Inv.pageIsBuddy_iff (h : Inv Z g N s A) (hg : ∀ p < N, (g p).flags.reserved = true)
    {z b n j k : ℕ} (hz : Z[z]? = some (b, n)) (hk : k ≤ MAX_ORDER) :
    s.pageIsBuddy (s.idx2page z j) k z = true ↔ (j, k) ∈ s.freeBlocks z := by
  rw [h.layout.idx2page hz]
  constructor
  · intro hb
    simp only [pageIsBuddy, h.layout.npage] at hb
    split at hb
    · rename_i hlt
      split at hb
      · rename_i hzn
        simp only [Bool.and_eq_true, Bool.not_eq_true', beq_iff_eq] at hb
        obtain ⟨⟨hres, hprop⟩, hord⟩ := hb
        have hinit : b + j ∈ initPages Z := by
          by_contra hout
          rw [h.layout.outside _ hout, hg _ hlt] at hres
          cases hres
        obtain ⟨m, hm, hl⟩ := (h.flagged _ hinit).mp hprop
        have hmk : m = k := (h.order m _ hm hl).symm.trans hord
        subst hmk
        exact ⟨hk, by rwa [h.layout.idx2page hz], by rwa [h.layout.idx2page hz]⟩
      · cases hb
    · cases hb
  · intro hmem
    obtain ⟨_, hj, hl⟩ := (h.mem_freeBlocks hz).mp hmem
    have hinit : b + j ∈ initPages Z := mem_initPages.mpr ⟨z, b, n, hz, by omega, by omega⟩
    obtain ⟨hzn, hres⟩ := h.layout.zone z b n hz (b + j) (by omega) (by omega)
    have hlt : b + j < s.npage := by
      have := h.layout.inside z b n hz
      rw [h.layout.npage]; omega
    have hprop := (h.flagged _ hinit).mpr ⟨k, hk, hl⟩
    simp [pageIsBuddy, hlt, hzn, hres, hprop, h.order k _ hk hl]

/-- The merge loop: the block grows, by free blocks that become allocated, until its companion
is not a free block. -/
theorem mergeLoop_spec (hg : ∀ p < N, (g p).flags.reserved = true) {z b n : ℕ}
    (hz : Z[z]? = some (b, n)) :
    ∀ (i k : ℕ) (s : Buddy) (A : Finset ℕ), Inv Z g N s A → k ≤ MAX_ORDER → 2 ^ k ∣ i →
      i + 2 ^ k ≤ n → Finset.Ico (b + i) (b + i + 2 ^ k) ⊆ A →
      ∃ i' k' s' A', mergeLoop z i k s = (i', k', s') ∧ Inv Z g N s' A' ∧ k' ≤ MAX_ORDER ∧
        2 ^ k' ∣ i' ∧ i' + 2 ^ k' ≤ n ∧ Finset.Ico (b + i') (b + i' + 2 ^ k') ⊆ A' ∧
        (k' < MAX_ORDER → (i' ^^^ 2 ^ k', k') ∉ s'.freeBlocks z) ∧
        A' \ Finset.Ico (b + i') (b + i' + 2 ^ k') = A \ Finset.Ico (b + i) (b + i + 2 ^ k) := by
  intro i k s
  induction hd : MAX_ORDER - k generalizing i k s with
  | zero =>
    intro A h hk hdvd hn hA
    refine ⟨i, k, s, A, ?_, h, hk, hdvd, hn, hA, fun hlt => by omega, rfl⟩
    rw [mergeLoop, if_neg (by omega)]
  | succ d ih =>
    intro A h hk hdvd hn hA
    rw [mergeLoop, if_pos (by omega)]
    simp only
    by_cases hb : s.pageIsBuddy (s.idx2page z (i ^^^ 2 ^ k)) k z = true
    · rw [if_pos hb]
      have hmem := (h.pageIsBuddy_iff hg hz hk).mp hb
      have hidx := h.layout.idx2page hz (i ^^^ 2 ^ k)
      have hinv := h.take hz hmem
      have hlast := h.block_end hz hmem
      -- the block and its companion together
      have hparent : Finset.Ico (b + parent i k) (b + parent i k + 2 ^ (k + 1)) =
          Finset.Ico (b + i) (b + i + 2 ^ k) ∪
            Finset.Ico (b + (i ^^^ 2 ^ k)) (b + (i ^^^ 2 ^ k) + 2 ^ k) := by
        ext x
        simp only [Finset.mem_union, Finset.mem_Ico, Nat.pow_succ]
        rcases parent_cases hdvd with ⟨_, he, hp⟩ | ⟨hle, _, he, hp⟩ <;> rw [hp, he] <;> omega
      have hfree : Disjoint A
          (Finset.Ico (b + (i ^^^ 2 ^ k)) (b + (i ^^^ 2 ^ k) + 2 ^ k)) := by
        rw [Finset.disjoint_left]
        intro x hxA hx
        rw [Finset.mem_Ico] at hx
        obtain ⟨y, rfl⟩ := Nat.exists_eq_add_of_le (show b ≤ x by omega)
        have hy : y ∈ block (i ^^^ 2 ^ k) k := by simp only [mem_block]; omega
        exact ((h.tile z b n hz).block_subset hmem hy).2 hxA
      have hend : parent i k + 2 ^ (k + 1) ≤ n := by
        rw [Nat.pow_succ]
        rcases parent_cases hdvd with ⟨_, he, hp⟩ | ⟨hle, _, he, hp⟩
        · rw [hp]; rw [he] at hlast; omega
        · rw [hp]; omega
      obtain ⟨i', k', s', A', hrun, hinv', hk', hd', hn', hA', hc', hset⟩ :=
        ih (parent i k) (k + 1) (s.take k (b + (i ^^^ 2 ^ k))) (by omega) _ hinv (by omega)
          (parent_dvd hdvd) hend (by
            rw [hparent]; exact Finset.union_subset_union hA (Finset.Subset.refl _))
      refine ⟨i', k', s', A', ?_, hinv', hk', hd', hn', hA', hc', ?_⟩
      · rw [hidx]; exact hrun
      · rw [hset, hparent]
        ext x
        simp only [Finset.mem_sdiff, Finset.mem_union, not_or]
        constructor
        · rintro ⟨hx | hx, hni, hnc⟩
          · exact ⟨hx, hni⟩
          · exact absurd hx hnc
        · rintro ⟨hx, hni⟩
          exact ⟨Or.inl hx, hni, Finset.disjoint_left.mp hfree hx⟩
    · rw [if_neg hb]
      exact ⟨i, k, s, A, rfl, h, hk, hdvd, hn, hA,
        fun _ hmem => hb ((h.pageIsBuddy_iff hg hz hk).mpr hmem), rfl⟩

/-- **`buddy_free_pages_sub` frees an aligned allocated block.** -/
theorem buddyFreePagesSub_spec (hg : ∀ p < N, (g p).flags.reserved = true)
    (h : Inv Z g N s A) {z b n i k : ℕ} (hz : Z[z]? = some (b, n)) (hk : k ≤ MAX_ORDER)
    (hdvd : 2 ^ k ∣ i) (hn : i + 2 ^ k ≤ n) (hA : Finset.Ico (b + i) (b + i + 2 ^ k) ⊆ A) :
    ∃ s', buddyFreePagesSub (b + i) k s = some s' ∧
      Inv Z g N s' (A \ Finset.Ico (b + i) (b + i + 2 ^ k)) := by
  have hpos := Nat.two_pow_pos k
  have hidx : s.page2idx (b + i) = i := h.layout.page2idx hz (by omega)
  have hmask : i &&& (2 ^ k - 1) = 0 := by
    rw [Nat.and_two_pow_sub_one_eq_mod]
    exact Nat.mod_eq_zero_of_dvd hdvd
  have hreset : resetPages (b + i) (2 ^ k) s = some (s.resetRange (b + i) (2 ^ k)) := by
    refine pageLoop_spec _ _ _ _ _ fun q hq hlt => ?_
    have hres := (h.layout.zone z b n hz q (by omega) (by omega)).2
    simp [hres, h.property_false (hA (Finset.mem_Ico.mpr ⟨hq, hlt⟩))]
  have hinv := h.reset (p := b + i) (n := 2 ^ k) hA
  have hzn : ((s.resetRange (b + i) (2 ^ k)).pages (b + i)).zoneNum = z :=
    (hinv.layout.zone z b n hz (b + i) (by omega) (by omega)).1
  obtain ⟨i', k', s', A', hrun, hinv', hk', hd', hn', hA', hc', hset⟩ :=
    mergeLoop_spec hg hz i k _ A hinv hk hdvd hn hA
  refine ⟨s'.listAddBlock k' (b + i'), ?_, ?_⟩
  · simp [buddyFreePagesSub, hidx, hmask, hreset, hzn, hrun, hinv'.layout.idx2page hz]
  · rw [← hset]
    exact hinv'.put hz hk' hd' hn' hA' hc'

/-! ## `buddy_free_pages` -/

theorem and_two_pow_eq_zero_iff {i k : ℕ} (h : 2 ^ k ∣ i) : i &&& 2 ^ k = 0 ↔ 2 ^ (k + 1) ∣ i := by
  rcases companion_cases h with ⟨hd, _⟩ | ⟨hle, hd, hsub⟩
  · refine iff_of_true ?_ hd
    obtain ⟨q, rfl⟩ := hd
    rw [Nat.and_two_pow, Nat.testBit_two_pow_mul]
    simp
  · refine iff_of_false ?_ fun hd' => ?_
    · obtain ⟨q, hq⟩ := hd
      have hi : i = 2 ^ (k + 1) * q + 2 ^ k := by omega
      rw [Nat.and_two_pow, hi, Nat.testBit_two_pow_mul_add _ (Nat.pow_lt_pow_succ (by decide))]
      simp [Nat.testBit_two_pow_self]
    · rw [companion_of_dvd_succ hd'] at hsub
      have := Nat.two_pow_pos k
      omega

theorem Ico_split (a k n : ℕ) (h : 2 ^ k ≤ n) :
    Finset.Ico a (a + n) = Finset.Ico a (a + 2 ^ k) ∪ Finset.Ico (a + 2 ^ k) (a + n) := by
  have hpos := Nat.two_pow_pos k
  ext x
  simp only [Finset.mem_union, Finset.mem_Ico]
  omega

/-- The ascending loop of `buddy_free_pages` stops with a rest that is shorter than the order at
which it stops and starts at a multiple of it. -/
theorem freeAscend_spec (hg : ∀ p < N, (g p).flags.reserved = true) {z b n : ℕ}
    (hz : Z[z]? = some (b, n)) :
    ∀ (k i m : ℕ) (s : Buddy) (A : Finset ℕ), Inv Z g N s A → m < 2 ^ (MAX_ORDER + 1) →
      k ≤ MAX_ORDER + 1 → 2 ^ k ∣ i → i + m ≤ n → i < n →
      Finset.Ico (b + i) (b + i + m) ⊆ A →
      ∃ k' i' m' s' A', freeAscend k (b + i) m s = some (k', b + i', m', s') ∧ Inv Z g N s' A' ∧
        k' ≤ MAX_ORDER + 1 ∧ 2 ^ k' ∣ i' ∧ m' < 2 ^ k' ∧ i' + m' ≤ n ∧
        Finset.Ico (b + i') (b + i' + m') ⊆ A' ∧
        A' \ Finset.Ico (b + i') (b + i' + m') = A \ Finset.Ico (b + i) (b + i + m) := by
  intro k i m s
  induction hd : MAX_ORDER + 1 - k generalizing k i m s with
  | zero =>
    intro A h hm hk hdvd hn _ hA
    have hke : k = MAX_ORDER + 1 := by omega
    subst hke
    refine ⟨_, i, m, s, A, ?_, h, hk, hdvd, hm, hn, hA, rfl⟩
    rw [freeAscend, if_neg (by omega)]
  | succ d ih =>
    intro A h hm hk hdvd hn hi hA
    rw [freeAscend]
    by_cases hle : 2 ^ k ≤ m
    · rw [if_pos hle, if_pos (by omega), h.layout.page2idx hz hi]
      by_cases hbit : i &&& 2 ^ k = 0
      · rw [if_neg (by simpa using hbit)]
        exact ih (k + 1) i m s (by omega) A h hm (by omega) ((and_two_pow_eq_zero_iff hdvd).mp hbit)
          hn hi hA
      · rw [if_pos hbit]
        have hsplit := Ico_split (b + i) k m hle
        obtain ⟨s', hrun, hinv⟩ := buddyFreePagesSub_spec hg h hz (by omega : k ≤ MAX_ORDER) hdvd
          (by omega) (Finset.Subset.trans (by rw [hsplit]; exact Finset.subset_union_left) hA)
        have hpos := Nat.two_pow_pos k
        have hdvd' : 2 ^ (k + 1) ∣ i + 2 ^ k := by
          rcases companion_cases hdvd with ⟨hd', _⟩ | ⟨hge, hd', _⟩
          · exact absurd ((and_two_pow_eq_zero_iff hdvd).mpr hd') hbit
          · have : i + 2 ^ k = (i - 2 ^ k) + 2 ^ (k + 1) := by rw [Nat.pow_succ]; omega
            rw [this]
            exact Nat.dvd_add hd' (Nat.dvd_refl _)
        rw [hrun, Option.bind_some]
        by_cases hrest : m = 2 ^ k
        · -- nothing is left: the loop ends at once
          refine ⟨k + 1, i + 2 ^ k, 0, s', _, ?_, hinv, by omega, hdvd', Nat.two_pow_pos _,
            by omega, by simp, ?_⟩
          · rw [hrest, Nat.sub_self, freeAscend, if_neg (by have := Nat.two_pow_pos (k + 1); omega),
              Nat.add_assoc]
          · rw [hrest]; simp
        · obtain ⟨k', i', m', s'', A', hrun', hinv', hk', hd', hm', hn', hA', hset⟩ :=
            ih (k + 1) (i + 2 ^ k) (m - 2 ^ k) s' (by omega) _ hinv (by omega) (by omega) hdvd'
              (by omega) (by omega) (by
                intro x hx
                rw [Finset.mem_Ico] at hx
                rw [Finset.mem_sdiff, Finset.mem_Ico]
                exact ⟨hA (Finset.mem_Ico.mpr (by omega)), by omega⟩)
          refine ⟨k', i', m', s'', A', by rw [Nat.add_assoc]; exact hrun', hinv', hk', hd', hm', hn',
            hA', ?_⟩
          rw [hset, sdiff_sdiff_left, hsplit, Finset.sup_eq_union]
          congr 3 <;> omega
    · rw [if_neg hle]
      exact ⟨k, i, m, s, A, rfl, h, hk, hdvd, by omega, hn, hA, rfl⟩

/-- The descending loop frees the rest in blocks of decreasing order. -/
theorem freeDescend_spec (hg : ∀ p < N, (g p).flags.reserved = true) {z b n : ℕ}
    (hz : Z[z]? = some (b, n)) :
    ∀ (k i m : ℕ) (s : Buddy) (A : Finset ℕ), Inv Z g N s A → (k ≤ MAX_ORDER ∨ m < 2 ^ k) →
      k ≤ MAX_ORDER + 1 → 2 ^ k ∣ i → i + m ≤ n → Finset.Ico (b + i) (b + i + m) ⊆ A →
      ∃ s', freeDescend k (b + i) m s = some s' ∧
        Inv Z g N s' (A \ Finset.Ico (b + i) (b + i + m)) := by
  intro k i m s
  induction hd : m + k using Nat.strong_induction_on generalizing k i m s with
  | _ d ih =>
    intro A h hor hk hdvd hn hA
    rw [freeDescend]
    by_cases hm0 : m = 0
    · rw [if_pos hm0]
      exact ⟨s, rfl, by simpa [hm0] using h⟩
    rw [if_neg hm0]
    by_cases hlt : m < 2 ^ k
    · have hk0 : k ≠ 0 := by rintro rfl; simp at hlt; omega
      rw [if_pos hlt]
      exact ih (m + (k - 1)) (by omega) (k - 1) i m s rfl A h (Or.inl (by omega)) (by omega)
        (Nat.dvd_trans (Nat.pow_dvd_pow 2 (by omega)) hdvd) hn hA
    · rw [if_neg hlt]
      have hkM : k ≤ MAX_ORDER := hor.resolve_right hlt
      have hpos := Nat.two_pow_pos k
      have hsplit := Ico_split (b + i) k m (by omega)
      obtain ⟨s', hrun, hinv⟩ := buddyFreePagesSub_spec hg h hz hkM hdvd (by omega)
        (Finset.Subset.trans (by rw [hsplit]; exact Finset.subset_union_left) hA)
      rw [hrun, Option.bind_some]
      obtain ⟨s'', hrun', hinv'⟩ := ih (m - 2 ^ k + k) (by omega) k (i + 2 ^ k) (m - 2 ^ k) s' rfl _
        hinv (Or.inl hkM) hk (Nat.dvd_add hdvd (Nat.dvd_refl _)) (by omega) (by
          intro x hx
          rw [Finset.mem_Ico] at hx
          rw [Finset.mem_sdiff, Finset.mem_Ico]
          exact ⟨hA (Finset.mem_Ico.mpr (by omega)), by omega⟩)
      refine ⟨s'', by rw [Nat.add_assoc]; exact hrun', ?_⟩
      have hset : A \ Finset.Ico (b + i) (b + i + m) =
          (A \ Finset.Ico (b + i) (b + i + 2 ^ k)) \
            Finset.Ico (b + (i + 2 ^ k)) (b + (i + 2 ^ k) + (m - 2 ^ k)) := by
        rw [sdiff_sdiff_left, hsplit, Finset.sup_eq_union]
        congr 3 <;> omega
      rw [hset]
      exact hinv'

/-- **`buddy_free_pages` frees any range of allocated pages of one zone.** -/
theorem buddyFreePages_spec (hg : ∀ p < N, (g p).flags.reserved = true) (h : Inv Z g N s A)
    {z b n i m : ℕ} (hz : Z[z]? = some (b, n)) (hm0 : 0 < m) (hm : m ≤ 2 ^ MAX_ORDER)
    (hn : i + m ≤ n) (hA : Finset.Ico (b + i) (b + i + m) ⊆ A) :
    ∃ s', buddyFreePages (b + i) m s = some s' ∧
      Inv Z g N s' (A \ Finset.Ico (b + i) (b + i + m)) := by
  by_cases h1 : m = 1
  · subst h1
    obtain ⟨s', hrun, hinv⟩ := buddyFreePagesSub_spec hg h hz (k := 0) (Nat.zero_le _)
      (by simp) (by simpa using hn) (by simpa using hA)
    exact ⟨s', by simp [buddyFreePages, hrun], by simpa using hinv⟩
  · obtain ⟨k', i', m', s', A', hrun, hinv, hk', hd', hm', hn', hA', hset⟩ :=
      freeAscend_spec hg hz 0 i m s A h (by rw [Nat.pow_succ]; have := Nat.two_pow_pos MAX_ORDER; omega)
        (by omega) (by simp) hn (by omega) hA
    obtain ⟨s'', hrun', hinv'⟩ :=
      freeDescend_spec hg hz k' i' m' s' A' hinv (Or.inr hm') hk' hd' hn' hA'
    refine ⟨s'', ?_, hset ▸ hinv'⟩
    simp [buddyFreePages, hm0, h1, hrun, hrun']

/-! ## `buddy_alloc_pages` -/

theorem getorder_spec {m : ℕ} (hm : m ≤ 2 ^ MAX_ORDER) :
    ∃ k, getorder m = some k ∧ k ≤ MAX_ORDER ∧ m ≤ 2 ^ k ∧ ∀ j < k, 2 ^ j < m := by
  unfold getorder
  cases hf : (List.range (MAX_ORDER + 1)).find? (fun order => decide (m ≤ 2 ^ order)) with
  | none =>
    rw [List.find?_range_eq_none] at hf
    have := hf MAX_ORDER (by omega)
    simp at this
    omega
  | some k =>
    obtain ⟨hle, hlt, hmin⟩ := List.find?_range_eq_some.mp hf
    refine ⟨k, rfl, ?_, by simpa using hle, fun j hj => ?_⟩
    · have := List.mem_range.mp hlt; omega
    · simpa using hmin j hj

theorem listAddBlock_clearPageProperty {k p q : ℕ} (hne : q ≠ p) :
    (s.clearPageProperty p).listAddBlock k q = (s.listAddBlock k q).clearPageProperty p := by
  simp only [listAddBlock, clearPageProperty, setPage, setArea, Function.update_of_ne hne,
    Function.update_of_ne hne.symm, Buddy.mk.injEq, and_true, true_and]
  exact Function.update_comm hne.symm _ _ _

/-- Clearing the flag of the head before the split loop or after it makes no difference. -/
theorem splitLoop_clearPageProperty (page order : ℕ) : ∀ (cur : ℕ) (s : Buddy),
    splitLoop page order cur (s.clearPageProperty page) =
      (splitLoop page order cur s).clearPageProperty page
  | 0, s => rfl
  | cur + 1, s => by
    rw [splitLoop, splitLoop]
    split
    · have hne : page + 2 ^ cur ≠ page := by have := Nat.two_pow_pos cur; omega
      rw [listAddBlock_clearPageProperty hne, splitLoop_clearPageProperty page order cur]
    · rfl

/-- The split loop gives back everything above the first `2 ^ order` pages of the block. -/
theorem splitLoop_spec {z b n i : ℕ} (hz : Z[z]? = some (b, n)) (order : ℕ) :
    ∀ (cur : ℕ) (s : Buddy) (A : Finset ℕ), Inv Z g N s A → cur ≤ MAX_ORDER → order ≤ cur →
      2 ^ cur ∣ i → i + 2 ^ cur ≤ n → Finset.Ico (b + i) (b + i + 2 ^ cur) ⊆ A →
      Inv Z g N (splitLoop (b + i) order cur s)
        (A \ Finset.Ico (b + i + 2 ^ order) (b + i + 2 ^ cur))
  | 0, s, A, h, _, hord, _, _, _ => by
    have : order = 0 := by omega
    subst this
    simpa [splitLoop] using h
  | cur + 1, s, A, h, hk, hord, hdvd, hn, hA => by
    rw [splitLoop]
    have hpos := Nat.two_pow_pos cur
    have hpow : 2 ^ (cur + 1) = 2 ^ cur + 2 ^ cur := by rw [Nat.pow_succ]; omega
    split
    · rename_i hlt
      have hdvd' : 2 ^ cur ∣ i := Nat.dvd_trans (Nat.pow_dvd_pow 2 (Nat.le_succ _)) hdvd
      have hcomp : (i + 2 ^ cur) ^^^ 2 ^ cur = i := by
        rw [← companion_of_dvd_succ hdvd, companion_companion]
      have hiA : b + i ∈ A := hA (Finset.mem_Ico.mpr (by omega))
      have hcur : cur ≤ MAX_ORDER := by omega
      have hinv := h.put hz (k := cur) (i := i + 2 ^ cur) hcur
        (Nat.dvd_add hdvd' (Nat.dvd_refl _)) (by omega)
        (fun x hx => hA (by rw [Finset.mem_Ico] at hx ⊢; omega))
        (fun _ hmem => by
          rw [hcomp] at hmem
          exact h.not_listed hiA hcur ((h.mem_freeBlocks hz).mp hmem).2.2)
      rw [← Nat.add_assoc] at hinv
      have := splitLoop_spec hz order cur _ _ hinv (by omega) (by omega) hdvd' (by omega) (by
        intro x hx
        rw [Finset.mem_Ico] at hx
        rw [Finset.mem_sdiff, Finset.mem_Ico]
        exact ⟨hA (Finset.mem_Ico.mpr (by omega)), by omega⟩)
      have hle : 2 ^ order ≤ 2 ^ cur := Nat.pow_le_pow_right (by decide) (by omega)
      have hset : A \ Finset.Ico (b + i + 2 ^ order) (b + i + 2 ^ (cur + 1)) =
          (A \ Finset.Ico (b + i + 2 ^ cur) (b + i + 2 ^ cur + 2 ^ cur)) \
            Finset.Ico (b + i + 2 ^ order) (b + i + 2 ^ cur) := by
        ext x
        simp only [Finset.mem_sdiff, Finset.mem_Ico]
        constructor
        · rintro ⟨hx, hnot⟩; exact ⟨⟨hx, by omega⟩, by omega⟩
        · rintro ⟨⟨hx, h1⟩, h2⟩; exact ⟨hx, by omega⟩
      rw [hset]
      exact this
    · have : order = cur + 1 := by omega
      subst this
      simpa using h

/-- **`buddy_alloc_pages_sub`** returns an aligned block of the requested order that was free, or
`NULL` when every list from this order on is empty. -/
theorem buddyAllocPagesSub_spec (h : Inv Z g N s A) {k : ℕ} (hk : k ≤ MAX_ORDER) :
    (buddyAllocPagesSub k s = some (none, s) ∧
      ∀ j, k ≤ j → j ≤ MAX_ORDER → (s.freeArea j).freeList = []) ∨
    ∃ (z b n i : ℕ) (s' : Buddy), Z[z]? = some (b, n) ∧ buddyAllocPagesSub k s = some (some (b + i), s') ∧
      2 ^ k ∣ i ∧ i + 2 ^ k ≤ n ∧ Disjoint A (Finset.Ico (b + i) (b + i + 2 ^ k)) ∧
      Inv Z g N s' (A ∪ Finset.Ico (b + i) (b + i + 2 ^ k)) := by
  unfold buddyAllocPagesSub
  cases hf : (List.range' k (MAX_ORDER + 1 - k)).find?
      (fun j => decide ((s.freeArea j).freeList ≠ [])) with
  | none =>
    left
    refine ⟨by simp [hk], fun j hj hjM => ?_⟩
    have := List.find?_eq_none.mp hf j (List.mem_range'_1.mpr (by omega))
    simpa using this
  | some cur =>
    right
    have hmem := List.mem_range'_1.mp (List.mem_of_find?_eq_some hf)
    have hcur : cur ≤ MAX_ORDER := by omega
    have hne := List.find?_some hf
    obtain ⟨p, l, hl⟩ := List.exists_cons_of_ne_nil (show (s.freeArea cur).freeList ≠ [] by simpa using hne)
    have hp : p ∈ (s.freeArea cur).freeList := by rw [hl]; simp
    obtain ⟨z, b, n, i, hz, rfl, hblk, hend, hdvd, hfree⟩ := h.block_of_listed hcur hp
    have hinv := splitLoop_spec hz k cur _ _ (h.take hz hblk) hcur hmem.1 hdvd hend
      Finset.subset_union_right
    have hpos := Nat.two_pow_pos k
    have hle : 2 ^ k ≤ 2 ^ cur := Nat.pow_le_pow_right (by decide) hmem.1
    have hdisj : Disjoint A (Finset.Ico (b + i) (b + i + 2 ^ cur)) := by
      rw [Finset.disjoint_left]
      intro x hxA hx
      rw [Finset.mem_Ico] at hx
      obtain ⟨y, rfl⟩ := Nat.exists_eq_add_of_le (show b ≤ x by omega)
      exact hfree y (by simp only [mem_block]; omega) hxA
    refine ⟨z, b, n, i, splitLoop (b + i) k cur (s.take cur (b + i)), hz, ?_,
      Nat.dvd_trans (Nat.pow_dvd_pow 2 hmem.1) hdvd, by omega, ?_, ?_⟩
    · simp [hk, hl, take, splitLoop_clearPageProperty]
    · exact Finset.disjoint_of_subset_right (Finset.Ico_subset_Ico_right (by omega)) hdisj
    · have hset : A ∪ Finset.Ico (b + i) (b + i + 2 ^ k) =
          (A ∪ Finset.Ico (b + i) (b + i + 2 ^ cur)) \
            Finset.Ico (b + i + 2 ^ k) (b + i + 2 ^ cur) := by
        ext x
        have hx : x ∈ A → x ∉ Finset.Ico (b + i) (b + i + 2 ^ cur) :=
          fun hxA => Finset.disjoint_left.mp hdisj hxA
        simp only [Finset.mem_union, Finset.mem_sdiff, Finset.mem_Ico] at hx ⊢
        constructor
        · rintro (hxA | hxI)
          · exact ⟨Or.inl hxA, by have := hx hxA; omega⟩
          · exact ⟨Or.inr (by omega), by omega⟩
        · rintro ⟨hxA | hxI, hnot⟩
          · exact Or.inl hxA
          · exact Or.inr (by omega)
      rw [hset]
      exact hinv

/-- **`buddy_alloc_pages`** never panics; it returns `n` pages that were free and are now
allocated, or `NULL` without changing anything. -/
theorem buddyAllocPages_spec (hg : ∀ p < N, (g p).flags.reserved = true) (h : Inv Z g N s A)
    {m : ℕ} (hm0 : 0 < m) (hm : m ≤ 2 ^ MAX_ORDER) :
    ∃ k, getorder m = some k ∧ k ≤ MAX_ORDER ∧
      ((buddyAllocPages m s = some (none, s) ∧
        ∀ j, k ≤ j → j ≤ MAX_ORDER → (s.freeArea j).freeList = []) ∨
      ∃ (z b n i : ℕ) (s' : Buddy), Z[z]? = some (b, n) ∧ buddyAllocPages m s = some (some (b + i), s') ∧
        2 ^ k ∣ i ∧ i + 2 ^ k ≤ n ∧ Disjoint A (Finset.Ico (b + i) (b + i + 2 ^ k)) ∧
        Inv Z g N s' (A ∪ Finset.Ico (b + i) (b + i + m))) := by
  obtain ⟨k, hgo, hk, hmk, hmin⟩ := getorder_spec hm
  refine ⟨k, hgo, hk, ?_⟩
  rcases buddyAllocPagesSub_spec h hk with ⟨hrun, hempty⟩ | ⟨z, b, n, i, s', hz, hrun, hd, hn, hA, hinv⟩
  · exact Or.inl ⟨by simp [buddyAllocPages, hm0, hgo, hrun], hempty⟩
  · right
    by_cases he : m = 2 ^ k
    · refine ⟨z, b, n, i, s', hz, ?_, hd, hn, hA, by rw [he]; exact hinv⟩
      simp [buddyAllocPages, hm0, hgo, hrun, ← he]
    · have hsub : Finset.Ico (b + (i + m)) (b + (i + m) + (2 ^ k - m)) ⊆
          A ∪ Finset.Ico (b + i) (b + i + 2 ^ k) := by
        intro x hx
        rw [Finset.mem_Ico] at hx
        exact Finset.mem_union_right _ (Finset.mem_Ico.mpr (by omega))
      have hkle : 2 ^ k ≤ 2 ^ MAX_ORDER := Nat.pow_le_pow_right (by decide) hk
      obtain ⟨s'', hrun', hinv'⟩ := buddyFreePages_spec hg hinv hz (i := i + m) (m := 2 ^ k - m)
        (by omega) (by omega) (by omega) hsub
      refine ⟨z, b, n, i, s'', hz, ?_, hd, hn, hA, ?_⟩
      · rw [← Nat.add_assoc] at hrun'
        simp [buddyAllocPages, hm0, hgo, hrun, he, hrun']
      · have hset : A ∪ Finset.Ico (b + i) (b + i + m) =
            (A ∪ Finset.Ico (b + i) (b + i + 2 ^ k)) \
              Finset.Ico (b + (i + m)) (b + (i + m) + (2 ^ k - m)) := by
          ext x
          have hx : x ∈ A → x ∉ Finset.Ico (b + i) (b + i + 2 ^ k) :=
            fun hxA => Finset.disjoint_left.mp hA hxA
          simp only [Finset.mem_union, Finset.mem_sdiff, Finset.mem_Ico] at hx ⊢
          constructor
          · rintro (hxA | hxI)
            · exact ⟨Or.inl hxA, by have := hx hxA; omega⟩
            · exact ⟨Or.inr (by omega), by omega⟩
          · rintro ⟨hxA | hxI, hnot⟩
            · exact Or.inl hxA
            · exact Or.inr (by omega)
        rw [hset]
        exact hinv'

/-! ## `buddy_init_memmap` -/

/-- The state after the first loop of `buddy_init_memmap`. -/
def memmapRange (s : Buddy) (p n : ℕ) : Buddy :=
  s.mapRange (fun p => { p with
    flags := PageFlags.zero, property := 0, zoneNum := s.zoneNum, ref := 0 }) p n

theorem initPages_append (Z : Zones) (b n : ℕ) :
    initPages (Z ++ [(b, n)]) = initPages Z ∪ Finset.Ico b (b + n) := by
  ext p
  simp [initPages, Finset.mem_biUnion, or_comm]

theorem getElem?_append_singleton {Z : Zones} {b n z b' n' : ℕ}
    (h : (Z ++ [(b, n)])[z]? = some (b', n')) :
    Z[z]? = some (b', n') ∨ (z = Z.length ∧ b' = b ∧ n' = n) := by
  rcases Nat.lt_trichotomy z Z.length with hlt | heq | hgt
  · rw [List.getElem?_append_left hlt] at h
    exact Or.inl h
  · subst heq
    simp at h
    exact Or.inr ⟨rfl, h.1.symm, h.2.symm⟩
  · rw [List.getElem?_eq_none (by simp; omega)] at h
    cases h

/-- A new zone whose pages all count as allocated. -/
theorem Inv.newZone (h : Inv Z g N s ∅) {b n : ℕ} (hN : b + n ≤ N) (hn : 0 < n)
    (hdisj : Disjoint (initPages Z) (Finset.Ico b (b + n))) :
    Inv (Z ++ [(b, n)]) g N
      { s.memmapRange b n with
        zones := Function.update s.zones s.zoneNum b, zoneNum := s.zoneNum + 1 }
      (Finset.Ico b (b + n)) := by
  have hnew : ∀ p ∈ initPages Z, ¬ (b ≤ p ∧ p < b + n) := fun p hp hr =>
    Finset.disjoint_left.mp hdisj hp (Finset.mem_Ico.mpr hr)
  have hold : ∀ p ∈ initPages Z, (s.memmapRange b n).pages p = s.pages p := fun p hp => by
    simp only [memmapRange, mapRange]; rw [if_neg (hnew p hp)]
  have hlen : ∀ z b' n', Z[z]? = some (b', n') → z ≠ s.zoneNum := fun z b' n' hz => by
    have := (List.getElem?_eq_some_iff.mp hz).1
    rw [h.layout.zoneNum]; omega
  have hblocks : ∀ z b' n', Z[z]? = some (b', n') → Buddy.freeBlocks { s.memmapRange b n with
      zones := Function.update s.zones s.zoneNum b, zoneNum := s.zoneNum + 1 } z =
        s.freeBlocks z := by
    intro z b' n' hz
    ext ⟨i, k⟩
    simp only [freeBlocks, Set.mem_ofPred_eq, Buddy.idx2page,
      Function.update_of_ne (hlen z b' n' hz), memmapRange, mapRange]
    refine and_congr_right fun hk => and_congr_right fun hl => ?_
    rw [if_neg (hnew _ (h.listed k _ hk hl))]
  have hblocks' : Buddy.freeBlocks { s.memmapRange b n with
      zones := Function.update s.zones s.zoneNum b, zoneNum := s.zoneNum + 1 } Z.length = ∅ := by
    rw [Set.eq_empty_iff_forall_notMem]
    rintro ⟨i, k⟩ ⟨hk, hl, hzn⟩
    simp only at hl hzn
    have hinit := h.listed k _ hk hl
    obtain ⟨z, b', n', hz, hb', hn'⟩ := mem_initPages.mp hinit
    rw [hold _ hinit, (h.layout.zone z b' n' hz _ hb' hn').1] at hzn
    exact hlen z b' n' hz (hzn.trans h.layout.zoneNum.symm)
  refine
    { layout := ⟨h.layout.npage, by simp [h.layout.zoneNum], ?_, ?_, ?_, ?_⟩
      listed := fun k p hk hp => ?_, nodup := h.nodup, nrFree := h.nrFree, flagged := ?_
      order := ?_, allocated := ?_, tile := ?_, coalesced := ?_, count := ?_ }
  · intro z b' n' hz
    rcases getElem?_append_singleton hz with hz | ⟨rfl, rfl, rfl⟩
    · simpa [Function.update_of_ne (hlen z b' n' hz)] using h.layout.base z b' n' hz
    · simp [h.layout.zoneNum]
  · intro z b' n' hz
    rcases getElem?_append_singleton hz with hz | ⟨rfl, rfl, rfl⟩
    · exact h.layout.inside z b' n' hz
    · exact hN
  · intro z b' n' hz p hb hlt
    rcases getElem?_append_singleton hz with hz | ⟨rfl, rfl, rfl⟩
    · have hinit : p ∈ initPages Z := mem_initPages.mpr ⟨z, b', n', hz, hb, hlt⟩
      simp only [hold p hinit]
      exact h.layout.zone z b' n' hz p hb hlt
    · simp [memmapRange, mapRange, hb, hlt, h.layout.zoneNum, PageFlags.zero]
  · intro p hp
    rw [initPages_append, Finset.mem_union, Finset.mem_Ico, not_or] at hp
    simp only [memmapRange, mapRange]
    rw [if_neg hp.2]
    exact h.layout.outside p hp.1
  · rw [initPages_append]
    exact Finset.mem_union_left _ (h.listed k p hk hp)
  · intro p hp
    rw [initPages_append] at hp
    rcases Finset.mem_union.mp hp with hp | hp
    · simp only [hold p hp]
      exact h.flagged p hp
    · have hr := Finset.mem_Ico.mp hp
      simp only [memmapRange, mapRange, if_pos hr, PageFlags.zero]
      refine iff_of_false (by simp) ?_
      rintro ⟨k, hk, hl⟩
      exact hnew p (h.listed k p hk hl) hr
  · intro k p hk hp
    simp only [hold p (h.listed k p hk hp)]
    exact h.order k p hk hp
  · rw [initPages_append]
    exact Finset.subset_union_right
  · intro z b' n' hz
    rcases getElem?_append_singleton hz with hz | ⟨rfl, rfl, rfl⟩
    · have hU := freeSet_congr b' n' (Finset.Ico b (b + n)) ∅
        fun x hx => iff_of_false
          (fun hI => hnew _ (mem_initPages.mpr ⟨z, b', n', hz, by omega, by omega⟩)
            (Finset.mem_Ico.mp hI)) (by simp)
      rw [hblocks z b' n' hz, hU]
      exact h.tile z b' n' hz
    · have hU : freeSet b' n' (Finset.Ico b' (b' + n')) = ∅ := by
        rw [Set.eq_empty_iff_forall_notMem]
        rintro x ⟨hx, hnot⟩
        exact hnot (Finset.mem_Ico.mpr (by omega))
      rw [hblocks', hU]
      exact tiling_empty
  · intro z hz
    rw [List.length_append, List.length_singleton] at hz
    rcases Nat.lt_succ_iff_lt_or_eq.mp hz with hlt | rfl
    · rw [hblocks z _ _ (List.getElem?_eq_getElem hlt)]
      exact h.coalesced z hlt
    · rw [hblocks']
      exact coalesced_empty
  · rw [initPages_append, Finset.card_union_of_disjoint hdisj, ← h.count]
    rfl

/-- Inner loop of `buddy_init_memmap`: the zone is free up to `b + i`, the `m` pages from there
on are still to be handed out. -/
theorem memmapRun_spec {z b n : ℕ} (hz : Z[z]? = some (b, n)) {k : ℕ} (hk : k ≤ MAX_ORDER) :
    ∀ (m i : ℕ) (s : Buddy), Inv Z g N s (Finset.Ico (b + i) (b + i + m)) → i + m = n →
      2 ^ k ∣ i → (k < MAX_ORDER → m < 2 ^ (k + 1) ∧ (2 ^ k ≤ m → 2 ^ (k + 1) ∣ i)) →
      ∃ m' i' s', memmapRun k m (b + i) s = (m', b + i', s') ∧
        Inv Z g N s' (Finset.Ico (b + i') (b + i' + m')) ∧ i' + m' = n ∧ 2 ^ k ∣ i' ∧
        m' < 2 ^ k := by
  intro m
  induction m using Nat.strong_induction_on with
  | _ m ih =>
    intro i s h hn hd hlow
    rw [memmapRun]
    have hpos := Nat.two_pow_pos k
    split
    · rename_i hle
      have hput := h.put hz hk hd (by omega) (Finset.Ico_subset_Ico_right (by omega)) (by
        intro hlt hmem
        -- the companion follows the block, so it has not been handed out yet
        rw [companion_of_dvd_succ ((hlow hlt).2 hle)] at hmem
        obtain ⟨_, hi, hl⟩ := (h.mem_freeBlocks hz).mp hmem
        exact h.not_listed (Finset.mem_Ico.mpr (by omega)) hk hl)
      have hset : Finset.Ico (b + i) (b + i + m) \ Finset.Ico (b + i) (b + i + 2 ^ k) =
          Finset.Ico (b + (i + 2 ^ k)) (b + (i + 2 ^ k) + (m - 2 ^ k)) := by
        ext x
        simp only [Finset.mem_sdiff, Finset.mem_Ico]
        omega
      rw [hset] at hput
      rw [Nat.add_assoc]
      exact ih (m - 2 ^ k) (by omega) (i + 2 ^ k) _ hput (by omega)
        (Nat.dvd_add hd (Nat.dvd_refl _)) (fun hlt => by
          have := (hlow hlt).1
          rw [Nat.pow_succ] at this ⊢
          exact ⟨by omega, fun h2 => by omega⟩)
    · exact ⟨m, i, s, rfl, h, hn, hd, by omega⟩

theorem memmapBlocks_spec {z b n : ℕ} (hz : Z[z]? = some (b, n)) :
    ∀ (k m i : ℕ) (s : Buddy), k ≤ MAX_ORDER → Inv Z g N s (Finset.Ico (b + i) (b + i + m)) →
      i + m = n → 2 ^ k ∣ i → (k < MAX_ORDER → m < 2 ^ (k + 1) ∧ 2 ^ (k + 1) ∣ i) →
      Inv Z g N (memmapBlocks k m (b + i) s) ∅ := by
  intro k
  induction k with
  | zero =>
    intro m i s hk h hn hd hlow
    rw [memmapBlocks]
    split
    · rename_i hm; subst hm; simpa using h
    · obtain ⟨m', i', s', hrun, hinv, _, _, hlt⟩ :=
        memmapRun_spec hz hk m i s h hn hd fun hlt => ⟨(hlow hlt).1, fun _ => (hlow hlt).2⟩
      have hm' : m' = 0 := by simpa using hlt
      subst hm'
      rw [hrun]
      simpa using hinv
  | succ k ih =>
    intro m i s hk h hn hd hlow
    rw [memmapBlocks]
    split
    · rename_i hm; subst hm; simpa using h
    · obtain ⟨m', i', s', hrun, hinv, hn', hd', hlt⟩ :=
        memmapRun_spec hz hk m i s h hn hd fun hlt => ⟨(hlow hlt).1, fun _ => (hlow hlt).2⟩
      rw [hrun]
      exact ih m' i' s' (by omega) hinv hn'
        (Nat.dvd_trans (Nat.pow_dvd_pow 2 (Nat.le_succ k)) hd') fun _ => ⟨hlt, hd'⟩

/-- **`buddy_init_memmap`** on a range of reserved pages turns it into a free zone. -/
theorem buddyInitMemmap_spec (h : Inv Z g N s ∅) (hg : ∀ p < N, (g p).flags.reserved = true)
    {b n : ℕ} (hN : b + n ≤ N) (hn : 0 < n) (hz : Z.length < MAX_ZONE_NUM)
    (hdisj : Disjoint (initPages Z) (Finset.Ico b (b + n))) :
    ∃ s', buddyInitMemmap b n s = some s' ∧ Inv (Z ++ [(b, n)]) g N s' ∅ := by
  have hpages : memmapPages b n s = some (s.memmapRange b n) := by
    refine pageLoop_spec _ _ n b s fun q hq hlt => ?_
    rw [h.layout.outside q fun hinit =>
      Finset.disjoint_left.mp hdisj hinit (Finset.mem_Ico.mpr ⟨hq, hlt⟩)]
    exact hg q (by omega)
  have hzone : (Z ++ [(b, n)])[Z.length]? = some (b, n) := by simp
  refine ⟨memmapBlocks MAX_ORDER n b { s.memmapRange b n with
    zones := Function.update s.zones s.zoneNum b, zoneNum := s.zoneNum + 1 }, ?_, ?_⟩
  · have hguard : 0 < n ∧ s.zoneNum < MAX_ZONE_NUM := ⟨hn, by rwa [h.layout.zoneNum]⟩
    simp only [buddyInitMemmap, guard, if_pos hguard, hpages]
    rfl
  · have := memmapBlocks_spec hzone MAX_ORDER n 0 _ (Nat.le_refl _)
      (by simpa using h.newZone hN hn hdisj) (by omega) (by simp)
      (fun hlt => absurd hlt (Nat.lt_irrefl _))
    simpa using this

end Buddy

end Ucore
