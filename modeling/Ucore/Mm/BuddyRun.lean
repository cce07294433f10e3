import Ucore.Mm.BuddySpec

/-!
# Runs of the buddy allocator

The allocator is booted (`page_init` reserves every page, `buddy_init` empties the lists), gets its
zones, and then serves any interleaving of allocations and frees.  `Run` is this system, with the
set of the allocated pages as ghost state: a free may name any range of allocated pages of one
zone, whatever calls they came from.

* `buddy_accounting` — in every reachable state the free lists account exactly for the pages that
  are not allocated, and no assertion fails on the next call.
* `buddy_coalescing` — in every reachable state no two buddies are both free, so the free blocks
  are a function of the allocated pages, whatever the history; and an allocation fails only if no
  aligned run of the wanted size is free.
-/

namespace Ucore

open DyadicTiling

namespace Buddy

/-- The allocator after `page_init` has reserved the `N` pages and `buddy_init` has run; `mem` and
`areas` are whatever the memory held before. -/
def boot (N : ℕ) (mem : ℕ → Page) (areas : ℕ → FreeArea) : Buddy :=
  buddyInit
    { npage := N, pages := fun p => if p < N then (mem p).setReserved else mem p
      freeArea := areas, zones := fun _ => 0, zoneNum := 0 }

/-- `buddy_init_memmap` on each range in turn. -/
def initZones (Z : Zones) (s : Buddy) : Option Buddy :=
  Z.foldlM (fun s z => buddyInitMemmap z.1 z.2 s) s

/-- At most ten non-empty, pairwise disjoint ranges of existing pages. -/
structure LegalZones (N : ℕ) (Z : Zones) : Prop where
  count : Z.length ≤ MAX_ZONE_NUM
  range : ∀ z ∈ Z, 0 < z.2 ∧ z.1 + z.2 ≤ N
  disjoint : Z.Pairwise fun x y =>
    Disjoint (Finset.Ico x.1 (x.1 + x.2)) (Finset.Ico y.1 (y.1 + y.2))

/-- A range of allocated pages of one zone, of a size `buddy_free_pages` is called with. -/
structure LegalFree (Z : Zones) (A : Finset ℕ) (base n : ℕ) : Prop where
  pos : 1 ≤ n
  size : n ≤ 1024
  allocated : Finset.Ico base (base + n) ⊆ A
  oneZone : ∃ z ∈ Z, z.1 ≤ base ∧ base + n ≤ z.1 + z.2

/-- Interleavings of allocations and frees from `s₁`; the last argument is the set of the pages
allocated so far. -/
inductive Run (Z : Zones) (s₁ : Buddy) : Buddy → Finset ℕ → Prop where
  | start : Run Z s₁ s₁ ∅
  | alloc {s s' : Buddy} {A : Finset ℕ} {n p : ℕ} : Run Z s₁ s A → 1 ≤ n → n ≤ 1024 →
      buddyAllocPages n s = some (some p, s') → Run Z s₁ s' (A ∪ Finset.Ico p (p + n))
  | allocNull {s s' : Buddy} {A : Finset ℕ} {n : ℕ} : Run Z s₁ s A → 1 ≤ n → n ≤ 1024 →
      buddyAllocPages n s = some (none, s') → Run Z s₁ s' A
  | free {s s' : Buddy} {A : Finset ℕ} {base n : ℕ} : Run Z s₁ s A → LegalFree Z A base n →
      buddyFreePages base n s = some s' → Run Z s₁ s' (A \ Finset.Ico base (base + n))

/-- `p` heads a block on list `k`. -/
def FreeBlock (s : Buddy) (k p : ℕ) : Prop := k ≤ MAX_ORDER ∧ p ∈ (s.freeArea k).freeList

/-- The free lists account exactly for the initialised pages that are not in `A`. -/
structure Accounting (Z : Zones) (mem : ℕ → Page) (s : Buddy) (A : Finset ℕ) : Prop where
  disjoint : ∀ k p k' p', s.FreeBlock k p → s.FreeBlock k' p' → (k, p) ≠ (k', p') →
    Disjoint (Finset.Ico p (p + 2 ^ k)) (Finset.Ico p' (p' + 2 ^ k'))
  placed : ∀ k p, s.FreeBlock k p → ∃ z b n : ℕ, Z[z]? = some (b, n) ∧
    (s.pages p).zoneNum = z ∧ b ≤ p ∧ p + 2 ^ k ≤ b + n ∧ s.page2idx p = p - b ∧
    2 ^ k ∣ s.page2idx p
  flagged : ∀ p ∈ initPages Z, (s.pages p).flags.property = true ↔ ∃ k, s.FreeBlock k p
  order : ∀ k p, s.FreeBlock k p → (s.pages p).property = k
  untouched : ∀ p, p ∉ initPages Z → s.pages p = mem p
  nodup : ∀ k ≤ MAX_ORDER, (s.freeArea k).freeList.Nodup
  nrFree : ∀ k ≤ MAX_ORDER, (s.freeArea k).nrFree = (s.freeArea k).freeList.length
  covered : ∀ p, (∃ k q, s.FreeBlock k q ∧ p ∈ Finset.Ico q (q + 2 ^ k)) ↔
    p ∈ initPages Z ∧ p ∉ A
  total : s.buddyNrFreePages = (initPages Z \ A).card

section Run

variable {Z : Zones} {g : ℕ → Page} {N : ℕ} {s s₁ : Buddy} {A : Finset ℕ}

theorem boot_reserved (N : ℕ) (mem : ℕ → Page) (areas : ℕ → FreeArea) :
    ∀ p < N, ((boot N mem areas).pages p).flags.reserved = true := by
  intro p hp
  simp [boot, buddyInit, hp, Page.setReserved]

theorem boot_inv (N : ℕ) (mem : ℕ → Page) (areas : ℕ → FreeArea) :
    Inv [] (boot N mem areas).pages N (boot N mem areas) ∅ where
  layout := ⟨rfl, rfl, by simp, by simp, by simp, fun _ _ => rfl⟩
  listed := by
    intro k p hk hp
    simp [boot, buddyInit, hk] at hp
  nodup := by
    intro k hk
    simp [boot, buddyInit, hk]
  nrFree := by
    intro k hk
    simp [boot, buddyInit, hk]
  flagged := by simp [initPages]
  order := by
    intro k p hk hp
    simp [boot, buddyInit, hk] at hp
  allocated := Finset.empty_subset _
  tile := by simp
  coalesced := by simp
  count := by
    have hzero : ∀ k ∈ Finset.range (MAX_ORDER + 1),
        ((boot N mem areas).freeArea k).nrFree * 2 ^ k = 0 := by
      intro k hk
      have : k ≤ MAX_ORDER := by have := Finset.mem_range.mp hk; omega
      simp [boot, buddyInit, this]
    rw [buddyNrFreePages_eq_sum, Finset.sum_eq_zero hzero]
    simp [initPages]

theorem initZones_spec (hg : ∀ p < N, (g p).flags.reserved = true) :
    ∀ (W Z : Zones) (s : Buddy), Inv Z g N s ∅ → LegalZones N (Z ++ W) →
      ∃ s', initZones W s = some s' ∧ Inv (Z ++ W) g N s' ∅
  | [], Z, s, h, _ => ⟨s, rfl, by simpa using h⟩
  | (b, n) :: W, Z, s, h, hZ => by
    have hrange := hZ.range (b, n) (by simp)
    have hlen : Z.length < MAX_ZONE_NUM := by
      have := hZ.count
      simp at this
      omega
    have hdisj : Disjoint (initPages Z) (Finset.Ico b (b + n)) := by
      rw [initPages, Finset.disjoint_biUnion_left]
      intro x hx
      exact (List.pairwise_append.mp hZ.disjoint).2.2 x (List.mem_toFinset.mp hx) (b, n) (by simp)
    obtain ⟨s', hrun, hinv⟩ := buddyInitMemmap_spec h hg hrange.2 hrange.1 hlen hdisj
    obtain ⟨s'', hrun', hinv'⟩ := initZones_spec hg W (Z ++ [(b, n)]) s' hinv (by simpa using hZ)
    refine ⟨s'', ?_, by simpa using hinv'⟩
    simp only [initZones, List.foldlM_cons, hrun]
    exact hrun'

theorem Inv.free_spec (h : Inv Z g N s A) (hg : ∀ p < N, (g p).flags.reserved = true)
    {base n : ℕ} (hf : LegalFree Z A base n) :
    ∃ s', buddyFreePages base n s = some s' ∧ Inv Z g N s' (A \ Finset.Ico base (base + n)) := by
  obtain ⟨⟨b, len⟩, hmem, hb, hend⟩ := hf.oneZone
  obtain ⟨z, hz⟩ := List.mem_iff_getElem?.mp hmem
  obtain ⟨i, rfl⟩ := Nat.exists_eq_add_of_le hb
  simp only at hend
  exact buddyFreePages_spec hg h hz hf.pos hf.size (by omega) hf.allocated

/-- **Every reachable state satisfies the invariant.** -/
theorem Run.inv (hg : ∀ p < N, (g p).flags.reserved = true) (h₁ : Inv Z g N s₁ ∅)
    (hrun : Run Z s₁ s A) : Inv Z g N s A := by
  induction hrun with
  | start => exact h₁
  | alloc _ hn hn' halloc ih =>
    obtain ⟨k, _, _, ⟨hnull, _⟩ | ⟨z, b, len, i, s'', _, hsome, _, _, _, hinv⟩⟩ :=
      buddyAllocPages_spec hg ih hn hn'
    · rw [hnull] at halloc; cases halloc
    · rw [hsome] at halloc
      obtain ⟨rfl, rfl⟩ := Prod.mk.inj (Option.some.inj halloc) |>.imp Option.some.inj id
      exact hinv
  | allocNull _ hn hn' halloc ih =>
    obtain ⟨k, _, _, ⟨hnull, _⟩ | ⟨z, b, len, i, s'', _, hsome, _⟩⟩ :=
      buddyAllocPages_spec hg ih hn hn'
    · rw [hnull] at halloc
      cases halloc
      exact ih
    · rw [hsome] at halloc; cases halloc
  | free _ hf hfree ih =>
    obtain ⟨s'', hsome, hinv⟩ := ih.free_spec hg hf
    rw [hsome] at hfree
    cases hfree
    exact hinv

theorem Inv.accounting (h : Inv Z g N s A) : Accounting Z g s A where
  disjoint := by
    rintro k p k' p' ⟨hk, hp⟩ ⟨hk', hp'⟩ hne
    obtain ⟨z, b, n, i, hz, rfl, hmem, hend, _, _⟩ := h.block_of_listed hk hp
    obtain ⟨z', b', n', i', hz', rfl, hmem', hend', _, _⟩ := h.block_of_listed hk' hp'
    rw [Finset.disjoint_left]
    intro x hx hx'
    rw [Finset.mem_Ico] at hx hx'
    obtain ⟨rfl, rfl, rfl⟩ := h.layout.zone_unique hz hz' (p := x) (by omega) (by omega)
    have := (h.tile z b n hz).disjoint _ hmem _ hmem' (x - b)
      (by simp only [mem_block]; omega) (by simp only [mem_block]; omega)
    obtain ⟨rfl, rfl⟩ := Prod.mk.inj this
    exact hne rfl
  placed := by
    rintro k p ⟨hk, hp⟩
    obtain ⟨z, b, n, i, hz, rfl, hmem, hend, hd, _⟩ := h.block_of_listed hk hp
    have hpos := Nat.two_pow_pos k
    have hidx := h.layout.page2idx hz (i := i) (by omega)
    refine ⟨z, b, n, hz, (h.layout.zone z b n hz (b + i) (by omega) (by omega)).1, by omega,
      by omega, by rw [hidx]; omega, by rwa [hidx]⟩
  flagged := h.flagged
  order := fun k p ⟨hk, hp⟩ => h.order k p hk hp
  untouched := h.layout.outside
  nodup := h.nodup
  nrFree := h.nrFree
  covered := by
    intro p
    constructor
    · rintro ⟨k, q, ⟨hk, hq⟩, hp⟩
      obtain ⟨z, b, n, i, hz, rfl, hmem, hend, _, hfree⟩ := h.block_of_listed hk hq
      rw [Finset.mem_Ico] at hp
      obtain ⟨y, rfl⟩ := Nat.exists_eq_add_of_le (show b ≤ p by omega)
      exact ⟨mem_initPages.mpr ⟨z, b, n, hz, by omega, by omega⟩,
        hfree y (by simp only [mem_block]; omega)⟩
    · rintro ⟨hp, hA⟩
      obtain ⟨z, b, n, hz, hb, hn⟩ := mem_initPages.mp hp
      obtain ⟨y, rfl⟩ := Nat.exists_eq_add_of_le hb
      obtain ⟨⟨i, k⟩, hmem, hy⟩ := ((h.tile z b n hz).cover y).mp ⟨by omega, hA⟩
      obtain ⟨hk, _, hl⟩ := (h.mem_freeBlocks hz).mp hmem
      simp only [mem_block] at hy
      exact ⟨k, b + i, ⟨hk, hl⟩, Finset.mem_Ico.mpr (by omega)⟩
  total := by
    have := Finset.card_sdiff_add_card_eq_card h.allocated
    have := h.count
    omega

/-- The booted and populated allocator satisfies the invariant with nothing allocated. -/
theorem initZones_boot (mem : ℕ → Page) (areas : ℕ → FreeArea) (hZ : LegalZones N Z) :
    ∃ s₁, initZones Z (boot N mem areas) = some s₁ ∧
      Inv Z (boot N mem areas).pages N s₁ ∅ := by
  simpa using initZones_spec (boot_reserved N mem areas) Z [] _ (boot_inv N mem areas)
    (by simpa using hZ)

/-- **Accounting of the buddy allocator.**  After `buddy_init` and any legal sequence of
`buddy_init_memmap` calls, in every state reached by allocations and frees the free lists account
exactly for the initialised pages that are not allocated; the next call does not panic, and an
allocation hands out pages that were not allocated. -/
theorem buddy_accounting (N : ℕ) (mem : ℕ → Page) (areas : ℕ → FreeArea) (Z : Zones)
    (hZ : LegalZones N Z) :
    ∃ s₁, initZones Z (boot N mem areas) = some s₁ ∧ ∀ s A, Run Z s₁ s A →
      Accounting Z (boot N mem areas).pages s A ∧
      (∀ n, 1 ≤ n → n ≤ 1024 → ∃ r s', buddyAllocPages n s = some (r, s') ∧
        ∀ p, r = some p → Finset.Ico p (p + n) ⊆ initPages Z \ A) ∧
      (∀ base n, LegalFree Z A base n → ∃ s', buddyFreePages base n s = some s') := by
  have hg := boot_reserved N mem areas
  obtain ⟨s₁, hinit, h₁⟩ := initZones_boot mem areas hZ
  refine ⟨s₁, hinit, fun s A hrun => ?_⟩
  have h := hrun.inv hg h₁
  refine ⟨h.accounting, fun n hn hn' => ?_, fun base n hf => ?_⟩
  · obtain ⟨k, hgo, _, ⟨hnull, _⟩ | ⟨z, b, len, i, s', hz, hsome, _, hend, hdisj, hinv⟩⟩ :=
      buddyAllocPages_spec hg h hn hn'
    · exact ⟨none, s, hnull, by simp⟩
    · refine ⟨some (b + i), s', hsome, ?_⟩
      rintro p hp
      obtain rfl := Option.some.inj hp
      have hle : n ≤ 2 ^ k := by
        obtain ⟨k', hgo', _, hle, _⟩ := getorder_spec (m := n) hn'
        rw [hgo] at hgo'
        cases hgo'
        exact hle
      intro x hx
      rw [Finset.mem_sdiff]
      refine ⟨hinv.allocated (Finset.mem_union_right _ hx), fun hxA => ?_⟩
      exact Finset.disjoint_left.mp hdisj hxA (Finset.Ico_subset_Ico_right (by omega) hx)
  · obtain ⟨s', hsome, _⟩ := h.free_spec hg hf
    exact ⟨s', hsome⟩

theorem legalZones_two : LegalZones 12 [(3, 5), (10, 2)] where
  count := by decide
  range := by decide
  disjoint := by decide

theorem buddy_accounting_two_zones :
    ∃ s₁, initZones [(3, 5), (10, 2)]
        (boot 12 (fun _ => ⟨0, PageFlags.zero, 0, 0, 0⟩) fun _ => ⟨[], 0⟩) = some s₁ ∧
      s₁.buddyNrFreePages = 7 := by
  obtain ⟨s₁, hinit, hall⟩ := buddy_accounting 12 (fun _ => ⟨0, PageFlags.zero, 0, 0, 0⟩)
    (fun _ => ⟨[], 0⟩) [(3, 5), (10, 2)] legalZones_two
  refine ⟨s₁, hinit, ?_⟩
  rw [(hall s₁ ∅ .start).1.total]
  decide

/-! ## Coalescing -/

/-- The allocated pages alone determine the free blocks. -/
theorem Inv.freeBlocks_eq {s s' : Buddy} {N' : ℕ} {g' : ℕ → Page} (h : Inv Z g N s A)
    (h' : Inv Z g' N' s' A) (z : ℕ) : s.freeBlocks z = s'.freeBlocks z := by
  rcases Nat.lt_or_ge z Z.length with hlt | hge
  · have hz : Z[z]? = some (Z[z].1, Z[z].2) := List.getElem?_eq_getElem hlt
    exact (h.tile z _ _ hz).unique (h.coalesced z hlt) (h'.tile z _ _ hz) (h'.coalesced z hlt)
  · rw [h.freeBlocks_of_ge hge, h'.freeBlocks_of_ge hge]

/-- A list of order at least `k` holds a block exactly when some zone has an aligned free run of
`2 ^ k` pages. -/
theorem Inv.exists_block_iff (h : Inv Z g N s A) {k : ℕ} (hk : k ≤ MAX_ORDER) :
    (∃ j, k ≤ j ∧ j ≤ MAX_ORDER ∧ (s.freeArea j).freeList ≠ []) ↔
      ∃ z b len i : ℕ, Z[z]? = some (b, len) ∧ 2 ^ k ∣ i ∧ i + 2 ^ k ≤ len ∧
        ∀ x ∈ Finset.Ico (b + i) (b + i + 2 ^ k), x ∉ A := by
  constructor
  · rintro ⟨j, hkj, hj, hne⟩
    obtain ⟨p, l, hl⟩ := List.exists_cons_of_ne_nil hne
    obtain ⟨z, b, n, i, hz, rfl, _, hend, hd, hfree⟩ :=
      h.block_of_listed (p := p) hj (by rw [hl]; simp)
    have hle : 2 ^ k ≤ 2 ^ j := Nat.pow_le_pow_right (by decide) hkj
    refine ⟨z, b, n, i, hz, Nat.dvd_trans (Nat.pow_dvd_pow 2 hkj) hd, by omega, fun x hx => ?_⟩
    rw [Finset.mem_Ico] at hx
    obtain ⟨y, rfl⟩ := Nat.exists_eq_add_of_le (show b ≤ x by omega)
    exact hfree y (by simp only [mem_block]; omega)
  · rintro ⟨z, b, len, i, hz, hd, hend, hfree⟩
    have hlt := (List.getElem?_eq_some_iff.mp hz).1
    have hsub : block i k ⊆ freeSet b len A := by
      intro x hx
      simp only [mem_block] at hx
      exact ⟨by omega, hfree _ (Finset.mem_Ico.mpr (by omega))⟩
    obtain ⟨⟨i', j⟩, hmem, hkj, _⟩ :=
      (h.tile z b len hz).exists_le_of_subset (h.coalesced z hlt) hk hd hsub
    obtain ⟨hj, _, hl⟩ := (h.mem_freeBlocks hz).mp hmem
    exact ⟨j, hkj, hj, List.ne_nil_of_mem hl⟩

/-- **Coalescing is complete and history independent.**  In every reachable state no two buddies
are both free; two runs that leave the same pages allocated have the same free blocks, so freeing
everything restores the blocks `buddy_init_memmap` built; and an allocation returns `NULL` exactly
when no zone has an aligned free run of the wanted size. -/
theorem buddy_coalescing (N : ℕ) (mem : ℕ → Page) (areas : ℕ → FreeArea) (Z : Zones)
    (hZ : LegalZones N Z) :
    ∃ s₁, initZones Z (boot N mem areas) = some s₁ ∧
      (∀ s A, Run Z s₁ s A → ∀ z < Z.length, ∀ i k, k < 10 →
        ¬ ((i, k) ∈ s.freeBlocks z ∧ (i ^^^ 2 ^ k, k) ∈ s.freeBlocks z)) ∧
      (∀ s s' A, Run Z s₁ s A → Run Z s₁ s' A → ∀ z, s.freeBlocks z = s'.freeBlocks z) ∧
      (∀ s, Run Z s₁ s ∅ → ∀ z, s.freeBlocks z = s₁.freeBlocks z) ∧
      (∀ s A, Run Z s₁ s A → ∀ n, 1 ≤ n → n ≤ 1024 → ∃ k, getorder n = some k ∧
        ((∃ s', buddyAllocPages n s = some (none, s')) ↔
          ¬ ∃ z b len i : ℕ, Z[z]? = some (b, len) ∧ 2 ^ k ∣ i ∧ i + 2 ^ k ≤ len ∧
            ∀ x ∈ Finset.Ico (b + i) (b + i + 2 ^ k), x ∉ A)) := by
  have hg := boot_reserved N mem areas
  obtain ⟨s₁, hinit, h₁⟩ := initZones_boot mem areas hZ
  refine ⟨s₁, hinit, ?_, ?_, ?_, ?_⟩
  · rintro s A hrun z hz i k hk ⟨hi, hj⟩
    exact (hrun.inv hg h₁).coalesced z hz i k hk hi hj
  · intro s s' A hrun hrun'
    exact (hrun.inv hg h₁).freeBlocks_eq (hrun'.inv hg h₁)
  · intro s hrun
    exact (hrun.inv hg h₁).freeBlocks_eq h₁
  · intro s A hrun n hn hn'
    have h := hrun.inv hg h₁
    obtain ⟨k, hgo, hk, hcase⟩ := buddyAllocPages_spec hg h hn hn'
    refine ⟨k, hgo, ?_⟩
    rw [← h.exists_block_iff hk]
    rcases hcase with ⟨hnull, hempty⟩ | ⟨z, b, len, i, s', hz, hsome, hd, hend, hdisj, _⟩
    · refine iff_of_true ⟨s, hnull⟩ ?_
      rintro ⟨j, hkj, hj, hne⟩
      exact hne (hempty j hkj hj)
    · refine iff_of_false ?_ (not_not.mpr ?_)
      · rintro ⟨s'', hnull⟩
        rw [hsome] at hnull
        cases hnull
      · rw [h.exists_block_iff hk]
        exact ⟨z, b, len, i, hz, hd, hend, fun x hx hxA => Finset.disjoint_left.mp hdisj hxA hx⟩

theorem buddy_coalescing_two_zones :
    ∃ s₁, initZones [(3, 5), (10, 2)]
        (boot 12 (fun _ => ⟨0, PageFlags.zero, 0, 0, 0⟩) fun _ => ⟨[], 0⟩) = some s₁ ∧
      ¬ ((0, 1) ∈ s₁.freeBlocks 1 ∧ (2, 1) ∈ s₁.freeBlocks 1) := by
  obtain ⟨s₁, hinit, hco, _⟩ := buddy_coalescing 12 (fun _ => ⟨0, PageFlags.zero, 0, 0, 0⟩)
    (fun _ => ⟨[], 0⟩) [(3, 5), (10, 2)] legalZones_two
  exact ⟨s₁, hinit, hco s₁ ∅ .start 1 (by decide) 0 1 (by decide)⟩

end Run

end Buddy

end Ucore
