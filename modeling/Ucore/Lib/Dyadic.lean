import Mathlib.Data.Nat.Bitwise
import Mathlib.Data.Set.Lattice
import Mathlib.Tactic

/-!
# Dyadic blocks and coalesced tilings

A *dyadic block* of order `k` is an interval `[i, i + 2 ^ k)` of natural numbers whose start is
a multiple of `2 ^ k`.  Its *companion* is the block starting at `i ^^^ 2 ^ k`; the two together
form the block of order `k + 1` starting at `i &&& (i ^^^ 2 ^ k)`.

* `Tiling M F U` — the blocks of `F`, all of order at most `M`, are pairwise disjoint and cover
  exactly `U`.
* `Coalesced M F` — no block of order below `M` lies in `F` together with its companion.

Principal results: `Tiling.exists_le_of_subset` (a completely covered dyadic block lies inside
one block of a coalesced tiling), `Tiling.mem_iff_maximal` (the blocks of a coalesced tiling are
the maximal dyadic blocks inside the covered set) and `Tiling.unique` (so the covered set alone
determines the tiling).  `Tiling.insert` and `Tiling.erase` are the two elementary updates.
-/

namespace DyadicTiling

/-- The block of order `k` starting at `i`. -/
def block (i k : ℕ) : Set ℕ := Set.Ico i (i + 2 ^ k)

@[simp] theorem mem_block {i k x : ℕ} : x ∈ block i k ↔ i ≤ x ∧ x < i + 2 ^ k := Iff.rfl

theorem start_mem_block (i k : ℕ) : i ∈ block i k :=
  ⟨Nat.le_refl _, Nat.lt_add_of_pos_right (Nat.two_pow_pos k)⟩

/-! ## The companion of an aligned block -/

theorem companion_mul (q k : ℕ) : (q * 2 ^ k) ^^^ 2 ^ k = (q ^^^ 1) * 2 ^ k := by
  have h := Nat.shiftLeft_xor_distrib (a := q) (b := 1) (i := k)
  simpa [Nat.shiftLeft_eq] using h.symm

theorem xor_one_cases (q : ℕ) : (q % 2 = 0 ∧ q ^^^ 1 = q + 1) ∨ (q % 2 = 1 ∧ q ^^^ 1 = q - 1) := by
  have hmod := Nat.mod_two_eq_zero_or_one q
  have hdiv : (q ^^^ 1) / 2 = q / 2 := by
    rw [Nat.xor_div_two]; simp
  have hm2 : (q ^^^ 1) % 2 = (q + 1) % 2 := by
    rw [Nat.xor_mod_two_eq]
  rcases hmod with h | h
  · exact Or.inl ⟨h, by omega⟩
  · exact Or.inr ⟨h, by omega⟩

/-- An aligned start is followed or preceded by its companion, according to bit `k`. -/
theorem companion_cases {i k : ℕ} (h : 2 ^ k ∣ i) :
    (2 ^ (k + 1) ∣ i ∧ i ^^^ 2 ^ k = i + 2 ^ k) ∨
      (2 ^ k ≤ i ∧ 2 ^ (k + 1) ∣ i - 2 ^ k ∧ i ^^^ 2 ^ k = i - 2 ^ k) := by
  obtain ⟨q, rfl⟩ := h
  rw [Nat.mul_comm, companion_mul, Nat.pow_succ]
  rcases xor_one_cases q with ⟨hq, he⟩ | ⟨hq, he⟩
  · refine Or.inl ⟨?_, by rw [he, Nat.add_mul, Nat.one_mul]⟩
    rw [Nat.mul_comm q]
    exact Nat.mul_dvd_mul_left _ (Nat.dvd_of_mod_eq_zero hq)
  · have hq1 : 1 ≤ q := by omega
    have hsub : q * 2 ^ k - 2 ^ k = (q - 1) * 2 ^ k := by rw [Nat.sub_mul, Nat.one_mul]
    refine Or.inr ⟨Nat.le_mul_of_pos_left _ hq1, ?_, by rw [he, hsub]⟩
    rw [hsub, Nat.mul_comm (q - 1)]
    exact Nat.mul_dvd_mul_left _ (Nat.dvd_of_mod_eq_zero (by omega))

/-- At a multiple of `2 ^ (k + 1)` the companion of order `k` follows. -/
theorem companion_of_dvd_succ {i k : ℕ} (h : 2 ^ (k + 1) ∣ i) : i ^^^ 2 ^ k = i + 2 ^ k := by
  rcases companion_cases (Nat.dvd_trans (Nat.pow_dvd_pow 2 (Nat.le_succ k)) h) with
    ⟨_, he⟩ | ⟨hle, hd, _⟩
  · exact he
  · exfalso
    have h2 : 2 ^ (k + 1) ∣ 2 ^ k := by
      have := Nat.dvd_sub h hd
      rwa [Nat.sub_sub_self hle] at this
    have := Nat.le_of_dvd (Nat.two_pow_pos k) h2
    have := Nat.pow_lt_pow_succ (n := k) (by decide : 1 < 2)
    omega

theorem companion_dvd {i k : ℕ} (h : 2 ^ k ∣ i) : 2 ^ k ∣ i ^^^ 2 ^ k := by
  rcases companion_cases h with ⟨_, he⟩ | ⟨_, h', he⟩
  · rw [he]; exact Nat.dvd_add h (Nat.dvd_refl _)
  · rw [he]; exact Nat.dvd_sub h (Nat.dvd_refl _)

theorem companion_companion (i k : ℕ) : (i ^^^ 2 ^ k) ^^^ 2 ^ k = i := by
  rw [Nat.xor_assoc, Nat.xor_self, Nat.xor_zero]

theorem companion_ne (i k : ℕ) : i ^^^ 2 ^ k ≠ i := by
  intro h
  have hz : 2 ^ k = 0 := by
    have := congrArg (fun x => i ^^^ x) h
    simp at this
  exact absurd hz (Nat.two_pow_pos k).ne'

/-- The start of the block that an aligned block forms with its companion. -/
def parent (i k : ℕ) : ℕ := i &&& (i ^^^ 2 ^ k)

/-- Clearing the bit shared with the companion leaves the smaller of the two starts. -/
theorem and_add_two_pow {i k : ℕ} (h : 2 ^ (k + 1) ∣ i) : i &&& (i + 2 ^ k) = i := by
  apply Nat.eq_of_testBit_eq
  intro j
  have hlow : ∀ j, j < k + 1 → i.testBit j = false := by
    intro j hj
    obtain ⟨q, rfl⟩ := h
    rw [Nat.mul_comm, Nat.testBit_mul_two_pow]
    simp; intro hle; omega
  rw [Nat.testBit_and, ← companion_of_dvd_succ h, Nat.testBit_xor, Nat.testBit_two_pow]
  by_cases hj : k = j
  · subst hj; simp [hlow k (Nat.lt_succ_self k)]
  · simp [hj]

theorem parent_cases {i k : ℕ} (h : 2 ^ k ∣ i) :
    (2 ^ (k + 1) ∣ i ∧ i ^^^ 2 ^ k = i + 2 ^ k ∧ parent i k = i) ∨
      (2 ^ k ≤ i ∧ 2 ^ (k + 1) ∣ i - 2 ^ k ∧ i ^^^ 2 ^ k = i - 2 ^ k ∧
        parent i k = i - 2 ^ k) := by
  rcases companion_cases h with ⟨hd, he⟩ | ⟨hle, hd, he⟩
  · exact Or.inl ⟨hd, he, by rw [parent, he, and_add_two_pow hd]⟩
  · refine Or.inr ⟨hle, hd, he, ?_⟩
    have := and_add_two_pow hd
    rw [Nat.sub_add_cancel hle] at this
    rw [parent, he, Nat.and_comm, this]

theorem parent_dvd {i k : ℕ} (h : 2 ^ k ∣ i) : 2 ^ (k + 1) ∣ parent i k := by
  rcases parent_cases h with ⟨hd, _, hp⟩ | ⟨_, hd, _, hp⟩ <;> rw [hp] <;> exact hd

/-- A block and its companion make up the parent block. -/
theorem mem_block_parent {i k : ℕ} (h : 2 ^ k ∣ i) (x : ℕ) :
    x ∈ block (parent i k) (k + 1) ↔ x ∈ block i k ∨ x ∈ block (i ^^^ 2 ^ k) k := by
  simp only [mem_block, Nat.pow_succ]
  rcases parent_cases h with ⟨_, he, hp⟩ | ⟨hle, _, he, hp⟩ <;> rw [hp, he] <;> omega

/-! ## Nesting -/

theorem block_subset_of_dvd {i k j m : ℕ} (hi : 2 ^ k ∣ i) (hj : 2 ^ m ∣ j) (hkm : k ≤ m) {x : ℕ}
    (hxi : x ∈ block i k) (hxj : x ∈ block j m) : block i k ⊆ block j m := by
  obtain ⟨a, rfl⟩ := hi
  obtain ⟨b, rfl⟩ := hj
  obtain ⟨d, rfl⟩ := Nat.exists_eq_add_of_le hkm
  intro y hy
  simp only [mem_block, Nat.pow_add] at *
  have hpos := Nat.two_pow_pos k
  have h1 : 2 ^ d * b ≤ a := by
    by_contra hlt
    have : a + 1 ≤ 2 ^ d * b := by omega
    have := Nat.mul_le_mul_left (2 ^ k) this
    rw [Nat.mul_add] at this
    nlinarith [hxi.2, hxj.1]
  have h2 : a + 1 ≤ 2 ^ d * b + 2 ^ d := by
    by_contra hlt
    have : 2 ^ d * b + 2 ^ d ≤ a := by omega
    have := Nat.mul_le_mul_left (2 ^ k) this
    rw [Nat.mul_add] at this
    nlinarith [hxi.1, hxj.2]
  have h1' := Nat.mul_le_mul_left (2 ^ k) h1
  have h2' := Nat.mul_le_mul_left (2 ^ k) h2
  rw [Nat.mul_add, Nat.mul_add] at h2'
  constructor
  · nlinarith [hy.1]
  · nlinarith [hy.2]

theorem block_injective_order {i k j m : ℕ} (h : block i k = block j m) : i = j ∧ k = m := by
  have hi : i ∈ block j m := h ▸ start_mem_block i k
  have hj : j ∈ block i k := h ▸ start_mem_block j m
  have hij : i = j := Nat.le_antisymm hj.1 hi.1
  subst hij
  refine ⟨rfl, ?_⟩
  have hkpos := Nat.two_pow_pos k
  have hmpos := Nat.two_pow_pos m
  have h1 : i + 2 ^ k - 1 ∈ block i m := h ▸ (by simp only [mem_block]; omega)
  have h2 : i + 2 ^ m - 1 ∈ block i k := h ▸ (by simp only [mem_block]; omega)
  simp only [mem_block] at h1 h2
  exact Nat.pow_right_injective (Nat.le_refl 2) (show 2 ^ k = 2 ^ m by omega)

theorem block_eq_of_subset {i k : ℕ} {b : ℕ × ℕ} (hi : 2 ^ k ∣ i) (hb : 2 ^ b.2 ∣ b.1)
    (hk : b.2 = k) (hs : block i k ⊆ block b.1 b.2) : b = (i, k) := by
  have hsub := block_subset_of_dvd hb hi (Nat.le_of_eq hk) (hs (start_mem_block i k))
    (start_mem_block i k)
  obtain ⟨h1, h2⟩ := block_injective_order (Set.Subset.antisymm hsub hs)
  exact Prod.ext h1 h2

/-! ## Tilings -/

/-- The blocks of `F` have order at most `M`, are pairwise disjoint and cover exactly `U`. -/
structure Tiling (M : ℕ) (F : Set (ℕ × ℕ)) (U : Set ℕ) : Prop where
  order_le : ∀ b ∈ F, b.2 ≤ M
  aligned : ∀ b ∈ F, 2 ^ b.2 ∣ b.1
  disjoint : ∀ b ∈ F, ∀ c ∈ F, ∀ x, x ∈ block b.1 b.2 → x ∈ block c.1 c.2 → b = c
  cover : ∀ x, x ∈ U ↔ ∃ b ∈ F, x ∈ block b.1 b.2

/-- No block of order below `M` lies in `F` together with its companion. -/
def Coalesced (M : ℕ) (F : Set (ℕ × ℕ)) : Prop :=
  ∀ i k, k < M → (i, k) ∈ F → (i ^^^ 2 ^ k, k) ∉ F

section Tiling

variable {M : ℕ} {F G : Set (ℕ × ℕ)} {U : Set ℕ}

theorem Tiling.block_subset (t : Tiling M F U) {b : ℕ × ℕ} (hb : b ∈ F) : block b.1 b.2 ⊆ U :=
  fun x hx => (t.cover x).mpr ⟨b, hb, hx⟩

/-- A completely covered dyadic block lies inside one block of a coalesced tiling. -/
theorem Tiling.exists_le_of_subset (t : Tiling M F U) (hc : Coalesced M F) :
    ∀ {m i : ℕ}, m ≤ M → 2 ^ m ∣ i → block i m ⊆ U →
      ∃ b ∈ F, m ≤ b.2 ∧ block i m ⊆ block b.1 b.2 := by
  intro m
  induction m with
  | zero =>
    intro i _ _ hU
    obtain ⟨b, hb, hx⟩ := (t.cover i).mp (hU (start_mem_block i 0))
    refine ⟨b, hb, Nat.zero_le _, fun y hy => ?_⟩
    have : y = i := by simp only [mem_block] at hy; omega
    exact this ▸ hx
  | succ m ih =>
    intro i hm hi hU
    have hle : m ≤ m + 1 := Nat.le_succ m
    have hi' : 2 ^ m ∣ i := Nat.dvd_trans (Nat.pow_dvd_pow 2 hle) hi
    -- the two halves are `i` and its companion
    have hpar : parent i m = i := by rw [parent, companion_of_dvd_succ hi, and_add_two_pow hi]
    have hhalf := mem_block_parent hi'
    rw [hpar] at hhalf
    obtain ⟨b, hb, hbm, hbs⟩ := ih (by omega) hi' (fun x hx => hU ((hhalf x).mpr (Or.inl hx)))
    obtain ⟨c, hcF, hcm, hcs⟩ := ih (i := i ^^^ 2 ^ m) (by omega) (companion_dvd hi')
      (fun x hx => hU ((hhalf x).mpr (Or.inr hx)))
    rcases Nat.lt_or_ge m b.2 with hlt | hge
    · exact ⟨b, hb, hlt, block_subset_of_dvd hi (t.aligned b hb) hlt
        ((hhalf i).mpr (Or.inl (start_mem_block i m))) (hbs (start_mem_block i m))⟩
    rcases Nat.lt_or_ge m c.2 with hlt | hge'
    · exact ⟨c, hcF, hlt, block_subset_of_dvd hi (t.aligned c hcF) hlt
        ((hhalf _).mpr (Or.inr (start_mem_block _ m))) (hcs (start_mem_block _ m))⟩
    · -- both halves are blocks of the family themselves
      have hbeq : b = (i, m) :=
        block_eq_of_subset hi' (t.aligned b hb) (Nat.le_antisymm hge hbm) hbs
      have hceq : c = (i ^^^ 2 ^ m, m) :=
        block_eq_of_subset (companion_dvd hi') (t.aligned c hcF) (Nat.le_antisymm hge' hcm) hcs
      exact absurd (hceq ▸ hcF) (hc i m (by omega) (hbeq ▸ hb))

/-- **The blocks of a coalesced tiling are the maximal dyadic blocks inside the covered set.** -/
theorem Tiling.mem_iff_maximal (t : Tiling M F U) (hc : Coalesced M F) (i k : ℕ) :
    (i, k) ∈ F ↔ k ≤ M ∧ 2 ^ k ∣ i ∧ block i k ⊆ U ∧
      (k < M → ¬ block (parent i k) (k + 1) ⊆ U) := by
  constructor
  · intro h
    refine ⟨t.order_le _ h, t.aligned _ h, t.block_subset h, fun hk hsub => ?_⟩
    obtain ⟨b, hb, hkb, hbs⟩ := t.exists_le_of_subset hc hk (parent_dvd (t.aligned _ h)) hsub
    have hx : i ∈ block b.1 b.2 :=
      hbs ((mem_block_parent (t.aligned _ h) i).mpr (Or.inl (start_mem_block i k)))
    have := t.disjoint _ h b hb i (start_mem_block i k) hx
    rw [← this] at hkb
    simp at hkb
  · rintro ⟨hk, hd, hsub, hmax⟩
    obtain ⟨b, hb, hkb, hbs⟩ := t.exists_le_of_subset hc hk hd hsub
    rcases Nat.lt_or_ge k b.2 with hlt | hge
    · exfalso
      have hkM : k < M := Nat.lt_of_lt_of_le hlt (t.order_le b hb)
      refine hmax hkM (Set.Subset.trans ?_ (t.block_subset hb))
      exact block_subset_of_dvd (parent_dvd hd) (t.aligned b hb) hlt
        ((mem_block_parent hd i).mpr (Or.inl (start_mem_block i k))) (hbs (start_mem_block i k))
    · exact block_eq_of_subset hd (t.aligned b hb) (Nat.le_antisymm hge hkb) hbs ▸ hb

/-- **Two coalesced tilings of one set are equal.** -/
theorem Tiling.unique (t : Tiling M F U) (hc : Coalesced M F) (t' : Tiling M G U)
    (hc' : Coalesced M G) : F = G := by
  ext ⟨i, k⟩
  rw [t.mem_iff_maximal hc, t'.mem_iff_maximal hc']

/-! ## Updates -/

theorem Tiling.insert (t : Tiling M F U) {i k : ℕ} (hk : k ≤ M) (hd : 2 ^ k ∣ i)
    (hdisj : ∀ x ∈ block i k, x ∉ U) :
    Tiling M (insert (i, k) F) (U ∪ block i k) where
  order_le := by
    rintro b (rfl | hb)
    · exact hk
    · exact t.order_le b hb
  aligned := by
    rintro b (rfl | hb)
    · exact hd
    · exact t.aligned b hb
  disjoint := by
    rintro b (rfl | hb) c (rfl | hc) x hx hx'
    · rfl
    · exact absurd (t.block_subset hc hx') (hdisj x hx)
    · exact absurd (t.block_subset hb hx) (hdisj x hx')
    · exact t.disjoint b hb c hc x hx hx'
  cover := by
    intro x
    constructor
    · rintro (hx | hx)
      · obtain ⟨b, hb, hxb⟩ := (t.cover x).mp hx
        exact ⟨b, Set.mem_insert_of_mem _ hb, hxb⟩
      · exact ⟨(i, k), Set.mem_insert _ _, hx⟩
    · rintro ⟨b, rfl | hb, hxb⟩
      · exact Or.inr hxb
      · exact Or.inl (t.block_subset hb hxb)

theorem Tiling.erase (t : Tiling M F U) {i k : ℕ} (hb : (i, k) ∈ F) :
    Tiling M (F \ {(i, k)}) (U \ block i k) where
  order_le := fun b h => t.order_le b h.1
  aligned := fun b h => t.aligned b h.1
  disjoint := fun b h c h' x hx hx' => t.disjoint b h.1 c h'.1 x hx hx'
  cover := by
    intro x
    constructor
    · rintro ⟨hx, hnx⟩
      obtain ⟨b, hbF, hxb⟩ := (t.cover x).mp hx
      refine ⟨b, ⟨hbF, fun he => hnx ?_⟩, hxb⟩
      rw [Set.mem_singleton_iff] at he
      subst he; exact hxb
    · rintro ⟨b, ⟨hbF, hne⟩, hxb⟩
      refine ⟨t.block_subset hbF hxb, fun hx => hne ?_⟩
      exact t.disjoint b hbF (i, k) hb x hxb hx

theorem Coalesced.mono (h : Coalesced M F) (hGF : G ⊆ F) : Coalesced M G :=
  fun i k hk hi hj => h i k hk (hGF hi) (hGF hj)

/-- Inserting a block whose companion is absent (or which has the largest order) keeps a
family coalesced. -/
theorem Coalesced.insert (h : Coalesced M F) {i k : ℕ} (hc : k < M → (i ^^^ 2 ^ k, k) ∉ F) :
    Coalesced M (insert (i, k) F) := by
  rintro j m hm (he | hj) (he' | hj')
  · obtain ⟨rfl, rfl⟩ := Prod.mk.inj he
    exact companion_ne _ _ (Prod.mk.inj he').1
  · obtain ⟨rfl, rfl⟩ := Prod.mk.inj he
    exact hc hm hj'
  · obtain ⟨h1, rfl⟩ := Prod.mk.inj he'
    refine hc hm ?_
    rw [← h1, companion_companion]
    exact hj
  · exact h j m hm hj hj'

theorem tiling_empty : Tiling M (∅ : Set (ℕ × ℕ)) ∅ where
  order_le := fun _ h => h.elim
  aligned := fun _ h => h.elim
  disjoint := fun _ h => h.elim
  cover := fun _ => ⟨fun h => h.elim, fun ⟨_, h, _⟩ => h.elim⟩

theorem coalesced_empty : Coalesced M (∅ : Set (ℕ × ℕ)) := fun _ _ _ h => h.elim

end Tiling

end DyadicTiling
