import Mathlib.Data.Nat.Notation
import Mathlib.Tactic.Common

/-!
# Disjoint blocks

Blocks of a memory, by the addresses where they begin.

* `Disjoint.add`, `Disjoint.mono` — a block is made where there is none, and goes;
* `Disjoint.merge`, `Disjoint.split` — two neighbours become one, and one becomes two.
-/

namespace Ucore.Blocks

variable {S S' : ℕ → Prop} {len len' : ℕ → ℕ} {a b k p x : ℕ} {κ : Type} {kind kind' : ℕ → κ} {t : κ}

/-- The block at `a` has the addresses from `a` on, `len a` of them; none is empty, and no two share one. -/
structure Disjoint (S : ℕ → Prop) (len : ℕ → ℕ) : Prop where
  pos : ∀ a, S a → 0 < len a
  apart : ∀ a b, S a → S b → a < b → a + len a ≤ b

theorem Disjoint.mono (h : Disjoint S len) (hsub : ∀ a, S' a → S a) (hlen : ∀ a, S' a → len' a = len a) :
    Disjoint S' len' := by
  refine ⟨fun a ha => ?_, fun a b ha hb hab => ?_⟩
  · rw [hlen a ha]
    exact h.pos a (hsub a ha)
  · rw [hlen a ha]
    exact h.apart a b (hsub a ha) (hsub b hb) hab

/-- An address is in one block. -/
theorem Disjoint.eq_of_mem (h : Disjoint S len) (ha : S a) (hb : S b) (hxa : a ≤ x) (hax : x < a + len a)
    (hxb : b ≤ x) (hbx : x < b + len b) : a = b := by
  rcases Nat.lt_trichotomy a b with hab | hab | hba
  · have := h.apart a b ha hb hab
    omega
  · exact hab
  · have := h.apart b a hb ha hba
    omega

/-- No block begins inside another. -/
theorem Disjoint.not_inside (h : Disjoint S len) (hp : S p) (hk : 0 < k) (hkp : k < len p) : ¬ S (p + k) := by
  intro hx
  have := h.apart p (p + k) hp hx (by omega)
  omega

/-- A new block. -/
theorem Disjoint.add (h : Disjoint S len) (hpos : 0 < len b)
    (hnew : ∀ a x, S a → a ≤ x → x < a + len a → x < b ∨ b + len b ≤ x) :
    Disjoint (fun a => S a ∨ a = b) len := by
  refine ⟨fun a ha => ?_, fun a c ha hc hac => ?_⟩
  · rcases ha with ha | rfl
    · exact h.pos a ha
    · exact hpos
  · rcases ha with ha | rfl
    · rcases hc with hc | rfl
      · exact h.apart a c ha hc hac
      · -- the last address of the block is below the new one
        have hpa := h.pos a ha
        by_contra hlt
        have := hnew a c ha (Nat.le_of_lt hac) (by omega)
        omega
    · rcases hc with hc | rfl
      · have hpc := h.pos c hc
        have := hnew c c hc (Nat.le_refl c) (by omega)
        omega
      · exact absurd hac (Nat.lt_irrefl _)

/-- The block at `b` goes to the one before it. -/
theorem Disjoint.merge (h : Disjoint S len) (ha : S a) (hb : S b) (hab : a + len a = b)
    (hlen : len' a = len a + len b) (hsame : ∀ x, S x → x ≠ a → x ≠ b → len' x = len x) :
    Disjoint (fun x => S x ∧ x ≠ b) len' := by
  have hpa := h.pos a ha
  refine ⟨fun x hx => ?_, fun x y hx hy hxy => ?_⟩
  · by_cases hxa : x = a
    · rw [hxa, hlen]
      omega
    · rw [hsame x hx.1 hxa hx.2]
      exact h.pos x hx.1
  · by_cases hxa : x = a
    · subst hxa
      rw [hlen]
      have hxy' := h.apart x y ha hy.1 hxy
      have hby : b < y := by
        have := hy.2
        omega
      have := h.apart b y hb hy.1 hby
      omega
    · rw [hsame x hx.1 hxa hx.2]
      exact h.apart x y hx.1 hy.1 hxy

/-- The block at `p` is cut after `k` addresses. -/
theorem Disjoint.split (h : Disjoint S len) (hp : S p) (hk : 0 < k) (hkp : k < len p) (hfront : len' p = k)
    (hback : len' (p + k) = len p - k) (hsame : ∀ x, S x → x ≠ p → len' x = len x) :
    Disjoint (fun x => S x ∨ x = p + k) len' := by
  refine ⟨fun x hx => ?_, fun x y hx hy hxy => ?_⟩
  · rcases hx with hx | rfl
    · by_cases hxp : x = p
      · rw [hxp, hfront]
        exact hk
      · rw [hsame x hx hxp]
        exact h.pos x hx
    · rw [hback]
      omega
  · rcases hx with hx | rfl
    · by_cases hxp : x = p
      · subst hxp
        rw [hfront]
        rcases hy with hy | rfl
        · have := h.apart x y hx hy hxy
          omega
        · exact Nat.le_refl _
      · rw [hsame x hx hxp]
        rcases hy with hy | rfl
        · exact h.apart x y hx hy hxy
        · rcases Nat.lt_or_gt_of_ne hxp with hlt | hgt
          · have := h.apart x p hx hp hlt
            omega
          · have := h.apart p x hp hx hgt
            omega
    · rw [hback]
      rcases hy with hy | rfl
      · have := h.apart p y hp hy (by omega)
        omega
      · exact absurd hxy (Nat.lt_irrefl _)

/-! ## Blocks of several kinds -/

end Ucore.Blocks
