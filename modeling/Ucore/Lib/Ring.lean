import Mathlib.Data.Nat.ModEq
import Mathlib.Tactic.Common

/-!
# Ring buffers

An entry is kept in the slot of its position modulo the size of the ring.

* `slot_inj` — positions less than the size apart have different slots;
* `slots_distinct_iff` — counters that wrap: a window that crosses the end of the range of a counter has
  two entries in one slot exactly if it is longer than what the size leaves over of that range.
-/

namespace Ucore.Ring

variable {size r len i j : ℕ}

/-- Positions less than the size apart have different slots. -/
theorem slot_inj (hi : i < size) (hj : j < size) (h : (r + i) % size = (r + j) % size) : i = j := by
  have hmod : i ≡ j [MOD size] := Nat.ModEq.add_left_cancel' r h
  exact Nat.ModEq.eq_of_lt_of_lt hmod hi hj

/-- The slots of a window of a counter with the range `M` are different. -/
def Distinct (M size r len : ℕ) : Prop :=
  ∀ i j, i < len → j < len → (r + i) % M % size = (r + j) % M % size → i = j

/-- A position before the end of the range and one after it. -/
theorem slot_wrap {M : ℕ} (hi : r + i < M) (hij : i < j) (hj : M ≤ r + j) (hlt : j - i < size)
    (hsize : size ≤ M) : (r + i) % M % size = (r + j) % M % size ↔ j - i = M % size := by
  have hwrapped : (r + j) % M = r + j - M := by
    rw [Nat.mod_eq_sub_mod hj, Nat.mod_eq_of_lt (by omega)]
  rw [Nat.mod_eq_of_lt hi, hwrapped]
  -- the two positions are `M - (j - i)` apart
  have hsplit : r + i = r + j - M + (M - (j - i)) := by omega
  constructor
  · intro h
    have hmod : r + j - M + (M - (j - i)) ≡ r + j - M + 0 [MOD size] := by
      rw [← hsplit]
      exact h
    have hzero : M - (j - i) ≡ 0 [MOD size] := Nat.ModEq.add_left_cancel' _ hmod
    have hM : M ≡ j - i [MOD size] := by
      have hadd := hzero.add_right (j - i)
      rw [Nat.sub_add_cancel (by omega), Nat.zero_add] at hadd
      exact hadd
    have heq : M % size = (j - i) % size := hM
    rw [Nat.mod_eq_of_lt hlt] at heq
    exact heq.symm
  · intro h
    have hM : M ≡ j - i [MOD size] := by
      show M % size = (j - i) % size
      rw [Nat.mod_eq_of_lt hlt]
      exact h.symm
    have hzero : M - (j - i) ≡ 0 [MOD size] := by
      refine Nat.ModEq.add_right_cancel' (j - i) ?_
      rw [Nat.sub_add_cancel (by omega), Nat.zero_add]
      exact hM
    have hmod := hzero.add_left (r + j - M)
    rw [← hsplit, Nat.add_zero] at hmod
    exact hmod

/-- **Where windows collide.** -/
theorem slots_distinct_iff {M : ℕ} (hr : r < M) (hlen : len ≤ size) (hsize : size ≤ M) (hrest : 0 < M % size) :
    Distinct M size r len ↔ r + len ≤ M ∨ len ≤ M % size := by
  constructor
  · intro h
    by_contra hnot
    rw [not_or, Nat.not_le, Nat.not_le] at hnot
    obtain ⟨hcross, hlong⟩ := hnot
    -- two positions `M % size` apart, one on each side of the end
    obtain ⟨i, hi, hj, hilen⟩ : ∃ i, r + i < M ∧ M ≤ r + (i + M % size) ∧ i + M % size < len := by
      by_cases hmin : M - 1 - r ≤ len - 1 - M % size
      · exact ⟨M - 1 - r, by omega, by omega, by omega⟩
      · exact ⟨len - 1 - M % size, by omega, by omega, by omega⟩
    have heq := (slot_wrap hi (Nat.lt_add_of_pos_right hrest) hj (by omega) hsize).mpr (by omega)
    have hij := h i (i + M % size) (by omega) hilen heq
    omega
  · intro h i j hi hj heq
    -- for a position before another
    have hlt : ∀ i j, i < j → j < len → (r + i) % M % size ≠ (r + j) % M % size := by
      intro i j hij hj heq
      by_cases hjM : r + j < M
      · have hiM : r + i < M := by omega
        rw [Nat.mod_eq_of_lt hiM, Nat.mod_eq_of_lt hjM] at heq
        have hsame : i = j := slot_inj (by omega) (by omega) heq
        exact hij.ne hsame
      · by_cases hiM : r + i < M
        · have hdiff := (slot_wrap hiM hij (Nat.not_lt.mp hjM) (by omega) hsize).mp heq
          omega
        · -- both are after the end
          have hwrap : ∀ x, M ≤ r + x → x < len → (r + x) % M = (r + x - M) := by
            intro x hx hxlen
            rw [Nat.mod_eq_sub_mod hx, Nat.mod_eq_of_lt (by omega)]
          rw [hwrap i (by omega) (by omega), hwrap j (by omega) hj] at heq
          have hbase : r + j - M = r + i - M + (j - i) := by omega
          have heq' : (r + i - M + 0) % size = (r + i - M + (j - i)) % size := by
            rw [← hbase]
            exact heq
          have hzero : 0 = j - i := slot_inj (by omega) (by omega) heq'
          omega
    rcases Nat.lt_trichotomy i j with hij | hij | hij
    · exact absurd heq (hlt i j hij hj)
    · exact hij
    · exact absurd heq.symm (hlt j i hij hi)

end Ucore.Ring
