import Mathlib.Data.List.Basic

/-!
# Words as a set of bits

The bits of a list of words, numbered from the lowest bit of the first word on; a bit beyond the words is
not set.  Flipping and setting one bit of one word changes that bit only.
-/

namespace Words

variable {w : ℕ}

/-- Bit `i` of the words. -/
def bit (ws : List (BitVec w)) (i : ℕ) : Bool :=
  match ws[i / w]? with
  | some x => x.getLsbD (i % w)
  | none => false

variable {ws : List (BitVec w)} {x : BitVec w} {i j k n : ℕ}

theorem bit_eq (hx : ws[k]? = some x) (hj : j < w) : bit ws (k * w + j) = x.getLsbD j := by
  have hw : 0 < w := Nat.zero_lt_of_lt hj
  unfold bit
  rw [Nat.mul_comm, Nat.mul_add_div hw, Nat.div_eq_of_lt hj, Nat.add_zero, hx, Nat.mul_add_mod,
    Nat.mod_eq_of_lt hj]

theorem getLsbD_one_shiftLeft (hk : k < w) (j : ℕ) : (1#w <<< k).getLsbD j = decide (j = k) := by
  rw [← BitVec.twoPow_eq, BitVec.getLsbD_twoPow]
  simp [hk, eq_comm]

/-- A word has a bit with the mask `1 << k`. -/
theorem and_mask_ne_zero (hk : k < w) : x &&& (1#w <<< k) ≠ 0 ↔ x.getLsbD k = true := by
  rw [← BitVec.twoPow_eq, BitVec.and_twoPow]
  cases x.getLsbD k with
  | false => simp
  | true =>
    simp only [if_true, iff_true]
    intro h0
    have hbit := BitVec.getLsbD_twoPow (w := w) k k
    rw [h0] at hbit
    simp [hk] at hbit

theorem exists_bit (hx : x ≠ 0) : ∃ k < w, x.getLsbD k = true := by
  by_contra hno
  refine hx (BitVec.eq_of_getLsbD_eq fun i hi => ?_)
  have hbit : ¬ x.getLsbD i = true := fun ht => hno ⟨i, hi, ht⟩
  simpa using hbit

/-- A word is written, and one bit of it changes. -/
theorem bit_set {y : BitVec w} {b : Bool} (hx : ws[k]? = some x) (hj : j < w)
    (hy : ∀ l < w, y.getLsbD l = if l = j then b else x.getLsbD l) (i : ℕ) :
    bit (ws.set k y) i = if i = k * w + j then b else bit ws i := by
  have hw : 0 < w := Nat.zero_lt_of_lt hj
  obtain ⟨hlt, -⟩ := List.getElem?_eq_some_iff.mp hx
  unfold bit
  rw [List.getElem?_set]
  by_cases hk : k = i / w
  · subst hk
    rw [if_pos rfl, if_pos hlt, hx]
    show y.getLsbD (i % w) = if _ then b else x.getLsbD (i % w)
    rw [hy _ (Nat.mod_lt i hw)]
    have hiff : i % w = j ↔ i = i / w * w + j := by
      have hdiv := Nat.div_add_mod' i w
      constructor <;> intro heq <;> omega
    simp only [hiff]
  · rw [if_neg hk]
    have hne : i ≠ k * w + j := by
      rintro rfl
      rw [Nat.mul_comm, Nat.mul_add_div hw, Nat.div_eq_of_lt hj] at hk
      exact hk rfl
    rw [if_neg hne]

/-- `^= 1 << j`. -/
theorem bit_flip (hx : ws[k]? = some x) (hj : j < w) (i : ℕ) :
    bit (ws.set k (x ^^^ (1#w <<< j))) i = if i = k * w + j then !x.getLsbD j else bit ws i := by
  refine bit_set hx hj (fun l hl => ?_) i
  rw [BitVec.getLsbD_xor, getLsbD_one_shiftLeft hj]
  by_cases hlj : l = j
  · simp [hlj]
  · simp [hlj]

/-- `|= 1 << j`. -/
theorem bit_or (hx : ws[k]? = some x) (hj : j < w) (i : ℕ) :
    bit (ws.set k (x ||| (1#w <<< j))) i = if i = k * w + j then true else bit ws i := by
  refine bit_set hx hj (fun l hl => ?_) i
  rw [BitVec.getLsbD_or, getLsbD_one_shiftLeft hj]
  by_cases hlj : l = j
  · simp [hlj]
  · simp [hlj]

theorem bit_replicate (n i : ℕ) : bit (List.replicate n (BitVec.allOnes w)) i = decide (i < n * w) := by
  unfold bit
  rw [List.getElem?_replicate]
  rcases Nat.eq_zero_or_pos w with rfl | hw
  · split <;> simp
  · have hiff : i / w < n ↔ i < n * w := Nat.div_lt_iff_lt_mul hw
    by_cases hlt : i < n * w
    · simp [hiff.mpr hlt, hlt, Nat.mod_lt i hw]
    · simp [mt hiff.mp hlt, hlt]

end Words
