import Mathlib.Data.Nat.Notation
import Mathlib.Tactic.Ring

/-!
# Little-endian words in a byte buffer

A buffer is a function from offsets to bytes.  `splice` is `memcpy` into it, `word` reads the 32-bit
word with a given index, `ofWords` is the buffer of a sequence of words.
-/

namespace Bytes

/-- Byte `k` of a number. -/
def byte (v k : ℕ) : UInt8 := UInt8.ofNat (v / 256 ^ k)

/-- The 32-bit word at offset `4 * i`. -/
def word (b : ℕ → UInt8) (i : ℕ) : ℕ :=
  (b (4 * i)).toNat + 256 * (b (4 * i + 1)).toNat + 65536 * (b (4 * i + 2)).toNat +
    16777216 * (b (4 * i + 3)).toNat

def ofWords (w : ℕ → ℕ) : ℕ → UInt8 := fun i => byte (w (i / 4)) (i % 4)

/-- `len` bytes of `data` copied to offset `off`. -/
def splice (b : ℕ → UInt8) (off len : ℕ) (data : ℕ → UInt8) : ℕ → UInt8 := fun i =>
  if off ≤ i ∧ i < off + len then data (i - off) else b i

theorem splice_of_mem {b data : ℕ → UInt8} {off len i : ℕ} (h : off ≤ i) (h' : i < off + len) :
    splice b off len data i = data (i - off) := if_pos ⟨h, h'⟩

theorem splice_of_not_mem {b data : ℕ → UInt8} {off len i : ℕ} (h : i < off ∨ off + len ≤ i) :
    splice b off len data i = b i := if_neg (by omega)

theorem byte_toNat (v k : ℕ) : (byte v k).toNat = v / 256 ^ k % 256 := by
  unfold byte
  rw [UInt8.toNat_ofNat']

theorem word_congr {b b' : ℕ → UInt8} {i j : ℕ} (h : ∀ k < 4, b (4 * i + k) = b' (4 * j + k)) :
    word b i = word b' j := by
  have h0 := h 0 (by omega)
  have h1 := h 1 (by omega)
  have h2 := h 2 (by omega)
  have h3 := h 3 (by omega)
  unfold word
  rw [Nat.add_zero, Nat.add_zero] at h0
  rw [h0, h1, h2, h3]

theorem ofWords_apply (w : ℕ → ℕ) {i k : ℕ} (hk : k < 4) : ofWords w (4 * i + k) = byte (w i) k := by
  unfold ofWords
  rw [show (4 * i + k) / 4 = i by omega, show (4 * i + k) % 4 = k by omega]

theorem word_ofWords (w : ℕ → ℕ) (i : ℕ) : word (ofWords w) i = w i % 2 ^ 32 := by
  have h0 := ofWords_apply w (i := i) (k := 0) (by omega)
  rw [Nat.add_zero] at h0
  unfold word
  rw [h0, ofWords_apply w (by omega), ofWords_apply w (by omega), ofWords_apply w (by omega)]
  simp only [byte_toNat]
  omega

/-- Words copied to a word boundary. -/
theorem word_splice (b : ℕ → UInt8) (w : ℕ → ℕ) (o n i : ℕ) :
    word (splice b (4 * o) (4 * n) (ofWords w)) i =
      if o ≤ i ∧ i < o + n then w (i - o) % 2 ^ 32 else word b i := by
  split
  · rename_i h
    rw [← word_ofWords w (i - o)]
    refine word_congr fun k hk => ?_
    rw [splice_of_mem (by omega) (by omega)]
    congr 1
    omega
  · rename_i h
    exact word_congr fun k hk => splice_of_not_mem (by omega)

@[simp] theorem word_zero (i : ℕ) : word (fun _ => 0) i = 0 := rfl

end Bytes
