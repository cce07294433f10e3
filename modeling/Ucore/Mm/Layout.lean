import Mathlib

/-!
# User address space: constants and rounding

The constants of `kern/mm/memlayout.h` and `kern/mm/mmu.h`, and the rounding macros of
`libs/types.h`.  Addresses are natural numbers below `2 ^ 32`; sums are reduced where the source
adds two words.
-/

namespace Ucore

def PGSIZE : ℕ := 4096

def USERBASE : ℕ := 0x00200000

def USERTOP : ℕ := 0xB0000000

/-- Addition of two 32-bit words. -/
def wadd (a b : ℕ) : ℕ := (a + b) % 2 ^ 32

/-- `ROUNDDOWN(a, PGSIZE)`. -/
def rounddown (a : ℕ) : ℕ := a - a % PGSIZE

/-- `ROUNDUP(a, PGSIZE)`, with the wrap of `a + PGSIZE - 1`. -/
def roundup (a : ℕ) : ℕ := rounddown (wadd a (PGSIZE - 1))

/-- `USER_ACCESS(start, end)`. -/
def USER_ACCESS (start stop : ℕ) : Prop := USERBASE ≤ start ∧ start < stop ∧ stop ≤ USERTOP

instance (start stop : ℕ) : Decidable (USER_ACCESS start stop) :=
  inferInstanceAs (Decidable (_ ∧ _))

theorem rounddown_aligned (a : ℕ) : PGSIZE ∣ rounddown a := by
  unfold rounddown
  exact Nat.dvd_sub_mod a

theorem roundup_aligned (a : ℕ) : PGSIZE ∣ roundup a := rounddown_aligned _

theorem rounddown_of_aligned {a : ℕ} (h : PGSIZE ∣ a) : rounddown a = a := by
  unfold rounddown
  rw [Nat.mod_eq_zero_of_dvd h, Nat.sub_zero]

/-- Rounding up an aligned user address does not wrap. -/
theorem roundup_of_aligned {a : ℕ} (h : PGSIZE ∣ a) (hle : a ≤ USERTOP) : roundup a = a := by
  unfold roundup rounddown wadd
  unfold PGSIZE at *
  unfold USERTOP at hle
  omega

/-- `E_INVAL`, invalid parameter. -/
def E_INVAL : Int := 3

/-- `E_NO_MEM`, out of memory. -/
def E_NO_MEM : Int := 4

end Ucore
