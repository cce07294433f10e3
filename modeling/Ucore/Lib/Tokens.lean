import Mathlib.Data.List.Count
import Mathlib.Data.Nat.Notation
import Mathlib.Logic.Function.Basic

/-!
# Counters and the references they count

A reference is a pair of the holder and what it refers to.  `Held` says that two counters of the same objects
are the numbers of references of two kinds, and that every reference of the second kind goes with one of the
first by the same holder.
-/

namespace Tokens

variable {P X : Type} [DecidableEq X] {l : List (P × X)} {p : P} {x y : X}

/-- The number of references to `x`. -/
def num (l : List (P × X)) (x : X) : ℕ := l.countP (·.2 = x)

theorem num_cons_self : num ((p, x) :: l) x = num l x + 1 := List.countP_cons_of_pos (by simp)

theorem num_cons_of_ne (h : y ≠ x) : num ((p, x) :: l) y = num l y :=
  List.countP_cons_of_neg (by simpa using Ne.symm h)

theorem num_eq_zero : num l x = 0 ↔ ∀ p, (p, x) ∉ l := by
  unfold num
  rw [List.countP_eq_zero]
  refine ⟨fun h p hm => h _ hm (by simp), fun h t ht heq => h t.1 ?_⟩
  rw [← of_decide_eq_true heq]
  exact ht

variable [DecidableEq P]

theorem num_erase_self (hm : (p, x) ∈ l) : num l x = num (l.erase (p, x)) x + 1 := by
  have hperm := (List.perm_cons_erase hm).countP_eq fun t => t.2 = x
  exact hperm.trans num_cons_self

theorem num_erase_of_ne (h : y ≠ x) : num (l.erase (p, x)) y = num l y := by
  by_cases hm : (p, x) ∈ l
  · have hperm := (List.perm_cons_erase hm).countP_eq fun t => t.2 = y
    exact (hperm.trans (num_cons_of_ne h)).symm
  · rw [List.erase_of_not_mem hm]

theorem num_pos (hm : (p, x) ∈ l) : 0 < num l x := by
  rw [num_erase_self hm]
  exact Nat.succ_pos _

/-- `ref` counts the references `refs`, and `opn` those of `opens`. -/
structure Held (ref opn : X → ℕ) (refs opens : List (P × X)) : Prop where
  ref_eq : ∀ x, ref x = num refs x
  opn_eq : ∀ x, opn x = num opens x
  le : ∀ t, opens.count t ≤ refs.count t

section Held

variable {ref opn : X → ℕ} {refs opens : List (P × X)}

theorem Held.pos (h : Held ref opn refs opens) (hm : (p, x) ∈ refs) : 0 < ref x := by
  rw [h.ref_eq]
  exact num_pos hm

theorem Held.opn_eq_zero (h : Held ref opn refs opens) (hx : ref x = 0) : opn x = 0 := by
  rw [h.opn_eq, num_eq_zero]
  intro p hm
  have hle := h.le (p, x)
  have hcount : 0 < opens.count (p, x) := List.count_pos_iff.mpr hm
  have hpos := h.pos (p := p) (x := x) (List.count_pos_iff.mp (by omega))
  omega

theorem Held.ref_eq_zero (h : Held ref opn refs opens) : ref x = 0 ↔ ∀ p, (p, x) ∉ refs := by
  rw [h.ref_eq, num_eq_zero]

theorem Held.refInc (h : Held ref opn refs opens) (p : P) (x : X) :
    Held (Function.update ref x (ref x + 1)) opn ((p, x) :: refs) opens := by
  refine ⟨fun y => ?_, h.opn_eq, fun t => Nat.le_trans (h.le t) List.count_le_count_cons⟩
  by_cases hy : y = x
  · rw [hy, Function.update_self, num_cons_self, h.ref_eq]
  · rw [Function.update_of_ne hy, num_cons_of_ne hy, h.ref_eq]

theorem Held.refDec (h : Held ref opn refs opens) (hlt : opens.count (p, x) < refs.count (p, x)) :
    Held (Function.update ref x (ref x - 1)) opn (refs.erase (p, x)) opens := by
  have hm : (p, x) ∈ refs := List.count_pos_iff.mp (Nat.zero_lt_of_lt hlt)
  refine ⟨fun y => ?_, h.opn_eq, fun t => ?_⟩
  · by_cases hy : y = x
    · have hself := num_erase_self hm
      have href := h.ref_eq x
      rw [hy, Function.update_self]
      omega
    · rw [Function.update_of_ne hy, num_erase_of_ne hy, h.ref_eq]
  · by_cases ht : t = (p, x)
    · rw [ht, List.count_erase_self]
      omega
    · rw [List.count_erase_of_ne ht]
      exact h.le t

theorem Held.openInc (h : Held ref opn refs opens) (hlt : opens.count (p, x) < refs.count (p, x)) :
    Held ref (Function.update opn x (opn x + 1)) refs ((p, x) :: opens) := by
  refine ⟨h.ref_eq, fun y => ?_, fun t => ?_⟩
  · by_cases hy : y = x
    · rw [hy, Function.update_self, num_cons_self, h.opn_eq]
    · rw [Function.update_of_ne hy, num_cons_of_ne hy, h.opn_eq]
  · by_cases ht : t = (p, x)
    · rw [ht, List.count_cons_self]
      omega
    · rw [List.count_cons_of_ne (Ne.symm ht)]
      exact h.le t

theorem Held.openDec (h : Held ref opn refs opens) (hm : (p, x) ∈ opens) :
    Held ref (Function.update opn x (opn x - 1)) refs (opens.erase (p, x)) := by
  refine ⟨h.ref_eq, fun y => ?_, fun t => ?_⟩
  · by_cases hy : y = x
    · have hself := num_erase_self hm
      have hopen := h.opn_eq x
      rw [hy, Function.update_self]
      omega
    · rw [Function.update_of_ne hy, num_erase_of_ne hy, h.opn_eq]
  · exact Nat.le_trans (List.erase_sublist.count_le t) (h.le t)

end Held

end Tokens
