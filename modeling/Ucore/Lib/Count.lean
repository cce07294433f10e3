import Mathlib.Data.Set.Card

/-!
# Counting the places where a table has a property

`occ g P` is the number of arguments at which the table `g` has a value with property `P`.  Tables
with finitely many such places change by one update at a time, and the count follows.
-/

namespace Occurrence

variable {α β : Type} {g : α → β} {P : β → Prop}

/-- The number of places where `g` has a value with property `P`. -/
noncomputable def occ (g : α → β) (P : β → Prop) : ℕ := Set.ncard {x | P (g x)}

theorem occ_eq_zero (hfin : {x | P (g x)}.Finite) : occ g P = 0 ↔ ∀ x, ¬ P (g x) := by
  unfold occ
  rw [Set.ncard_eq_zero hfin, Set.eq_empty_iff_forall_notMem]
  exact Iff.rfl

theorem occ_ne_zero {a : α} (hfin : {x | P (g x)}.Finite) (h : P (g a)) : occ g P ≠ 0 := fun h0 =>
  (occ_eq_zero hfin).mp h0 a h

/-- A count of one: the place is unique. -/
theorem eq_of_occ_le_one {a b : α} (hfin : {x | P (g x)}.Finite) (h : occ g P ≤ 1) (ha : P (g a))
    (hb : P (g b)) : a = b :=
  (Set.ncard_le_one hfin).mp h a ha b hb

variable [DecidableEq α]

theorem finite_update (a : α) (b : β) (hfin : {x | P (g x)}.Finite) :
    {x | P (Function.update g a b x)}.Finite := by
  refine (hfin.insert a).subset fun x hx => ?_
  by_cases hxa : x = a
  · exact Or.inl hxa
  · right
    simpa [Function.update_of_ne hxa] using hx

open Classical in
/-- One update moves the count by what enters and what leaves. -/
theorem occ_update (a : α) (b : β) (hfin : {x | P (g x)}.Finite) :
    occ (Function.update g a b) P + (if P (g a) then 1 else 0) =
      occ g P + (if P b then 1 else 0) := by
  -- both counts are the count over the other places, plus the place itself
  have hsplit : ∀ c : β, occ (Function.update g a c) P =
      Set.ncard {x | x ≠ a ∧ P (g x)} + (if P c then 1 else 0) := by
    intro c
    have hfin' : {x | x ≠ a ∧ P (g x)}.Finite := hfin.subset fun x hx => hx.2
    unfold occ
    split
    · rename_i hc
      have heq : {x | P (Function.update g a c x)} = insert a {x | x ≠ a ∧ P (g x)} := by
        ext x
        by_cases hxa : x = a
        · subst hxa; simp [hc]
        · simp [hxa]
      rw [heq, Set.ncard_insert_of_notMem (by simp) hfin']
    · rename_i hc
      have heq : {x | P (Function.update g a c x)} = {x | x ≠ a ∧ P (g x)} := by
        ext x
        by_cases hxa : x = a
        · subst hxa; simp [hc]
        · simp [hxa]
      rw [heq, Nat.add_zero]
  have hself := hsplit (g a)
  rw [Function.update_eq_self] at hself
  rw [hsplit b, hself]
  omega

end Occurrence
