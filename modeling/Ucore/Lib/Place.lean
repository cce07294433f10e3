import Mathlib.Data.Nat.Basic

/-!
# Items in places

Items are numbered as they are made.  `Placed n At`: each of the first `n` items is in exactly one place,
and no other item is in any.

* `Placed.add` — an item is made;
* `Placed.move` — items go from one place to another;
* `Placed.exists_move`, `Placed.exists_add` — which items are in places of a kind.
-/

namespace Ucore.Placing

variable {π : Type} {n x : ℕ} {At At' : π → ℕ → Prop} {a b l : π} {S : ℕ → Prop} {P : π → Prop}

/-- Every item is in exactly one place. -/
structure Placed (n : ℕ) (At : π → ℕ → Prop) : Prop where
  found : ∀ x, x < n → ∃ l, At l x
  unique : ∀ x l l', At l x → At l' x → l = l'
  made : ∀ x l, At l x → x < n

theorem Placed.congr (h : Placed n At) (hsame : ∀ l x, At' l x ↔ At l x) : Placed n At' := by
  have heq : At' = At := funext fun l => funext fun x => propext (hsame l x)
  rw [heq]
  exact h

section Add

variable (hnew : ∀ x, At' a x ↔ At a x ∨ x = n) (hsame : ∀ l, l ≠ a → ∀ x, At' l x ↔ At l x)

include hnew hsame

/-- What is in a place after an item has been made there. -/
theorem at_add (l : π) (x : ℕ) : At' l x ↔ At l x ∨ l = a ∧ x = n := by
  by_cases hl : l = a
  · subst hl
    rw [hnew, and_iff_right rfl]
  · rw [hsame l hl, or_iff_left fun hx => hl hx.1]

/-- A new item. -/
theorem Placed.add (h : Placed n At) : Placed (n + 1) At' := by
  have hat := at_add hnew hsame
  refine ⟨fun x hx => ?_, fun x l l' hl hl' => ?_, fun x l hl => ?_⟩
  · by_cases hxn : x = n
    · exact ⟨a, (hat a x).mpr (Or.inr ⟨rfl, hxn⟩)⟩
    · obtain ⟨l, hl⟩ := h.found x (by omega)
      exact ⟨l, (hat l x).mpr (Or.inl hl)⟩
  · rcases (hat l x).mp hl with hold | ⟨rfl, rfl⟩
    · rcases (hat l' x).mp hl' with hold' | ⟨-, rfl⟩
      · exact h.unique x l l' hold hold'
      · exact absurd (h.made _ l hold) (Nat.lt_irrefl _)
    · rcases (hat l' x).mp hl' with hold' | ⟨rfl, -⟩
      · exact absurd (h.made _ l' hold') (Nat.lt_irrefl _)
      · rfl
  · rcases (hat l x).mp hl with hold | ⟨-, rfl⟩
    · exact Nat.lt_succ_of_lt (h.made x l hold)
    · exact Nat.lt_succ_self x

theorem Placed.exists_add (P : π → Prop) (x : ℕ) :
    (∃ l, P l ∧ At' l x) ↔ (∃ l, P l ∧ At l x) ∨ x = n ∧ P a := by
  have hat := at_add hnew hsame
  constructor
  · rintro ⟨l, hP, hl⟩
    rcases (hat l x).mp hl with hold | ⟨rfl, hx⟩
    · exact Or.inl ⟨l, hP, hold⟩
    · exact Or.inr ⟨hx, hP⟩
  · rintro (⟨l, hP, hold⟩ | ⟨hx, hP⟩)
    · exact ⟨l, hP, (hat l x).mpr (Or.inl hold)⟩
    · exact ⟨a, hP, (hat a x).mpr (Or.inr ⟨rfl, hx⟩)⟩

end Add

section Move

variable (hS : ∀ x, S x → At a x) (hne : a ≠ b) (hfrom : ∀ x, At' a x ↔ At a x ∧ ¬ S x)
  (hinto : ∀ x, At' b x ↔ At b x ∨ S x) (hsame : ∀ l, l ≠ a → l ≠ b → ∀ x, At' l x ↔ At l x)

include hS hne hfrom hinto hsame

/-- What is in a place after items have moved. -/
theorem Placed.at_move (h : Placed n At) (l : π) (x : ℕ) : At' l x ↔ At l x ∧ ¬ S x ∨ l = b ∧ S x := by
  by_cases ha : l = a
  · subst ha
    rw [hfrom, or_iff_left fun hx => hne hx.1]
  · -- what moves is in no other place
    have hstay : At l x → ¬ S x := fun hl hx => ha (h.unique x l a hl (hS x hx))
    by_cases hb : l = b
    · subst hb
      rw [hinto, and_iff_right rfl]
      constructor
      · rintro (hl | hx)
        · exact Or.inl ⟨hl, hstay hl⟩
        · exact Or.inr hx
      · rintro (⟨hl, -⟩ | hx)
        · exact Or.inl hl
        · exact Or.inr hx
    · rw [hsame l ha hb, or_iff_left fun hx => hb hx.1]
      exact ⟨fun hl => ⟨hl, hstay hl⟩, fun hl => hl.1⟩

/-- Items move. -/
theorem Placed.move (h : Placed n At) : Placed n At' := by
  have hat := h.at_move hS hne hfrom hinto hsame
  refine ⟨fun x hx => ?_, fun x l l' hl hl' => ?_, fun x l hl => ?_⟩
  · by_cases hSx : S x
    · exact ⟨b, (hat b x).mpr (Or.inr ⟨rfl, hSx⟩)⟩
    · obtain ⟨l, hl⟩ := h.found x hx
      exact ⟨l, (hat l x).mpr (Or.inl ⟨hl, hSx⟩)⟩
  · rcases (hat l x).mp hl with ⟨hold, hSx⟩ | ⟨rfl, hSx⟩
    · rcases (hat l' x).mp hl' with ⟨hold', -⟩ | ⟨-, hSx'⟩
      · exact h.unique x l l' hold hold'
      · exact absurd hSx' hSx
    · rcases (hat l' x).mp hl' with ⟨-, hSx'⟩ | ⟨rfl, -⟩
      · exact absurd hSx hSx'
      · rfl
  · rcases (hat l x).mp hl with ⟨hold, -⟩ | ⟨-, hSx⟩
    · exact h.made x l hold
    · exact h.made x a (hS x hSx)

/-- Moving into a place of a kind only adds to the items in places of that kind. -/
theorem Placed.exists_move (h : Placed n At) (hP : P a → P b) (x : ℕ) :
    (∃ l, P l ∧ At' l x) ↔ (∃ l, P l ∧ At l x) ∨ S x ∧ P b := by
  have hat := h.at_move hS hne hfrom hinto hsame
  constructor
  · rintro ⟨l, hPl, hl⟩
    rcases (hat l x).mp hl with ⟨hold, -⟩ | ⟨rfl, hSx⟩
    · exact Or.inl ⟨l, hPl, hold⟩
    · exact Or.inr ⟨hSx, hPl⟩
  · rintro (⟨l, hPl, hold⟩ | ⟨hSx, hPb⟩)
    · by_cases hSx : S x
      · have hla := h.unique x l a hold (hS x hSx)
        exact ⟨b, hP (hla ▸ hPl), (hat b x).mpr (Or.inr ⟨rfl, hSx⟩)⟩
      · exact ⟨l, hPl, (hat l x).mpr (Or.inl ⟨hold, hSx⟩)⟩
    · exact ⟨b, hPb, (hat b x).mpr (Or.inr ⟨rfl, hSx⟩)⟩

end Move

end Ucore.Placing
