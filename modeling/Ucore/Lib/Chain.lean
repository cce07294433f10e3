import Mathlib.Logic.Function.Basic
import Mathlib.Data.List.Nodup
import Mathlib.Tactic.Common

/-!
# Doubly linked lists without a head node

The cells of such a list have a link to the next and one to the previous cell, and the owner has a
link to the first one.  The links are functions of the cell, and a write of a link is an update.

* `Linked next prev back head l` — `next` runs through `l` from `head` on, and `prev` back to `back`;
* `Linked.push`, `Linked.remove` — the writes that put a cell in front and that take one out;
* `Linked.follow_eq` — walking along `next` visits `l`.
-/

namespace Ucore.Chain

variable {α β : Type} {next prev next' prev' : α → Option α} {back head : Option α} {l l₁ l₂ : List α}
  {a b z : α}

/-- `next` runs through `l` from `head` on and ends; `prev` is its inverse, and `back` is before the
first cell. -/
def Linked (next prev : α → Option α) : Option α → Option α → List α → Prop
  | _, head, [] => head = none
  | back, head, a :: l => head = some a ∧ prev a = back ∧ Linked next prev (some a) (next a) l

/-- Only the links of the cells matter. -/
theorem Linked.congr (h : Linked next prev back head l)
    (hsame : ∀ a ∈ l, next' a = next a ∧ prev' a = prev a) : Linked next' prev' back head l := by
  induction l generalizing back head with
  | nil => exact h
  | cons a l ih =>
    obtain ⟨hhead, hprev, hrest⟩ := h
    obtain ⟨hn, hp⟩ := hsame a List.mem_cons_self
    refine ⟨hhead, hp.trans hprev, ?_⟩
    rw [hn]
    exact ih hrest fun b hb => hsame b (List.mem_cons_of_mem a hb)

/-- The cells from `head` on, at most `fuel` of them. -/
def follow (next : α → Option α) : ℕ → Option α → Option (List α)
  | _, none => some []
  | 0, some _ => none
  | fuel + 1, some a => (follow next fuel (next a)).map (a :: ·)

theorem Linked.follow_eq (h : Linked next prev back head l) {fuel : ℕ} (hfuel : l.length ≤ fuel) :
    follow next fuel head = some l := by
  induction l generalizing back head fuel with
  | nil =>
    cases h
    cases fuel <;> rfl
  | cons a l ih =>
    obtain ⟨rfl, -, hrest⟩ := h
    cases fuel with
    | zero => cases hfuel
    | succ fuel =>
      have hl := ih hrest (Nat.le_of_succ_le_succ hfuel)
      simp [follow, hl]

theorem Linked.head_eq (h : Linked next prev back head l) : head = l.head? := by
  cases l with
  | nil => exact h
  | cons a l => exact h.1

theorem Linked.next_mem (h : Linked next prev back head l) (ha : a ∈ l) (hb : next a = some b) :
    b ∈ l := by
  induction l generalizing back head with
  | nil => cases ha
  | cons c l ih =>
    obtain ⟨-, -, hrest⟩ := h
    rcases List.mem_cons.mp ha with rfl | ha
    · rw [hrest.head_eq] at hb
      exact List.mem_cons_of_mem a (List.mem_of_mem_head? hb)
    · exact List.mem_cons_of_mem c (ih hrest ha)

theorem Linked.prev_mem (h : Linked next prev back head l) (ha : a ∈ l) (hb : prev a = some b) :
    back = some b ∨ b ∈ l := by
  induction l generalizing back head with
  | nil => cases ha
  | cons c l ih =>
    obtain ⟨-, hprev, hrest⟩ := h
    rcases List.mem_cons.mp ha with rfl | ha
    · exact Or.inl (hprev.symm.trans hb)
    · rcases ih hrest ha with hc | hl
      · cases hc
        exact Or.inr List.mem_cons_self
      · exact Or.inr (List.mem_cons_of_mem c hl)

/-- Along the list `prev` is the inverse of `next`. -/
theorem Linked.inverse (h : Linked next prev back head l) (hnodup : l.Nodup) (ha : a ∈ l)
    (hb : b ∈ l) (hback : ∀ c ∈ l, back ≠ some c) : next a = some b ↔ prev b = some a := by
  induction l generalizing back head with
  | nil => cases ha
  | cons c l ih =>
    obtain ⟨-, hprev, hrest⟩ := h
    obtain ⟨hc, hl⟩ := List.nodup_cons.mp hnodup
    have hnotc : ∀ d, next d = some c → d ∉ c :: l := by
      rintro d hd hmem
      rcases List.mem_cons.mp hmem with rfl | hmem
      · rw [hrest.head_eq] at hd
        exact hc (List.mem_of_mem_head? hd)
      · exact hc (hrest.next_mem hmem hd)
    rcases List.mem_cons.mp hb with rfl | hbl
    · -- nothing is before the first cell
      constructor
      · intro hab
        exact absurd ha (hnotc a hab)
      · intro hba
        rw [hprev] at hba
        exact absurd hba (hback a ha)
    rcases List.mem_cons.mp ha with rfl | hal
    · cases l with
      | nil => cases hbl
      | cons d l =>
        obtain ⟨hd, hdp, hdl⟩ := hrest
        obtain ⟨hdn, -⟩ := List.nodup_cons.mp hl
        rw [hd]
        rcases List.mem_cons.mp hbl with rfl | hbl'
        · simp [hdp]
        · have hbd : b ≠ d := fun heq => hdn (heq ▸ hbl')
          constructor
          · intro heq
            exact absurd (Option.some.inj heq).symm hbd
          · intro hba
            rcases hdl.prev_mem hbl' hba with heq | hmem
            · exact absurd (Option.some.inj heq ▸ List.mem_cons_self) hc
            · exact absurd (List.mem_cons_of_mem d hmem) hc
    · exact ih hrest hl hal hbl fun d hd heq => hc (Option.some.inj heq ▸ hd)

variable [DecidableEq α]

/-- `if (o != NULL) o->f = v`. -/
def assign (f : α → β) (o : Option α) (v : β) : α → β :=
  match o with
  | some a => Function.update f a v
  | none => f

@[simp] theorem assign_some (f : α → β) (v : β) : assign f (some a) v = Function.update f a v := rfl

@[simp] theorem assign_none (f : α → β) (v : β) : assign f none v = f := rfl

theorem assign_of_ne {f : α → β} {o : Option α} {v : β} (h : o ≠ some a) : assign f o v a = f a := by
  cases o with
  | none => rfl
  | some b => exact Function.update_of_ne (fun heq => h (congrArg some heq.symm)) v f

/-- A new first cell. -/
theorem Linked.push (h : Linked next prev none head l) (hnodup : l.Nodup) (ha : a ∉ l) :
    Linked (Function.update next a head)
      (assign (Function.update prev a none) head (some a)) none (some a) (a :: l) := by
  have hne : ∀ b ∈ l, b ≠ a := fun b hb heq => ha (heq ▸ hb)
  have hhead : head ≠ some a := by
    rw [h.head_eq]
    exact fun heq => ha (List.mem_of_mem_head? heq)
  refine ⟨rfl, ?_, ?_⟩
  · rw [assign_of_ne hhead, Function.update_self]
  rw [Function.update_self]
  cases l with
  | nil => exact h
  | cons b l =>
    obtain ⟨rfl, -, hrest⟩ := h
    obtain ⟨hb, -⟩ := List.nodup_cons.mp hnodup
    refine ⟨rfl, Function.update_self .., ?_⟩
    rw [Function.update_of_ne (hne b List.mem_cons_self)]
    refine hrest.congr fun c hc => ⟨?_, ?_⟩
    · rw [Function.update_of_ne (hne c (List.mem_cons_of_mem b hc))]
    · have hcb : c ≠ b := fun heq => hb (heq ▸ hc)
      rw [assign_some, Function.update_of_ne hcb,
        Function.update_of_ne (hne c (List.mem_cons_of_mem b hc))]

/-- The cells behind one that is taken out. -/
theorem Linked.behind (h : Linked next prev (some z) (next z) l) (hnodup : l.Nodup)
    (hprev : ∀ b, prev z = some b → b ∉ l) :
    Linked (assign next (prev z) (next z)) (assign prev (next z) (prev z)) (prev z) (next z) l := by
  cases l with
  | nil => exact h
  | cons c l =>
    obtain ⟨hc, -, hrest⟩ := h
    obtain ⟨hcl, -⟩ := List.nodup_cons.mp hnodup
    have hkeep : ∀ b ∈ c :: l, assign next (prev z) (next z) b = next b := fun b hb =>
      assign_of_ne fun heq => hprev b heq hb
    refine ⟨hc, ?_, ?_⟩
    · rw [hc, assign_some, Function.update_self]
    rw [hkeep c List.mem_cons_self]
    refine hrest.congr fun b hb => ⟨hkeep b (List.mem_cons_of_mem c hb), assign_of_ne ?_⟩
    rw [hc]
    exact fun heq => hcl (Option.some.inj heq ▸ hb)

theorem Linked.remove_behind (h : Linked next prev back head (l₁ ++ z :: l₂))
    (hnodup : (l₁ ++ z :: l₂).Nodup) (hne : l₁ ≠ []) :
    (∃ b ∈ l₁, prev z = some b) ∧
      Linked (assign next (prev z) (next z)) (assign prev (next z) (prev z)) back head (l₁ ++ l₂) := by
  induction l₁ generalizing back head with
  | nil => exact absurd rfl hne
  | cons a l₁ ih =>
    obtain ⟨hhead, hprev, hrest⟩ := h
    have hnodup : (a :: (l₁ ++ z :: l₂)).Nodup := hnodup
    obtain ⟨ha, hnodup'⟩ := List.nodup_cons.mp hnodup
    have hnext : next z ≠ some a := by
      intro heq
      exact ha (hrest.next_mem (by simp) heq)
    cases l₁ with
    | nil =>
      obtain ⟨haz, hza, hz⟩ := hrest
      have hnodup'' : l₂.Nodup := (List.nodup_cons.mp hnodup').2
      have hal : a ∉ l₂ := fun hmem => ha (by simp [hmem])
      refine ⟨⟨a, List.mem_cons_self, hza⟩, hhead, ?_, ?_⟩
      · rw [assign_of_ne hnext, hprev]
      · have hbehind := hz.behind hnodup'' fun b hb hmem => by
          rw [hza] at hb
          cases hb
          exact hal hmem
        rw [hza] at hbehind ⊢
        rw [assign_some, Function.update_self]
        exact hbehind
    | cons c l₁ =>
      obtain ⟨⟨b, hb, hzb⟩, hlinked⟩ := ih hrest hnodup' nofun
      have hab : prev z ≠ some a := by
        rw [hzb]
        rintro heq
        cases heq
        exact ha (List.mem_append_left _ hb)
      refine ⟨⟨b, List.mem_cons_of_mem a hb, hzb⟩, hhead, ?_, ?_⟩
      · rw [assign_of_ne hnext, hprev]
      · rw [assign_of_ne hab]
        exact hlinked

/-- A cell is taken out. -/
theorem Linked.remove (h : Linked next prev none head (l₁ ++ z :: l₂))
    (hnodup : (l₁ ++ z :: l₂).Nodup) :
    Linked (assign next (prev z) (next z)) (assign prev (next z) (prev z)) none
      (if prev z = none then next z else head) (l₁ ++ l₂) := by
  cases l₁ with
  | nil =>
    obtain ⟨-, hprev, hrest⟩ := h
    have hbehind := hrest.behind (List.nodup_cons.mp hnodup).2 fun b hb => by
      rw [hprev] at hb
      cases hb
    rw [if_pos hprev]
    rw [hprev] at hbehind ⊢
    exact hbehind
  | cons a l₁ =>
    obtain ⟨⟨b, -, hzb⟩, hlinked⟩ := h.remove_behind hnodup nofun
    rw [if_neg (by rw [hzb]; nofun)]
    exact hlinked

end Ucore.Chain
