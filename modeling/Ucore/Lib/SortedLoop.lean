import Mathlib.Data.List.Rotate
import Mathlib.Order.Lattice
import Mathlib.Tactic.Common

/-!
# Circular lists in ascending order

The cells of such a list are linked in one direction, and ascend but for one link, from the largest cell
to the smallest.  Any cell can stand for the list.

* `Path`, `Loop` — runs along the links, and the circular list as the cells from one of them on;
* `Ascends` — one of the rotations of the list is sorted;
* `Gap` — the link in which a new cell has its place; `Ascends.insert`.
-/

namespace Ucore.SortedLoop

variable {α : Type} {next next' : α → α} {a b c p n z : α} {l m u v : List α}

/-- The links run from `a` through `l` to `z`. -/
def Path (next : α → α) : α → List α → α → Prop
  | a, [], z => a = z
  | a, x :: l, z => a = x ∧ Path next (next x) l z

/-- The links run from the first cell through the others and back. -/
def Loop (next : α → α) : List α → Prop
  | [] => False
  | a :: l => Path next (next a) l a

theorem Path.congr (h : Path next a l z) (hsame : ∀ x ∈ l, next' x = next x) : Path next' a l z := by
  induction l generalizing a with
  | nil => exact h
  | cons x l ih =>
    refine ⟨h.1, ?_⟩
    rw [hsame x List.mem_cons_self]
    exact ih h.2 fun y hy => hsame y (List.mem_cons_of_mem x hy)

theorem path_append : Path next a (l ++ m) z ↔ ∃ b, Path next a l b ∧ Path next b m z := by
  induction l generalizing a with
  | nil => exact ⟨fun h => ⟨a, rfl, h⟩, fun ⟨_, hab, h⟩ => hab ▸ h⟩
  | cons x l ih =>
    constructor
    · rintro ⟨rfl, h⟩
      obtain ⟨b, hl, hm⟩ := ih.mp h
      exact ⟨b, ⟨rfl, hl⟩, hm⟩
    · rintro ⟨b, ⟨rfl, hl⟩, hm⟩
      exact ⟨rfl, ih.mpr ⟨b, hl, hm⟩⟩

theorem loop_cons : Loop next (a :: l) ↔ Path next a (a :: l) a :=
  ⟨fun h => ⟨rfl, h⟩, fun h => h.2⟩

theorem Loop.append_comm (h : Loop next (u ++ v)) : Loop next (v ++ u) := by
  cases u with
  | nil => rwa [List.append_nil]
  | cons a u =>
    cases v with
    | nil => rwa [List.append_nil] at h
    | cons b v =>
      have hpath : Path next a ((a :: u) ++ (b :: v)) a := loop_cons.mp h
      obtain ⟨c, hu, hv⟩ := path_append.mp hpath
      obtain rfl := hv.1
      exact loop_cons.mpr (path_append.mpr ⟨a, hv, hu⟩)

theorem Loop.isRotated (h : Loop next l) (hr : l ~r m) : Loop next m := by
  obtain ⟨k, rfl⟩ := hr
  rw [List.rotate_eq_drop_append_take_mod]
  refine Loop.append_comm ?_
  rwa [List.take_append_drop]

/-- Any cell can be the first one. -/
theorem isRotated_cons_of_mem (hp : p ∈ l) : ∃ u v, l = u ++ p :: v ∧ l ~r (p :: (v ++ u)) := by
  obtain ⟨u, v, rfl⟩ := List.append_of_mem hp
  exact ⟨u, v, rfl, List.isRotated_append⟩

theorem Loop.next_cons (h : Loop next (p :: n :: m)) : next p = n := h.1

theorem Loop.next_singleton (h : Loop next [p]) : next p = p := h

theorem Loop.next_mem (h : Loop next l) (hp : p ∈ l) : next p ∈ l := by
  obtain ⟨u, v, -, hr⟩ := isRotated_cons_of_mem hp
  have hloop := h.isRotated hr
  rw [hr.mem_iff]
  cases hm : v ++ u with
  | nil =>
    rw [hm] at hloop
    rw [hloop.next_singleton]
    exact List.mem_cons_self
  | cons n m =>
    rw [hm] at hloop
    rw [hloop.next_cons]
    simp

/-- A run along the links comes to a cell for the first time. -/
theorem Path.exists_first (h : Path next a l z) (hp : p ∈ l ∨ p = z) : ∃ u, Path next a u p ∧ p ∉ u := by
  induction l generalizing a with
  | nil => exact ⟨[], h.trans (hp.resolve_left List.not_mem_nil).symm, List.not_mem_nil⟩
  | cons x l ih =>
    obtain ⟨rfl, h⟩ := h
    by_cases hpa : p = a
    · exact ⟨[], hpa.symm, List.not_mem_nil⟩
    · obtain ⟨u, hu, hno⟩ := ih h (hp.imp_left fun hp => (List.mem_cons.mp hp).resolve_left hpa)
      exact ⟨a :: u, ⟨rfl, hu⟩, List.not_mem_cons_of_ne_of_not_mem hpa hno⟩

/-- Any cell comes before the others are met again. -/
theorem Loop.exists_path (h : Loop next l) (ha : a ∈ l) (hp : p ∈ l) : ∃ u, Path next a u p ∧ p ∉ u := by
  obtain ⟨u, v, -, hr⟩ := isRotated_cons_of_mem ha
  exact (loop_cons.mp (h.isRotated hr)).exists_first (.inl (hr.mem_iff.mp hp))

/-- A cell that is linked to itself is the only one. -/
theorem Loop.eq_of_next_self (h : Loop next l) (hnodup : l.Nodup) (hp : p ∈ l) (hself : next p = p) :
    ∀ x ∈ l, x = p := by
  obtain ⟨u, v, -, hr⟩ := isRotated_cons_of_mem hp
  have hloop := h.isRotated hr
  have hnodup' := hr.nodup_iff.mp hnodup
  intro x hx
  rw [hr.mem_iff] at hx
  cases hm : v ++ u with
  | nil =>
    rw [hm] at hx
    exact List.mem_singleton.mp hx
  | cons n m =>
    rw [hm] at hloop hnodup'
    rw [hloop.next_cons] at hself
    exact absurd (hself ▸ List.mem_cons_self) (List.nodup_cons.mp hnodup').1

/-- A new cell behind the first one. -/
theorem Loop.insert (h : Loop next (p :: m)) (hp : next' p = b) (hb : next' b = next p)
    (hsame : ∀ x ∈ m, next' x = next x) : Loop next' (p :: b :: m) := by
  refine ⟨hp, ?_⟩
  rw [hb]
  exact Path.congr h hsame

/-- The cell behind the first one is taken out. -/
theorem Loop.remove (h : Loop next (p :: n :: m)) (hp : next' p = next n)
    (hsame : ∀ x ∈ m, next' x = next x) : Loop next' (p :: m) := by
  show Path next' (next' p) m p
  rw [hp]
  exact Path.congr h.2 hsame

/-- Another cell in place of the one behind the first. -/
theorem Loop.replace (h : Loop next (p :: n :: m)) (hp : next' p = b) (hb : next' b = next n)
    (hsame : ∀ x ∈ m, next' x = next x) : Loop next' (p :: b :: m) := by
  refine ⟨hp, ?_⟩
  rw [hb]
  exact Path.congr h.2 hsame

theorem Loop.congr (h : Loop next l) (hsame : ∀ x ∈ l, next' x = next x) : Loop next' l := by
  cases l with
  | nil => exact h
  | cons a l =>
    show Path next' (next' a) l a
    rw [hsame a List.mem_cons_self]
    exact Path.congr h fun x hx => hsame x (List.mem_cons_of_mem a hx)

theorem IsRotated.filter (f : α → Bool) (h : l ~r m) : l.filter f ~r m.filter f := by
  obtain ⟨k, rfl⟩ := h
  rw [List.rotate_eq_drop_append_take_mod, List.filter_append]
  have hsplit := List.filter_append (p := f) (l.take (k % l.length)) (l.drop (k % l.length))
  rw [List.take_append_drop] at hsplit
  rw [hsplit]
  exact List.isRotated_append

theorem exists_of_isRotated_cons (h : l ~r (p :: m)) : ∃ u v, l = u ++ p :: v ∧ m = v ++ u := by
  obtain ⟨k, hk⟩ := h
  rw [List.rotate_eq_drop_append_take_mod] at hk
  have hl := List.take_append_drop (k % l.length) l
  cases hd : l.drop (k % l.length) with
  | nil =>
    rw [hd, List.nil_append] at hk
    rw [hd, List.append_nil, hk] at hl
    exact ⟨[], m, hl.symm, (List.append_nil m).symm⟩
  | cons x v =>
    rw [hd, List.cons_append, List.cons_eq_cons] at hk
    obtain ⟨rfl, rfl⟩ := hk
    rw [hd] at hl
    exact ⟨_, v, hl.symm, rfl⟩

theorem Loop.next_append_cons (h : Loop next (u ++ p :: n :: v)) : next p = n :=
  (Loop.append_comm h).next_cons

/-- The last cell of a sorted list is linked to the first. -/
theorem Loop.next_last (h : Loop next (u ++ [p])) : ∀ x ∈ (u ++ [p]).head?, next p = x := by
  intro x hx
  cases u with
  | nil =>
    cases hx
    exact h.next_singleton
  | cons a u =>
    cases hx
    exact (Loop.append_comm h).next_cons

section Order

variable [LinearOrder α]

/-- The list ascends from one of its cells on. -/
def Ascends (l : List α) : Prop := ∃ s : List α, s.Pairwise (· < ·) ∧ s ~r l

/-- A new cell has its place in this link. -/
def Gap (next : α → α) (p b : α) : Prop := p < b ∧ b < next p ∨ next p ≤ p ∧ (p < b ∨ b < next p)

theorem Ascends.isRotated (h : Ascends l) (hr : l ~r m) : Ascends m := by
  obtain ⟨s, hs, hsl⟩ := h
  exact ⟨s, hs, hsl.trans hr⟩

theorem Ascends.nodup (h : Ascends l) : l.Nodup := by
  obtain ⟨s, hs, hsl⟩ := h
  exact hsl.nodup_iff.mp (hs.imp fun hlt => hlt.ne)

/-- The cell behind the first one is taken out. -/
theorem Ascends.remove (h : Ascends (p :: n :: m)) : Ascends (p :: m) := by
  obtain ⟨s, hs, hsl⟩ := h
  have hnodup : (p :: n :: m).Nodup := Ascends.nodup ⟨s, hs, hsl⟩
  refine ⟨s.filter (· ≠ n), hs.filter _, ?_⟩
  have hfilter : (p :: n :: m).filter (· ≠ n) = p :: m := by
    rw [List.nodup_cons, List.nodup_cons] at hnodup
    have hpn : p ≠ n := fun heq => hnodup.1 (heq ▸ List.mem_cons_self)
    have hm : ∀ x ∈ m, x ≠ n := fun x hx heq => hnodup.2.1 (heq ▸ hx)
    rw [List.filter_cons_of_pos (by simpa using hpn), List.filter_cons_of_neg (by simp),
      List.filter_eq_self.mpr fun x hx => by simpa using hm x hx]
  rw [← hfilter]
  exact IsRotated.filter _ hsl

/-- A larger cell in place of the one behind the first, with no cell in between. -/
theorem Ascends.replace (h : Ascends (p :: n :: m)) (hle : n ≤ b) (hno : ∀ x ∈ p :: m, n < x → b < x) :
    Ascends (p :: b :: m) := by
  obtain ⟨s, hs, hsl⟩ := h
  have hnodup : (p :: n :: m).Nodup := Ascends.nodup ⟨s, hs, hsl⟩
  rw [List.nodup_cons, List.nodup_cons] at hnodup
  have hpn : p ≠ n := fun heq => hnodup.1 (heq ▸ List.mem_cons_self)
  refine ⟨s.map fun x => if x = n then b else x, ?_, ?_⟩
  · rw [List.pairwise_map]
    refine hs.imp_of_mem fun {x y} hx hy hlt => ?_
    by_cases hxn : x = n
    · subst hxn
      rw [if_pos rfl, if_neg hlt.ne']
      refine hno y ?_ hlt
      rcases List.mem_cons.mp (hsl.mem_iff.mp hy) with hyp | hy
      · exact List.mem_cons.mpr (.inl hyp)
      · exact List.mem_cons_of_mem p ((List.mem_cons.mp hy).resolve_left hlt.ne')
    · rw [if_neg hxn]
      split
      · rename_i hyn
        exact lt_of_lt_of_le (hyn ▸ hlt) hle
      · exact hlt
  · have hm : ∀ x ∈ m, (if x = n then b else x) = x := fun x hx =>
      if_neg fun heq : x = n => hnodup.2.1 (heq ▸ hx)
    have hmap := hsl.map fun x => if x = n then b else x
    rwa [List.map_cons, List.map_cons, if_neg hpn, if_pos rfl, List.map_congr_left hm,
      List.map_id'] at hmap

/-- Behind the first cell, a new one that has its place there. -/
theorem Ascends.insert (h : Ascends (p :: m)) (hloop : Loop next (p :: m)) (hgap : Gap next p b) :
    Ascends (p :: b :: m) := by
  obtain ⟨s, hs, hsl⟩ := h
  obtain ⟨u, v, rfl, rfl⟩ := exists_of_isRotated_cons hsl
  have hloop' : Loop next (u ++ p :: v) := hloop.isRotated hsl.symm
  obtain ⟨hu, hpv, hcross⟩ := List.pairwise_append.mp hs
  have hup : ∀ x ∈ u, x < p := fun x hx => hcross x hx p List.mem_cons_self
  cases v with
  | nil =>
    have hle : next p ≤ p := by
      cases u with
      | nil => exact (hloop'.next_last p rfl).le
      | cons a u => exact (hloop'.next_last a rfl).trans_le (hup a List.mem_cons_self).le
    rcases hgap with ⟨hpb, hbn⟩ | ⟨-, hpb | hbn⟩
    · exact absurd (hpb.trans (hbn.trans_le hle)) (lt_irrefl p)
    · -- the new cell is the largest
      refine ⟨u ++ [p, b], ?_, List.isRotated_append⟩
      refine List.pairwise_append.mpr ⟨hu, by simpa using hpb, fun x hx y hy => ?_⟩
      rcases List.mem_cons.mp hy with rfl | hy
      · exact hup x hx
      · rw [List.mem_singleton.mp hy]
        exact (hup x hx).trans hpb
    · -- the new cell is the smallest
      have hmin : ∀ x ∈ u ++ [p], b < x := by
        cases u with
        | nil =>
          intro x hx
          rw [hloop'.next_last p rfl] at hbn
          rwa [List.mem_singleton.mp hx]
        | cons a u =>
          rw [hloop'.next_last a rfl] at hbn
          intro x hx
          rcases List.mem_cons.mp hx with rfl | hx
          · exact hbn
          · exact hbn.trans ((List.pairwise_cons.mp hs).1 x hx)
      refine ⟨b :: (u ++ [p]), List.pairwise_cons.mpr ⟨hmin, hs⟩, ?_⟩
      exact @List.isRotated_append _ (b :: u) [p]
  | cons n v =>
    have hnext := hloop'.next_append_cons
    rw [List.pairwise_cons] at hpv
    have hpn := hpv.1 n List.mem_cons_self
    rcases hgap with ⟨hpb, hbn⟩ | ⟨hle, -⟩
    · rw [hnext] at hbn
      have hbv : ∀ x ∈ n :: v, b < x := by
        intro x hx
        rcases List.mem_cons.mp hx with rfl | hx
        · exact hbn
        · exact hbn.trans ((List.pairwise_cons.mp hpv.2).1 x hx)
      refine ⟨u ++ p :: b :: n :: v, ?_, List.isRotated_append⟩
      refine List.pairwise_append.mpr ⟨hu, ?_, fun x hx y hy => ?_⟩
      · refine List.pairwise_cons.mpr ⟨fun x hx => ?_, List.pairwise_cons.mpr ⟨hbv, hpv.2⟩⟩
        rcases List.mem_cons.mp hx with rfl | hx
        · exact hpb
        · exact hpv.1 x hx
      · rcases List.mem_cons.mp hy with rfl | hy
        · exact hup x hx
        · rcases List.mem_cons.mp hy with rfl | hy
          · exact (hup x hx).trans hpb
          · exact hcross x hx y (List.mem_cons_of_mem p hy)
    · rw [hnext] at hle
      exact absurd hpn hle.not_gt

end Order

end Ucore.SortedLoop
