import Mathlib.Algebra.BigOperators.Group.List.Basic
import Mathlib.Algebra.Group.Action.Defs
import Mathlib.Algebra.Group.Pi.Lemmas
import Mathlib.Data.Option.Basic

/-!
# Memory on lease

A component that builds something in a shared memory takes new objects, and references to objects that
were there before.  `Leased base new taken h` says that the memory `h` is `base` with the objects `new`
and, on the counters of the old objects, with the amounts `taken`.  Every operation has one rule; when all
new objects are gone and the amounts are zero again, the memory is `base`.
-/

namespace Lease

variable {A Obj M : Type} [AddCommGroup M] [AddAction M Obj]

/-- The memory is `base` with some new objects, and with amounts added to the counters of the old ones. -/
structure Leased (base new : A → Option Obj) (taken : A → M) (h : A → Option Obj) : Prop where
  fresh : ∀ a x, new a = some x → base a = none
  objs : ∀ a, h a = (new a).or ((base a).map fun x => taken a +ᵥ x)

variable {base new h : A → Option Obj} {taken : A → M} {a : A} {x y : Obj} {m : M}

theorem Leased.refl (h : A → Option Obj) : Leased h (fun _ => none) (0 : A → M) h :=
  ⟨nofun, fun a => by simp⟩

/-- Nothing is on lease: the memory is as it was. -/
theorem Leased.eq (hl : Leased base (fun _ => none) (0 : A → M) h) : h = base := by
  funext a
  simpa using hl.objs a

theorem Leased.get_new (hl : Leased base new taken h) (ha : new a = some x) : h a = some x := by
  simp [hl.objs, ha]

theorem Leased.new_eq_none (hl : Leased base new taken h) (ha : base a = some x) : new a = none := by
  cases hn : new a with
  | none => rfl
  | some y =>
    have hfresh := hl.fresh a y hn
    simp [ha] at hfresh

theorem Leased.get_old (hl : Leased base new taken h) (ha : base a = some x) : h a = some (taken a +ᵥ x) := by
  simp [hl.objs, hl.new_eq_none ha, ha]

theorem Leased.new_none (hl : Leased base new taken h) (ha : h a = none) : new a = none ∧ base a = none := by
  have hobj := hl.objs a
  rw [ha] at hobj
  simpa using hobj.symm

variable [DecidableEq A]

/-- A new object. -/
theorem Leased.alloc (hl : Leased base new taken h) (ha : h a = none) (x : Obj) :
    Leased base (Function.update new a (some x)) taken (Function.update h a (some x)) := by
  obtain ⟨-, hbase⟩ := hl.new_none ha
  refine ⟨fun b y hb => ?_, fun b => ?_⟩
  · by_cases hba : b = a
    · rwa [hba]
    · rw [Function.update_of_ne hba] at hb
      exact hl.fresh b y hb
  · by_cases hba : b = a
    · simp [hba]
    · simp [hba, hl.objs b]

/-- A new object changes. -/
theorem Leased.write (hl : Leased base new taken h) (ha : new a = some x) (y : Obj) :
    Leased base (Function.update new a (some y)) taken (Function.update h a (some y)) := by
  refine ⟨fun b z hb => ?_, fun b => ?_⟩
  · by_cases hba : b = a
    · rw [hba]
      exact hl.fresh a x ha
    · rw [Function.update_of_ne hba] at hb
      exact hl.fresh b z hb
  · by_cases hba : b = a
    · simp [hba]
    · simp [hba, hl.objs b]

/-- A new object goes. -/
theorem Leased.free (hl : Leased base new taken h) (ha : new a = some x) :
    Leased base (Function.update new a none) taken (Function.update h a none) := by
  refine ⟨fun b z hb => ?_, fun b => ?_⟩
  · by_cases hba : b = a
    · simp [hba] at hb
    · rw [Function.update_of_ne hba] at hb
      exact hl.fresh b z hb
  · by_cases hba : b = a
    · simp [hba, hl.fresh a x ha]
    · simp [hba, hl.objs b]

/-- An amount is added to the counters of an old object. -/
theorem Leased.take (hl : Leased base new taken h) (ha : base a = some x) (m : M) :
    Leased base new (Pi.single a m + taken) (Function.update h a (some (m +ᵥ (taken a +ᵥ x)))) := by
  refine ⟨hl.fresh, fun b => ?_⟩
  by_cases hba : b = a
  · subst hba
    simp [hl.new_eq_none ha, ha, add_vadd]
  · simp [hba, hl.objs b]

/-! ## Many objects at once -/

/-- The objects of a list, and `new` elsewhere. -/
def withNew (new : A → Option Obj) (obj : A → Obj) (l : List A) : A → Option Obj :=
  fun a => if a ∈ l then some (obj a) else new a

/-- The same amount for every entry of a list. -/
def total (m : M) (l : List A) : A → M := (l.map fun a => Pi.single a m).sum

section many

variable {obj : A → Obj} {l l' : List A}

@[simp] theorem withNew_nil : withNew new obj [] = new := by
  funext a
  simp [withNew]

@[simp] theorem withNew_of_mem (ha : a ∈ l) : withNew new obj l a = some (obj a) := if_pos ha

@[simp] theorem withNew_of_notMem (ha : a ∉ l) : withNew new obj l a = new a := if_neg ha

theorem withNew_cons (a : A) (l : List A) :
    withNew new obj (a :: l) = Function.update (withNew new obj l) a (some (obj a)) := by
  funext b
  by_cases hba : b = a <;> simp [withNew, hba]

theorem withNew_perm (hp : l.Perm l') : withNew new obj l = withNew new obj l' := by
  funext a
  simp [withNew, hp.mem_iff]

theorem withNew_congr {obj' : A → Obj} (hobj : ∀ a ∈ l, obj' a = obj a) :
    withNew new obj' l = withNew new obj l := by
  funext a
  by_cases ha : a ∈ l
  · simp [ha, hobj a ha]
  · simp [ha]

/-- The first object of the list goes. -/
theorem update_withNew_cons (ha : a ∉ l) (hnew : new a = none) :
    Function.update (withNew new obj (a :: l)) a none = withNew new obj l := by
  funext b
  by_cases hba : b = a
  · subst hba
    simp [ha, hnew]
  · by_cases hb : b ∈ l <;> simp [hba, hb]

/-- A new object that is not in the list changes. -/
theorem update_withNew (ha : a ∉ l) (o : Option Obj) :
    Function.update (withNew new obj l) a o = withNew (Function.update new a o) obj l := by
  funext b
  by_cases hba : b = a
  · subst hba
    simp [ha]
  · by_cases hb : b ∈ l <;> simp [hba, hb]

@[simp] theorem total_nil (m : M) : total m ([] : List A) = 0 := rfl

theorem total_cons (m : M) (a : A) (l : List A) : total m (a :: l) = Pi.single a m + total m l := by
  simp [total]

theorem total_perm (m : M) (hp : l.Perm l') : total m l = total m l' :=
  (hp.map _).sum_eq

theorem total_append (m : M) (l l' : List A) : total m (l ++ l') = total m l + total m l' := by
  simp [total]

/-- Giving back is taking the opposite. -/
theorem give (m : M) (a : A) (t : A → M) : Pi.single a (-m) + (Pi.single a m + t) = t := by
  rw [← add_assoc, ← Pi.single_add]
  simp

end many

/-! ## What is new, whatever it is -/

/-- The objects of the list are new, and nothing else is, besides `new`. -/
def Owned (base new : A → Option Obj) (taken : A → M) (l : List A) (h : A → Option Obj) : Prop :=
  ∃ obj : A → Obj, Leased base (withNew new obj l) taken h ∧ l.Nodup ∧ ∀ a ∈ l, new a = none

section owned

variable {l l' : List A}

theorem Leased.owned (hl : Leased base new taken h) (x : Obj) : Owned base new taken [] h :=
  ⟨fun _ => x, by simpa using hl, List.nodup_nil, nofun⟩

theorem Owned.leased (ho : Owned base new taken [] h) : Leased base new taken h := by
  obtain ⟨obj, hl, -⟩ := ho
  simpa using hl

theorem Owned.perm (ho : Owned base new taken l h) (hp : l.Perm l') : Owned base new taken l' h := by
  obtain ⟨obj, hl, hnd, hfresh⟩ := ho
  rw [withNew_perm hp] at hl
  exact ⟨obj, hl, hp.nodup_iff.mp hnd, fun a ha => hfresh a (hp.mem_iff.mpr ha)⟩

theorem Owned.alloc (ho : Owned base new taken l h) (ha : h a = none) (x : Obj) :
    Owned base new taken (a :: l) (Function.update h a (some x)) := by
  obtain ⟨obj, hl, hnd, hfresh⟩ := ho
  obtain ⟨hnew, -⟩ := hl.new_none ha
  have hal : a ∉ l := fun hmem => by simp [hmem] at hnew
  have hobj : withNew new (Function.update obj a x) l = withNew new obj l :=
    withNew_congr fun b hb => Function.update_of_ne (fun heq : b = a => hal (heq ▸ hb)) ..
  refine ⟨Function.update obj a x, ?_, List.nodup_cons.mpr ⟨hal, hnd⟩, fun b hb => ?_⟩
  · rw [withNew_cons, hobj, Function.update_self]
    exact hl.alloc ha x
  · rcases List.mem_cons.mp hb with rfl | hb
    · simpa [hal] using hnew
    · exact hfresh b hb

theorem Owned.free (ho : Owned base new taken (a :: l) h) : Owned base new taken l (Function.update h a none) := by
  obtain ⟨obj, hl, hnd, hfresh⟩ := ho
  obtain ⟨hal, hnd⟩ := List.nodup_cons.mp hnd
  have hl' := hl.free (withNew_of_mem (List.mem_cons_self (a := a) (l := l)))
  rw [update_withNew_cons hal (hfresh a List.mem_cons_self)] at hl'
  exact ⟨obj, hl', hnd, fun b hb => hfresh b (List.mem_cons_of_mem a hb)⟩

end owned

end Lease
