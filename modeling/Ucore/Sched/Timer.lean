import Mathlib.Data.UInt
import Mathlib.Data.List.Nodup
import Mathlib.Logic.Function.Basic
import Mathlib.Tactic.Common

/-!
# The timer list

Reference model of `timer_init`, `add_timer`, `del_timer` and `run_timer_list` of
`kern/schedule/sched.h` and `kern/schedule/sched.c`.

The list holds, for each timer, the ticks between the timer before it and itself.  What it stands
for is `Timers.deadlines`: the ticks that each pending timer still has to wait.

* `Inv.add_spec`, `Inv.del_spec`, `Inv.run_spec` — the three calls on the deadlines.
* `timer_list_refines` — in every run, and with no field ever out of range.
-/

namespace Ucore

/-- `timer_list` and the timers; `list` has the queued ones in order.  `wraps` records that an update
of an `expires` field has left the range of an `unsigned int`. -/
structure Timers where
  list : List ℕ
  expires : ℕ → UInt32
  proc : ℕ → Option ℕ
  wraps : Bool

namespace Timers

variable (t : Timers)

/-- `timer->expires -= d`. -/
def lower (i : ℕ) (d : UInt32) : Timers :=
  { t with
    expires := Function.update t.expires i (t.expires i - d)
    wraps := t.wraps || decide (t.expires i < d) }

/-- `timer->expires += d`. -/
def raise (i : ℕ) (d : UInt32) : Timers :=
  { t with
    expires := Function.update t.expires i (t.expires i + d)
    wraps := t.wraps || decide (2 ^ 32 ≤ (t.expires i).toNat + d.toNat) }

/-- `timer_init`. -/
def timerInit (i p : ℕ) (expires : UInt32) : Timers :=
  { t with
    expires := Function.update t.expires i expires
    proc := Function.update t.proc i (some p) }

/-- The loop of `add_timer` over the rest of the list, with `list_add_before` at its end. -/
def place (t : Timers) (i : ℕ) : List ℕ → Timers × List ℕ
  | [] => (t, [i])
  | next :: rest =>
    if t.expires i < t.expires next then (t.lower next (t.expires i), i :: next :: rest)
    else
      let r := (t.lower i (t.expires next)).place i rest
      (r.1, next :: r.2)

/-- `add_timer`. -/
def addTimer (i : ℕ) : Option Timers :=
  if 0 < t.expires i ∧ t.proc i ≠ none then
    if i ∈ t.list then none
    else
      let r := t.place i t.list
      some { r.1 with list := r.2 }
  else none

/-- `list_next`, where there is a timer. -/
def nextOf (i : ℕ) : List ℕ → Option ℕ
  | [] => none
  | x :: rest => if x = i then rest.head? else nextOf i rest

/-- `del_timer`. -/
def delTimer (i : ℕ) : Timers :=
  if i ∈ t.list then
    let t' :=
      if t.expires i ≠ 0 then
        match nextOf i t.list with
        | some next => t.raise next (t.expires i)
        | none => t
      else t
    { t' with list := t'.list.erase i }
  else t

/-- The loop of `run_timer_list`, at the given rest of the list; the processes it wakes. -/
def expire : List ℕ → Timers → Option (List ℕ × Timers)
  | [], t => some ([], t)
  | i :: rest, t =>
    if t.expires i = 0 then
      (t.proc i).bind fun p => (expire rest (t.delTimer i)).map fun r => (p :: r.1, r.2)
    else some ([], t)

/-- `run_timer_list`; the processes it wakes. -/
def runTimerList : Option (List ℕ × Timers) :=
  match t.list with
  | [] => some ([], t)
  | i :: rest => if t.expires i ≠ 0 then expire (i :: rest) (t.lower i 1) else none

/-! ## Deadlines -/

/-- The sum of a field from the head of a list up to an entry. -/
def sumTo (f : ℕ → UInt32) (i : ℕ) : List ℕ → ℕ
  | [] => 0
  | x :: rest => if x = i then (f x).toNat else (f x).toNat + sumTo f i rest

/-- The ticks that a queued timer still has to wait. -/
def remaining (i : ℕ) : ℕ := sumTo t.expires i t.list

/-- What the list stands for: the ticks that each pending timer still has to wait. -/
def deadlines (i : ℕ) : Option ℕ := if i ∈ t.list then some (t.remaining i) else none

/-- A tick of the clock on deadlines. -/
def tick (d : ℕ → Option ℕ) (i : ℕ) : Option ℕ :=
  (d i).bind fun n => if n ≤ 1 then none else some (n - 1)

/-- What holds of the list between two calls. -/
structure Inv (t : Timers) : Prop where
  nodup : t.list.Nodup
  head : ∀ i, t.list.head? = some i → t.expires i ≠ 0
  proc : ∀ i ∈ t.list, t.proc i ≠ none
  range : ∀ i ∈ t.list, t.remaining i < 2 ^ 32
  exact : t.wraps = false

variable {t} {f g : ℕ → UInt32} {i j : ℕ} {l : List ℕ}

theorem sumTo_cons_self (f : ℕ → UInt32) (i : ℕ) (l : List ℕ) : sumTo f i (i :: l) = (f i).toNat := by
  simp [sumTo]

theorem sumTo_cons_of_ne (f : ℕ → UInt32) {x : ℕ} (hne : x ≠ i) (l : List ℕ) :
    sumTo f i (x :: l) = (f x).toNat + sumTo f i l := by
  simp [sumTo, hne]

theorem sumTo_congr (h : ∀ x ∈ l, f x = g x) : sumTo f i l = sumTo g i l := by
  induction l with
  | nil => rfl
  | cons x rest ih =>
    have hrest := ih fun y hy => h y (List.mem_cons_of_mem x hy)
    unfold sumTo
    rw [h x (by simp), hrest]

@[simp] theorem lower_list (d : UInt32) : (t.lower i d).list = t.list := rfl

@[simp] theorem lower_proc (d : UInt32) : (t.lower i d).proc = t.proc := rfl

@[simp] theorem lower_self (d : UInt32) : (t.lower i d).expires i = t.expires i - d :=
  Function.update_self ..

theorem lower_of_ne (hne : j ≠ i) (d : UInt32) : (t.lower i d).expires j = t.expires j :=
  Function.update_of_ne hne ..

theorem lower_toNat {d : UInt32} (h : d ≤ t.expires i) :
    ((t.lower i d).expires i).toNat = (t.expires i).toNat - d.toNat := by
  rw [lower_self]
  exact UInt32.toNat_sub_of_le _ _ h

theorem lower_wraps {d : UInt32} (h : d ≤ t.expires i) : (t.lower i d).wraps = t.wraps := by
  have hlt : ¬ t.expires i < d := UInt32.not_lt.mpr h
  simp [lower, hlt]

@[simp] theorem raise_list (d : UInt32) : (t.raise i d).list = t.list := rfl

@[simp] theorem raise_proc (d : UInt32) : (t.raise i d).proc = t.proc := rfl

theorem raise_of_ne (hne : j ≠ i) (d : UInt32) : (t.raise i d).expires j = t.expires j :=
  Function.update_of_ne hne ..

theorem raise_toNat {d : UInt32} (h : (t.expires i).toNat + d.toNat < 2 ^ 32) :
    ((t.raise i d).expires i).toNat = (t.expires i).toNat + d.toNat := by
  show (Function.update t.expires i (t.expires i + d) i).toNat = _
  rw [Function.update_self, UInt32.toNat_add]
  exact Nat.mod_eq_of_lt h

theorem raise_wraps {d : UInt32} (h : (t.expires i).toNat + d.toNat < 2 ^ 32) :
    (t.raise i d).wraps = t.wraps := by
  have hlt : ¬ 2 ^ 32 ≤ (t.expires i).toNat + d.toNat := by omega
  show (t.wraps || decide _) = _
  rw [decide_eq_false hlt, Bool.or_false]

/-! ## Insertion -/

/-- What the loop of `add_timer` does from one place of the list on. -/
structure Placed (t : Timers) (i : ℕ) (l : List ℕ) (r : Timers × List ℕ) : Prop where
  list : r.1.list = t.list
  proc : r.1.proc = t.proc
  wraps : r.1.wraps = t.wraps
  mem : ∀ j, j ∈ r.2 ↔ j = i ∨ j ∈ l
  nodup : r.2.Nodup
  frame : ∀ j, j ≠ i → j ∉ l → r.1.expires j = t.expires j
  self : sumTo r.1.expires i r.2 = (t.expires i).toNat
  other : ∀ j ∈ l, sumTo r.1.expires j r.2 = sumTo t.expires j l

theorem place_spec (hout : i ∉ l) (hnodup : l.Nodup) : Placed t i l (t.place i l) := by
  induction l generalizing t with
  | nil =>
    refine ⟨rfl, rfl, rfl, fun j => by simp [place], by simp [place], fun j _ _ => rfl, ?_, nofun⟩
    exact sumTo_cons_self _ i []
  | cons next rest ih =>
    have hne : next ≠ i := fun h => hout (by simp [h])
    have hrest : i ∉ rest := fun h => hout (List.mem_cons_of_mem next h)
    obtain ⟨hnext, hnodup'⟩ := List.nodup_cons.mp hnodup
    by_cases hlt : t.expires i < t.expires next
    · have hplace : t.place i (next :: rest) = (t.lower next (t.expires i), i :: next :: rest) := by
        simp [place, hlt]
      have hle : t.expires i ≤ t.expires next := UInt32.le_of_lt hlt
      have hself : (t.lower next (t.expires i)).expires i = t.expires i := lower_of_ne hne.symm _
      have htail : ∀ x ∈ rest, (t.lower next (t.expires i)).expires x = t.expires x :=
        fun x hx => lower_of_ne (ne_of_mem_of_not_mem hx hnext) _
      have hle' : (t.expires i).toNat ≤ (t.expires next).toNat := hle
      rw [hplace]
      refine ⟨rfl, rfl, lower_wraps hle, fun j => by simp, ?_, fun j _ hj => ?_, ?_, fun j hj => ?_⟩
      · exact List.nodup_cons.mpr ⟨hout, hnodup⟩
      · exact lower_of_ne (fun h => hj (by simp [h])) _
      · rw [sumTo_cons_self, hself]
      · have hji : i ≠ j := fun h => hout (h ▸ hj)
        rw [sumTo_cons_of_ne _ hji, hself]
        by_cases hjn : next = j
        · subst hjn
          rw [sumTo_cons_self, sumTo_cons_self, lower_toNat hle]
          omega
        · rw [sumTo_cons_of_ne _ hjn, sumTo_cons_of_ne _ hjn, lower_toNat hle, sumTo_congr htail]
          omega
    · have hplace : t.place i (next :: rest) =
          (((t.lower i (t.expires next)).place i rest).1,
            next :: ((t.lower i (t.expires next)).place i rest).2) := by
        simp [place, hlt]
      have hle : t.expires next ≤ t.expires i := UInt32.not_lt.mp hlt
      have hle' : (t.expires next).toNat ≤ (t.expires i).toNat := hle
      have h := ih (t := t.lower i (t.expires next)) hrest hnodup'
      have hkeep : ((t.lower i (t.expires next)).place i rest).1.expires next = t.expires next := by
        rw [h.frame next hne hnext, lower_of_ne hne]
      have htail : ∀ x ∈ rest, (t.lower i (t.expires next)).expires x = t.expires x :=
        fun x hx => lower_of_ne (ne_of_mem_of_not_mem hx hrest) _
      rw [hplace]
      refine ⟨h.list, h.proc, h.wraps.trans (lower_wraps hle), fun j => ?_, ?_, fun j hji hj => ?_, ?_,
        fun j hj => ?_⟩
      · show j ∈ next :: _ ↔ _
        rw [List.mem_cons, h.mem, List.mem_cons]
        tauto
      · refine List.nodup_cons.mpr ⟨fun hmem => ?_, h.nodup⟩
        rcases (h.mem next).mp hmem with hni | hnr
        · exact hne hni
        · exact hnext hnr
      · rw [h.frame j hji fun hjr => hj (List.mem_cons_of_mem next hjr), lower_of_ne hji]
      · rw [sumTo_cons_of_ne _ hne, h.self, hkeep, lower_toNat hle]
        omega
      · by_cases hjn : next = j
        · subst hjn
          rw [sumTo_cons_self, sumTo_cons_self, hkeep]
        · have hjr : j ∈ rest := (List.mem_cons.mp hj).resolve_left fun h => hjn h.symm
          rw [sumTo_cons_of_ne _ hjn, sumTo_cons_of_ne _ hjn, hkeep, h.other j hjr, sumTo_congr htail]

/-- The head that the loop of `add_timer` leaves is the head it found, or the new timer. -/
theorem place_head (hout : i ∉ l) (hnodup : l.Nodup) (hi : t.expires i ≠ 0)
    (hhead : ∀ j, l.head? = some j → t.expires j ≠ 0) :
    ∀ j, (t.place i l).2.head? = some j → (t.place i l).1.expires j ≠ 0 := by
  intro j hj
  cases l with
  | nil =>
    cases hj
    exact hi
  | cons next rest =>
    have hne : next ≠ i := fun h => hout (by simp [h])
    have hnext := hhead next rfl
    by_cases hlt : t.expires i < t.expires next
    · have hplace : t.place i (next :: rest) = (t.lower next (t.expires i), i :: next :: rest) := by
        simp [place, hlt]
      rw [hplace] at hj ⊢
      cases hj
      show (t.lower next (t.expires i)).expires i ≠ 0
      rw [lower_of_ne hne.symm]
      exact hi
    · have hplace : t.place i (next :: rest) =
          (((t.lower i (t.expires next)).place i rest).1,
            next :: ((t.lower i (t.expires next)).place i rest).2) := by
        simp [place, hlt]
      have h := place_spec (t := t.lower i (t.expires next))
        (fun h => hout (List.mem_cons_of_mem next h)) (List.nodup_cons.mp hnodup).2
      rw [hplace] at hj ⊢
      have hjn : j = next := (Option.some.inj hj).symm
      rw [hjn]
      show ((t.lower i (t.expires next)).place i rest).1.expires next ≠ 0
      rw [h.frame next hne (List.nodup_cons.mp hnodup).1, lower_of_ne hne]
      exact hnext

theorem deadlines_of_mem (h : i ∈ t.list) : t.deadlines i = some (t.remaining i) := if_pos h

theorem deadlines_of_not_mem (h : i ∉ t.list) : t.deadlines i = none := if_neg h

/-- `add_timer` of a timer that is not queued and not yet due. -/
theorem Inv.add_spec (h : Inv t) (hout : i ∉ t.list) (hi : t.expires i ≠ 0) (hp : t.proc i ≠ none) :
    ∃ t', t.addTimer i = some t' ∧ Inv t' ∧ t'.proc = t.proc ∧
      t'.deadlines = Function.update t.deadlines i (some (t.expires i).toNat) := by
  have hpos : 0 < t.expires i := UInt32.pos_iff_ne_zero.mpr hi
  have hplaced := place_spec (t := t) hout h.nodup
  refine ⟨{ (t.place i t.list).1 with list := (t.place i t.list).2 }, ?_, ?_, hplaced.proc, ?_⟩
  · unfold addTimer
    rw [if_pos ⟨hpos, hp⟩, if_neg hout]
  · refine ⟨hplaced.nodup, place_head hout h.nodup hi h.head, fun j hj => ?_, fun j hj => ?_,
      hplaced.wraps.trans h.exact⟩
    · show (t.place i t.list).1.proc j ≠ none
      rw [hplaced.proc]
      rcases (hplaced.mem j).mp hj with rfl | hj
      · exact hp
      · exact h.proc j hj
    · show sumTo _ j (t.place i t.list).2 < _
      rcases (hplaced.mem j).mp hj with rfl | hj
      · rw [hplaced.self]
        exact UInt32.toNat_lt _
      · rw [hplaced.other j hj]
        exact h.range j hj
  · funext j
    by_cases hji : j = i
    · subst hji
      rw [Function.update_self, deadlines_of_mem ((hplaced.mem j).mpr (Or.inl rfl))]
      exact congrArg some hplaced.self
    · rw [Function.update_of_ne hji]
      by_cases hj : j ∈ t.list
      · rw [deadlines_of_mem hj, deadlines_of_mem ((hplaced.mem j).mpr (Or.inr hj))]
        exact congrArg some (hplaced.other j hj)
      · rw [deadlines_of_not_mem hj, deadlines_of_not_mem]
        intro hmem
        rcases (hplaced.mem j).mp hmem with hji' | hj'
        · exact hji hji'
        · exact hj hj'

/-! ## Deletion -/

theorem nextOf_mem {n : ℕ} (h : nextOf i l = some n) : n ∈ l.tail := by
  induction l with
  | nil => cases h
  | cons x rest ih =>
    unfold nextOf at h
    split at h
    · exact List.mem_of_mem_head? h
    · exact List.mem_of_mem_tail (ih h)

/-- The next timer comes after the timer: it waits for both fields. -/
theorem sumTo_nextOf {n : ℕ} (hnodup : l.Nodup) (h : nextOf i l = some n) :
    (f n).toNat + (f i).toNat ≤ sumTo f n l := by
  induction l with
  | nil => cases h
  | cons x rest ih =>
    obtain ⟨hx, hrest⟩ := List.nodup_cons.mp hnodup
    have hn := nextOf_mem h
    have hxn : x ≠ n := fun hxn => hx (hxn ▸ hn)
    rw [sumTo_cons_of_ne _ hxn]
    unfold nextOf at h
    split at h
    · rename_i hxi
      subst hxi
      cases rest with
      | nil => cases h
      | cons y rest =>
        cases h
        rw [sumTo_cons_self]
        omega
    · have := ih hrest h
      omega

/-- Moving the field of a timer to the next one, the sums without the timer are the sums with it. -/
theorem sumTo_erase (hnodup : l.Nodup)
    (hnext : ∀ n, nextOf i l = some n → (g n).toNat = (f n).toNat + (f i).toNat)
    (hframe : ∀ x, nextOf i l ≠ some x → g x = f x) (hji : j ≠ i) (hj : j ∈ l) :
    sumTo g j (l.erase i) = sumTo f j l := by
  induction l with
  | nil => cases hj
  | cons x rest ih =>
    obtain ⟨hx, hrest⟩ := List.nodup_cons.mp hnodup
    by_cases hxi : x = i
    · subst hxi
      have hjr : j ∈ rest := (List.mem_cons.mp hj).resolve_left hji
      have hhead : ∀ y, nextOf x (x :: rest) = some y ↔ rest.head? = some y := by
        intro y
        simp [nextOf]
      rw [List.erase_cons_head, sumTo_cons_of_ne _ hji.symm]
      cases rest with
      | nil => cases hjr
      | cons n rest =>
        have hn : (g n).toNat = (f n).toNat + (f x).toNat := hnext n ((hhead n).mpr rfl)
        by_cases hnj : n = j
        · subst hnj
          rw [sumTo_cons_self, sumTo_cons_self]
          omega
        · have htail : ∀ y ∈ rest, g y = f y := by
            intro y hy
            refine hframe y fun hy' => ?_
            have hny : n = y := Option.some.inj ((hhead y).mp hy')
            exact (List.nodup_cons.mp hrest).1 (hny ▸ hy)
          rw [sumTo_cons_of_ne _ hnj, sumTo_cons_of_ne _ hnj, sumTo_congr htail]
          omega
    · have hnextOf : nextOf i (x :: rest) = nextOf i rest := by simp [nextOf, hxi]
      have hgx : g x = f x := by
        refine hframe x fun hx' => hx ?_
        exact nextOf_mem hx'
      rw [hnextOf] at hnext hframe
      rw [List.erase_cons_tail (by simpa using hxi)]
      by_cases hxj : x = j
      · subst hxj
        rw [sumTo_cons_self, sumTo_cons_self, hgx]
      · have hjr : j ∈ rest := (List.mem_cons.mp hj).resolve_left fun h => hxj h.symm
        rw [sumTo_cons_of_ne _ hxj, sumTo_cons_of_ne _ hxj, hgx, ih hrest hnext hframe hjr]

/-- What `del_timer` does to a queued timer. -/
structure Deleted (t : Timers) (i : ℕ) (t' : Timers) : Prop where
  list : t'.list = t.list.erase i
  proc : t'.proc = t.proc
  wraps : t'.wraps = t.wraps
  next : ∀ n, nextOf i t.list = some n → (t'.expires n).toNat = (t.expires n).toNat + (t.expires i).toNat
  frame : ∀ x, nextOf i t.list ≠ some x → t'.expires x = t.expires x

theorem Inv.deleted (h : Inv t) (hi : i ∈ t.list) : Deleted t i (t.delTimer i) := by
  unfold delTimer
  rw [if_pos hi]
  by_cases hzero : t.expires i = 0
  · rw [if_neg (not_not.mpr hzero)]
    refine ⟨rfl, rfl, rfl, fun n _ => ?_, fun _ _ => rfl⟩
    rw [hzero]
    rfl
  · rw [if_pos hzero]
    cases hnext : nextOf i t.list with
    | none =>
      refine ⟨rfl, rfl, rfl, fun n hn => ?_, fun _ _ => rfl⟩
      rw [hnext] at hn
      cases hn
    | some n =>
      have hsum := sumTo_nextOf (f := t.expires) h.nodup hnext
      have hrange := h.range n (List.mem_of_mem_tail (nextOf_mem hnext))
      have hfit : (t.expires n).toNat + (t.expires i).toNat < 2 ^ 32 := by
        unfold remaining at hrange
        omega
      refine ⟨rfl, rfl, raise_wraps hfit, fun m hm => ?_, fun x hx => ?_⟩
      · rw [hnext] at hm
        cases hm
        exact raise_toNat hfit
      · exact raise_of_ne (fun hxn => hx (by rw [hnext, hxn])) _

/-- The deleted timer keeps what it had in its field. -/
theorem Inv.delTimer_self (h : Inv t) (i : ℕ) : (t.delTimer i).expires i = t.expires i := by
  by_cases hi : i ∈ t.list
  · refine (h.deleted hi).frame i fun hnext => ?_
    -- the next timer stands after the timer, and a timer stands in the list once
    have hnodup := h.nodup
    revert hnext hnodup
    generalize t.list = l
    intro hnext hnodup
    induction l with
    | nil => cases hnext
    | cons x rest ih =>
      have hout := (List.nodup_cons.mp hnodup).1
      have hmem := nextOf_mem hnext
      unfold nextOf at hnext
      split at hnext
      · rename_i hxi
        exact hout (hxi ▸ hmem)
      · exact ih hnext (List.nodup_cons.mp hnodup).2
  · unfold delTimer
    rw [if_neg hi]

/-- `del_timer` of any timer. -/
theorem Inv.del_spec (h : Inv t) (i : ℕ) :
    Inv (t.delTimer i) ∧ (t.delTimer i).proc = t.proc ∧
      (t.delTimer i).deadlines = Function.update t.deadlines i none := by
  by_cases hi : i ∈ t.list
  · have hdel := h.deleted hi
    have hmem : ∀ j, j ∈ (t.delTimer i).list ↔ j ≠ i ∧ j ∈ t.list := by
      intro j
      rw [hdel.list]
      exact h.nodup.mem_erase_iff
    have hsum : ∀ j, j ≠ i → j ∈ t.list → (t.delTimer i).remaining j = t.remaining j := by
      intro j hji hj
      unfold remaining
      rw [hdel.list]
      exact sumTo_erase h.nodup hdel.next hdel.frame hji hj
    refine ⟨⟨?_, fun j hj => ?_, fun j hj => ?_, fun j hj => ?_, hdel.wraps.trans h.exact⟩, hdel.proc,
      ?_⟩
    · rw [hdel.list]
      exact h.nodup.erase i
    · -- the new head is the old one, or comes after the deleted head
      rw [hdel.list] at hj
      have hnodup := h.nodup
      have hhead := h.head
      have hnext := hdel.next
      have hframe := hdel.frame
      revert hj hnodup hhead hnext hframe
      cases t.list with
      | nil => exact nofun
      | cons x rest =>
        intro hj hnodup hhead hnext hframe
        have hx := hhead x rfl
        by_cases hxi : x = i
        · subst hxi
          rw [List.erase_cons_head] at hj
          have hn := hnext j (by simpa [nextOf] using hj)
          intro hzero
          rw [hzero] at hn
          have hpos : 0 < (t.expires x).toNat := by
            have := UInt32.pos_iff_ne_zero.mpr hx
            exact this
          have hz : (0 : UInt32).toNat = 0 := rfl
          omega
        · rw [List.erase_cons_tail (by simpa using hxi)] at hj
          have hjx : x = j := Option.some.inj hj
          subst hjx
          rw [hframe x fun hx' => (List.nodup_cons.mp hnodup).1 (nextOf_mem hx')]
          exact hx
    · rw [hdel.proc]
      exact h.proc j ((hmem j).mp hj).2
    · rw [hsum j ((hmem j).mp hj).1 ((hmem j).mp hj).2]
      exact h.range j ((hmem j).mp hj).2
    · funext j
      by_cases hji : j = i
      · subst hji
        rw [Function.update_self]
        exact deadlines_of_not_mem fun hj => ((hmem j).mp hj).1 rfl
      · rw [Function.update_of_ne hji]
        by_cases hj : j ∈ t.list
        · rw [deadlines_of_mem hj, deadlines_of_mem ((hmem j).mpr ⟨hji, hj⟩), hsum j hji hj]
        · rw [deadlines_of_not_mem hj, deadlines_of_not_mem fun hj' => hj ((hmem j).mp hj').2]
  · have hsame : t.delTimer i = t := if_neg hi
    rw [hsame]
    refine ⟨h, rfl, ?_⟩
    rw [← deadlines_of_not_mem hi, Function.update_eq_self]

/-! ## The clock -/

/-- `del_timer` of a timer that adds nothing only takes it out of the list. -/
theorem delTimer_of_zero (hi : i ∈ t.list) (hzero : t.expires i = 0) :
    t.delTimer i = { t with list := t.list.erase i } := by
  unfold delTimer
  rw [if_pos hi, if_neg (not_not.mpr hzero)]

/-- The loop of `run_timer_list` takes the timers off the front that have nothing left to wait. -/
theorem expire_spec (hproc : ∀ i ∈ l, t.proc i ≠ none) :
    expire l { t with list := l } =
      some ((l.takeWhile fun i => t.expires i = 0).filterMap t.proc,
        { t with list := l.dropWhile fun i => t.expires i = 0 }) := by
  induction l with
  | nil => rfl
  | cons i rest ih =>
    unfold expire
    by_cases hzero : t.expires i = 0
    · obtain ⟨p, hp⟩ := Option.ne_none_iff_exists'.mp (hproc i (by simp))
      have hdel := delTimer_of_zero (t := { t with list := i :: rest }) (by simp) hzero
      rw [List.erase_cons_head] at hdel
      rw [if_pos hzero, hdel, ih fun j hj => hproc j (List.mem_cons_of_mem i hj)]
      simp [hzero, hp]
    · rw [if_neg hzero]
      simp [hzero]

theorem sumTo_of_mem_takeWhile (h : i ∈ l.takeWhile fun i => f i = 0) : sumTo f i l = 0 := by
  induction l with
  | nil => cases h
  | cons x rest ih =>
    by_cases hx : f x = 0
    · rw [List.takeWhile_cons_of_pos (by simpa using hx)] at h
      by_cases hxi : x = i
      · subst hxi
        rw [sumTo_cons_self, hx]
        rfl
      · rw [sumTo_cons_of_ne _ hxi, hx,
          ih ((List.mem_cons.mp h).resolve_left fun h => hxi h.symm)]
        rfl
    · rw [List.takeWhile_cons_of_neg (by simpa using hx)] at h
      cases h

theorem sumTo_dropWhile (hnodup : l.Nodup) (h : i ∈ l.dropWhile fun i => f i = 0) :
    sumTo f i (l.dropWhile fun i => f i = 0) = sumTo f i l ∧ sumTo f i l ≠ 0 := by
  induction l with
  | nil => cases h
  | cons x rest ih =>
    obtain ⟨hout, hrest⟩ := List.nodup_cons.mp hnodup
    by_cases hx : f x = 0
    · rw [List.dropWhile_cons_of_pos (by simpa using hx)] at h ⊢
      have hmem : i ∈ rest := (List.dropWhile_suffix _).subset h
      have hxi : x ≠ i := fun hxi => hout (hxi ▸ hmem)
      rw [sumTo_cons_of_ne _ hxi, hx]
      have hz : (0 : UInt32).toNat = 0 := rfl
      rw [hz, Nat.zero_add]
      exact ih hrest h
    · rw [List.dropWhile_cons_of_neg (by simpa using hx)]
      refine ⟨rfl, ?_⟩
      have hpos : (f x).toNat ≠ 0 := fun hz => hx (UInt32.toNat_inj.mp hz)
      unfold sumTo
      split <;> omega

/-- The entries before the first one with a field, where the entries are those with a property. -/
theorem takeWhile_eq_filter {q r : ℕ → Bool} (htake : ∀ i ∈ l.takeWhile q, r i = true)
    (hdrop : ∀ i ∈ l.dropWhile q, r i = false) : l.takeWhile q = l.filter r := by
  have hl : l.filter r = (l.takeWhile q ++ l.dropWhile q).filter r := by
    rw [List.takeWhile_append_dropWhile]
  have hnone : (l.dropWhile q).filter r = [] := by
    rw [List.filter_eq_nil_iff]
    intro i hi
    rw [hdrop i hi]
    exact Bool.false_ne_true
  rw [hl, List.filter_append, List.filter_eq_self.mpr htake, hnone, List.append_nil]

/-- With nothing before it, a queued timer waits at least as long as the head. -/
theorem sumTo_lower_head {x : ℕ} {rest : List ℕ} (hx : f x ≠ 0)
    (hg : g x = f x - 1) (hframe : ∀ y ∈ rest, g y = f y) (hi : i ∈ x :: rest) :
    sumTo g i (x :: rest) + 1 = sumTo f i (x :: rest) := by
  have hpos : 0 < (f x).toNat := Nat.pos_of_ne_zero fun hz => hx (UInt32.toNat_inj.mp hz)
  have hone : (1 : UInt32) ≤ f x := hpos
  have hgx : (g x).toNat = (f x).toNat - 1 := by
    rw [hg]
    exact UInt32.toNat_sub_of_le _ _ hone
  by_cases hxi : x = i
  · subst hxi
    rw [sumTo_cons_self, sumTo_cons_self]
    omega
  · rw [sumTo_cons_of_ne _ hxi, sumTo_cons_of_ne _ hxi, sumTo_congr hframe]
    omega

/-- The processes that a tick wakes: those of the timers with one tick left, in the order of the
list. -/
def due (t : Timers) : List ℕ := (t.list.filter fun i => t.remaining i = 1).filterMap t.proc

/-- `run_timer_list`. -/
theorem Inv.run_spec (h : Inv t) : ∃ t', t.runTimerList = some (t.due, t') ∧ Inv t' ∧
    t'.proc = t.proc ∧ t'.deadlines = tick t.deadlines := by
  unfold runTimerList
  cases hlist : t.list with
  | nil =>
    refine ⟨t, by simp [due, hlist], h, rfl, ?_⟩
    funext i
    have hout : i ∉ t.list := by simp [hlist]
    unfold tick
    rw [deadlines_of_not_mem hout]
    rfl
  | cons x rest =>
    have hnodup := h.nodup
    rw [hlist] at hnodup
    have hx : t.expires x ≠ 0 := h.head x (by simp [hlist])
    have hpos : 0 < (t.expires x).toNat := Nat.pos_of_ne_zero fun hz => hx (UInt32.toNat_inj.mp hz)
    have hone : (1 : UInt32) ≤ t.expires x := hpos
    have hsum : ∀ i ∈ x :: rest, sumTo (t.lower x 1).expires i (x :: rest) + 1 = t.remaining i := by
      intro i hi
      have hframe : ∀ y ∈ rest, (t.lower x 1).expires y = t.expires y :=
        fun y hy => lower_of_ne (ne_of_mem_of_not_mem hy (List.nodup_cons.mp hnodup).1) _
      have hlow := sumTo_lower_head hx (lower_self 1) hframe hi
      unfold remaining
      rw [hlist]
      exact hlow
    -- the timers at the front that are taken off have one tick left, the others more
    have htake : ∀ i ∈ (x :: rest).takeWhile fun i => (t.lower x 1).expires i = 0,
        t.remaining i = 1 := by
      intro i hi
      have hi' := hsum i ((List.takeWhile_prefix _).subset hi)
      rw [sumTo_of_mem_takeWhile hi] at hi'
      exact hi'.symm
    have hdrop : ∀ i ∈ (x :: rest).dropWhile fun i => (t.lower x 1).expires i = 0,
        sumTo (t.lower x 1).expires i ((x :: rest).dropWhile fun i => (t.lower x 1).expires i = 0) + 1 =
          t.remaining i ∧ 1 < t.remaining i := by
      intro i hi
      have hi' := hsum i ((List.dropWhile_suffix _).subset hi)
      obtain ⟨hsame, hne⟩ := sumTo_dropWhile hnodup hi
      rw [hsame]
      omega
    have hdue : ((x :: rest).takeWhile fun i => (t.lower x 1).expires i = 0).filterMap t.proc = t.due := by
      unfold due
      rw [hlist, takeWhile_eq_filter (r := fun i => t.remaining i = 1)]
      · intro i hi
        exact decide_eq_true (htake i hi)
      · intro i hi
        have := (hdrop i hi).2
        exact decide_eq_false (by omega)
    have hlower : t.lower x 1 = { t.lower x 1 with list := x :: rest } := by rw [← hlist]; rfl
    have hexpire := expire_spec (t := t.lower x 1) (l := x :: rest)
      fun i hi => h.proc i (by rw [hlist]; exact hi)
    rw [← hlower, lower_proc, hdue] at hexpire
    have hsub : ∀ i ∈ (x :: rest).dropWhile fun i => (t.lower x 1).expires i = 0, i ∈ t.list := by
      intro i hi
      rw [hlist]
      exact (List.dropWhile_suffix _).subset hi
    have hkept : ∀ i ∈ (x :: rest).dropWhile fun i => (t.lower x 1).expires i = 0,
        remaining ⟨(x :: rest).dropWhile fun i => (t.lower x 1).expires i = 0, (t.lower x 1).expires,
          t.proc, (t.lower x 1).wraps⟩ i = t.remaining i - 1 := fun i hi =>
      Nat.eq_sub_of_add_eq (hdrop i hi).1
    refine ⟨_, (if_pos hx).trans hexpire, ⟨?_, fun i hi => ?_, fun i hi => h.proc i (hsub i hi),
      fun i hi => ?_, ?_⟩, rfl, ?_⟩
    · exact hnodup.sublist (List.dropWhile_sublist _)
    · have := List.head?_dropWhile_not (fun i => decide ((t.lower x 1).expires i = 0)) (x :: rest)
      rw [hi] at this
      exact of_decide_eq_false this
    · have hrange := h.range i (hsub i hi)
      rw [hkept i hi]
      omega
    · exact (lower_wraps hone).trans h.exact
    · funext i
      unfold tick
      by_cases hi : i ∈ (x :: rest).dropWhile fun i => (t.lower x 1).expires i = 0
      · have hmore := (hdrop i hi).2
        rw [deadlines_of_mem hi, deadlines_of_mem (hsub i hi), Option.bind_some, if_neg (by omega),
          hkept i hi]
      · rw [deadlines_of_not_mem hi]
        by_cases hmem : i ∈ t.list
        · have hi' : i ∈ (x :: rest).takeWhile fun i => (t.lower x 1).expires i = 0 := by
            have hboth := hmem
            rw [hlist, ← List.takeWhile_append_dropWhile
              (p := fun i => decide ((t.lower x 1).expires i = 0)) (l := x :: rest)] at hboth
            exact (List.mem_append.mp hboth).resolve_right hi
          rw [deadlines_of_mem hmem, Option.bind_some, if_pos (by rw [htake i hi'])]
        · rw [deadlines_of_not_mem hmem]
          rfl

/-! ## Runs -/

/-- A call: `timer_init` of a timer with `add_timer`, `del_timer`, or a tick of the clock. -/
inductive Op where
  | add (i p : ℕ) (e : UInt32)
  | del (i : ℕ)
  | run
  deriving DecidableEq, Repr

/-- A timer is initialised when it is not queued, with something to wait. -/
def Enabled (t : Timers) : Op → Prop
  | .add i _ e => i ∉ t.list ∧ e ≠ 0
  | .del _ | .run => True

/-- One call, with the processes it wakes. -/
def step (t : Timers) : Op → Option (List ℕ × Timers)
  | .add i p e => ((t.timerInit i p e).addTimer i).map fun t => ([], t)
  | .del i => some ([], t.delTimer i)
  | .run => t.runTimerList

/-- What a call means on deadlines. -/
def Op.apply (d : ℕ → Option ℕ) : Op → ℕ → Option ℕ
  | .add i _ e => Function.update d i (some e.toNat)
  | .del i => Function.update d i none
  | .run => tick d

/-- What a call means on the processes of pending timers. -/
def Op.owner (d : ℕ → Option ℕ) : Op → ℕ → Option ℕ
  | .add i p _ => Function.update d i (some p)
  | .del _ | .run => d

/-- `sched_init`. -/
def schedInit (expires : ℕ → UInt32) (proc : ℕ → Option ℕ) : Timers := ⟨[], expires, proc, false⟩

/-- Any number of calls, the last one first. -/
inductive Run (t₀ : Timers) : List Op → Timers → Prop
  | nil : Run t₀ [] t₀
  | cons {tr : List Op} {t t' : Timers} {woken : List ℕ} (op : Op) (hrun : Run t₀ tr t)
      (henabled : t.Enabled op) (hstep : t.step op = some (woken, t')) : Run t₀ (op :: tr) t'

theorem schedInit_inv (expires : ℕ → UInt32) (proc : ℕ → Option ℕ) : Inv (schedInit expires proc) :=
  ⟨List.nodup_nil, nofun, nofun, nofun, rfl⟩

/-- Initialising a timer that is not queued changes nothing of the list. -/
theorem Inv.init (h : Inv t) (hout : i ∉ t.list) (p : ℕ) (e : UInt32) :
    Inv (t.timerInit i p e) ∧ (t.timerInit i p e).deadlines = t.deadlines := by
  have hne : ∀ j ∈ t.list, j ≠ i := fun j hj hji => hout (hji ▸ hj)
  have hexp : ∀ j ∈ t.list, (t.timerInit i p e).expires j = t.expires j :=
    fun j hj => Function.update_of_ne (hne j hj) ..
  have hsum : ∀ j, (t.timerInit i p e).remaining j = t.remaining j := fun j => sumTo_congr hexp
  refine ⟨⟨h.nodup, fun j hj => ?_, fun j hj => ?_, fun j hj => ?_, h.exact⟩, ?_⟩
  · rw [hexp j (List.mem_of_mem_head? hj)]
    exact h.head j hj
  · show Function.update t.proc i (some p) j ≠ none
    rw [Function.update_of_ne (hne j hj)]
    exact h.proc j hj
  · rw [hsum]
    exact h.range j hj
  · funext j
    unfold deadlines
    rw [hsum]
    rfl

/-- What one call does: it ends, and does to the deadlines what it means. -/
structure Does (t : Timers) (op : Op) (woken : List ℕ) (t' : Timers) : Prop where
  inv : Inv t'
  deadlines : t'.deadlines = op.apply t.deadlines
  proc : t'.proc = op.owner t.proc
  woken : woken = if op = .run then t.due else []

theorem Inv.step_spec (h : Inv t) {op : Op} (henabled : t.Enabled op) :
    ∃ woken t', t.step op = some (woken, t') ∧ Does t op woken t' := by
  cases op with
  | add i p e =>
    obtain ⟨hinit, hdead⟩ := h.init henabled.1 p e
    have hself : (t.timerInit i p e).expires i = e := Function.update_self ..
    have hproc : (t.timerInit i p e).proc i ≠ none := by
      show Function.update t.proc i (some p) i ≠ none
      rw [Function.update_self]
      exact Option.some_ne_none p
    obtain ⟨t', hadd, hinv, hprocs, hdeadlines⟩ :=
      hinit.add_spec henabled.1 (by rw [hself]; exact henabled.2) hproc
    refine ⟨[], t', ?_, hinv, ?_, hprocs, rfl⟩
    · show ((t.timerInit i p e).addTimer i).map _ = _
      rw [hadd]
      rfl
    · rw [hdeadlines, hself, hdead]
      rfl
  | del i =>
    obtain ⟨hinv, hproc, hdeadlines⟩ := h.del_spec i
    exact ⟨[], _, rfl, hinv, hdeadlines, hproc, rfl⟩
  | run =>
    obtain ⟨t', hrun, hinv, hproc, hdeadlines⟩ := h.run_spec
    exact ⟨_, t', hrun, hinv, hdeadlines, hproc, rfl⟩

theorem Run.inv {t₀ : Timers} {tr : List Op} (h₀ : Inv t₀) (h : Run t₀ tr t) : Inv t := by
  induction h with
  | nil => exact h₀
  | cons op _ henabled hstep ih =>
    obtain ⟨woken, t', hstep', hdoes⟩ := ih.step_spec henabled
    rw [hstep] at hstep'
    cases hstep'
    exact hdoes.inv

/-- The deadlines after a run are those that its calls mean. -/
theorem Run.deadlines {t₀ : Timers} {tr : List Op} (h₀ : Inv t₀) (h : Run t₀ tr t) :
    t.deadlines = tr.foldr (fun op d => op.apply d) t₀.deadlines := by
  induction h with
  | nil => rfl
  | cons op hrun henabled hstep ih =>
    obtain ⟨woken, t', hstep', hdoes⟩ := (hrun.inv h₀).step_spec henabled
    rw [hstep] at hstep'
    cases hstep'
    rw [hdoes.deadlines, ih]
    rfl

/-- The list after the calls `tr`: what each further call does to the remaining times, and that the
fields are in range. -/
structure Refines (tr : List Op) (t : Timers) : Prop where
  deadlines : t.deadlines = tr.foldr (fun op d => op.apply d) fun _ => none
  add : ∀ i p e, i ∉ t.list → e ≠ 0 → ∃ t', (t.timerInit i p e).addTimer i = some t' ∧
    i ∈ t'.list ∧ t'.remaining i = e.toNat ∧
    ∀ j, j ≠ i → (j ∈ t'.list ↔ j ∈ t.list) ∧ (j ∈ t.list → t'.remaining j = t.remaining j)
  del : ∀ i, i ∉ (t.delTimer i).list ∧ ∀ j, j ≠ i →
    (j ∈ (t.delTimer i).list ↔ j ∈ t.list) ∧
    (j ∈ t.list → (t.delTimer i).remaining j = t.remaining j)
  run : ∃ woken t', t.runTimerList = some (woken, t') ∧
    (∀ i, i ∈ t'.list ↔ i ∈ t.list ∧ t.remaining i ≠ 1) ∧
    (∀ i ∈ t'.list, t'.remaining i + 1 = t.remaining i) ∧
    woken = (t.list.filter fun i => t.remaining i = 1).filterMap t.proc
  head : ∀ i, t.list.head? = some i → t.expires i ≠ 0
  owned : ∀ i ∈ t.list, t.proc i ≠ none
  nodup : t.list.Nodup
  exact : t.wraps = false

theorem mem_of_deadlines {n : ℕ} (h : t.deadlines i = some n) : i ∈ t.list ∧ t.remaining i = n := by
  unfold deadlines at h
  split at h
  · rename_i hi
    exact ⟨hi, Option.some.inj h⟩
  · cases h

theorem not_mem_of_deadlines (h : t.deadlines i = none) : i ∉ t.list := by
  intro hi
  rw [deadlines_of_mem hi] at h
  cases h

/-- A timer with the same deadline is queued as before, with the same time to wait. -/
theorem same_of_deadlines {t' : Timers} (h : t'.deadlines j = t.deadlines j) :
    (j ∈ t'.list ↔ j ∈ t.list) ∧ (j ∈ t.list → t'.remaining j = t.remaining j) := by
  by_cases hj : j ∈ t.list
  · rw [deadlines_of_mem hj] at h
    obtain ⟨hj', hrem⟩ := mem_of_deadlines h
    exact ⟨⟨fun _ => hj, fun _ => hj'⟩, fun _ => hrem⟩
  · rw [deadlines_of_not_mem hj] at h
    exact ⟨⟨fun hj' => absurd hj' (not_mem_of_deadlines h), fun hj' => absurd hj' hj⟩,
      fun hj' => absurd hj' hj⟩

/-- A queued timer has something to wait. -/
theorem Inv.remaining_pos (h : Inv t) (hi : i ∈ t.list) : 0 < t.remaining i := by
  have hhead := h.head
  revert hi hhead
  unfold remaining
  cases t.list with
  | nil => exact nofun
  | cons x rest =>
    intro _ hhead
    have hx := hhead x rfl
    have hpos : (t.expires x).toNat ≠ 0 := fun hz => hx (UInt32.toNat_inj.mp hz)
    unfold sumTo
    split <;> omega

theorem Inv.add_refines (h : Inv t) {p : ℕ} {e : UInt32} (hout : i ∉ t.list) (he : e ≠ 0) :
    ∃ t', (t.timerInit i p e).addTimer i = some t' ∧ i ∈ t'.list ∧ t'.remaining i = e.toNat ∧
      ∀ j, j ≠ i → (j ∈ t'.list ↔ j ∈ t.list) ∧ (j ∈ t.list → t'.remaining j = t.remaining j) := by
  have henabled : t.Enabled (.add i p e) := ⟨hout, he⟩
  obtain ⟨woken, t', hstep, hdoes⟩ := h.step_spec henabled
  have hstep' : ((t.timerInit i p e).addTimer i).map (fun t => (([] : List ℕ), t)) = some (woken, t') :=
    hstep
  obtain ⟨t'', hadd, heq⟩ := Option.map_eq_some_iff.mp hstep'
  cases heq
  have hdead : t'.deadlines = Function.update t.deadlines i (some e.toNat) := hdoes.deadlines
  have hi := mem_of_deadlines (t := t') (i := i) (n := e.toNat) (by rw [hdead, Function.update_self])
  refine ⟨t', hadd, hi.1, hi.2, fun j hji => same_of_deadlines ?_⟩
  rw [hdead, Function.update_of_ne hji]

theorem Inv.run_refines (h : Inv t) : ∃ woken t', t.runTimerList = some (woken, t') ∧
    (∀ i, i ∈ t'.list ↔ i ∈ t.list ∧ t.remaining i ≠ 1) ∧
    (∀ i ∈ t'.list, t'.remaining i + 1 = t.remaining i) ∧
    woken = (t.list.filter fun i => t.remaining i = 1).filterMap t.proc := by
  obtain ⟨t', hrun, -, -, hdead⟩ := h.run_spec
  have htick : ∀ i ∈ t.list, t'.deadlines i =
      if t.remaining i ≤ 1 then none else some (t.remaining i - 1) := by
    intro i hi
    rw [hdead, tick, deadlines_of_mem hi, Option.bind_some]
  have hgone : ∀ i, i ∉ t.list → t'.deadlines i = none := by
    intro i hi
    rw [hdead, tick, deadlines_of_not_mem hi]
    rfl
  have hold : ∀ i ∈ t'.list, i ∈ t.list := by
    intro i hi
    by_contra hout
    exact not_mem_of_deadlines (hgone i hout) hi
  refine ⟨t.due, t', hrun, fun i => ⟨fun hi => ⟨hold i hi, fun hone => ?_⟩, fun hi => ?_⟩, fun i hi => ?_,
    rfl⟩
  · have hi' := htick i (hold i hi)
    rw [if_pos (by omega)] at hi'
    exact not_mem_of_deadlines hi' hi
  · have hi' := htick i hi.1
    have hpos := h.remaining_pos hi.1
    have hne := hi.2
    rw [if_neg (by omega)] at hi'
    exact (mem_of_deadlines hi').1
  · have hi' := htick i (hold i hi)
    split at hi'
    · exact absurd hi (not_mem_of_deadlines hi')
    · have := (mem_of_deadlines hi').2
      omega

/-- **The delta list is a set of deadlines.**  After any calls of `add_timer` with fresh timers,
`del_timer` and `run_timer_list`: a new timer waits for its own time, and no other timer's time
changes; nor does it when a timer is deleted; a tick lowers every time by one, and takes out and wakes
exactly the timers that reach zero; the head never has a zero field, and no field ever wraps. -/
theorem timer_list_refines (expires : ℕ → UInt32) (proc : ℕ → Option ℕ) (tr : List Op) (t : Timers)
    (hrun : Run (schedInit expires proc) tr t) : Refines tr t := by
  have h₀ := schedInit_inv expires proc
  have h := hrun.inv h₀
  refine ⟨hrun.deadlines h₀, fun i p e hout he => h.add_refines hout he, fun i => ?_, h.run_refines,
    h.head, h.proc, h.nodup, h.exact⟩
  have hdead := (h.del_spec i).2.2
  refine ⟨not_mem_of_deadlines (by rw [hdead, Function.update_self]), fun j hji => same_of_deadlines ?_⟩
  rw [hdead, Function.update_of_ne hji]

/-- Three timers, the second due with the third; the first is deleted. -/
theorem timer_list_refines_three : ∃ t, Run (schedInit (fun _ => 0) fun _ => none)
      [.del 1, .add 3 30 9, .add 2 20 9, .add 1 10 4] t ∧ t.list = [2, 3] ∧ t.expires 2 = 9 ∧
      t.expires 3 = 0 ∧ Refines [.del 1, .add 3 30 9, .add 2 20 9, .add 1 10 4] t := by
  have h₁ := (@Run.nil (schedInit (fun _ => 0) fun _ => none)).cons (.add 1 10 4) ⟨by decide, by decide⟩ rfl
  have h₂ := h₁.cons (.add 2 20 9) ⟨by decide, by decide⟩ rfl
  have h₃ := h₂.cons (.add 3 30 9) ⟨by decide, by decide⟩ rfl
  have h₄ := h₃.cons (.del 1) trivial rfl
  exact ⟨_, h₄, by decide, by decide, by decide, timer_list_refines _ _ _ _ h₄⟩

end Timers

end Ucore
