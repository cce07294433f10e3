import Mathlib.Dynamics.PeriodicPts.Defs
import Mathlib.GroupTheory.Perm.Cycle.Basic
import Mathlib.Data.Set.Finite.Lemmas

/-!
# Circular lists without a head

The entries of such lists have a link to the next and one to the previous entry.  Together the links of
all entries are a permutation and its inverse, and an entry's list is its cycle.

* `Ring.addBefore`, `Ring.delInit` — an insertion and a removal multiply by a transposition;
* `sameCycle_add`, `sameCycle_del` — what becomes of the cycles;
* `Ring.walk_spec` — walking along `next` until one is back at the start visits the cycle.
-/

namespace Ucore.Circular

open Equiv (swap)

variable {α : Type} {next prev : α → α} {σ τ : Equiv.Perm α} {S : α → Prop} {p q x y : α}

/-- The links of the entries in `S` are the permutation `σ` and its inverse. -/
structure Ring (S : α → Prop) (next prev : α → α) (σ : Equiv.Perm α) : Prop where
  next : ∀ a, S a → next a = σ a
  prev : ∀ a, S a → prev a = σ.symm a
  out : ∀ a, ¬ S a → σ a = a

theorem Ring.congr {next' prev' : α → α} (h : Ring S next prev σ)
    (hsame : ∀ a, S a → next' a = next a ∧ prev' a = prev a) : Ring S next' prev' σ :=
  ⟨fun a ha => (hsame a ha).1.trans (h.next a ha), fun a ha => (hsame a ha).2.trans (h.prev a ha),
    h.out⟩

theorem Ring.of_iff {S' : α → Prop} (h : Ring S next prev σ) (hiff : ∀ a, S' a ↔ S a) :
    Ring S' next prev σ := by
  have heq : S' = S := funext fun a => propext (hiff a)
  rw [heq]
  exact h

theorem Ring.mem_of_ne (h : Ring S next prev σ) (hp : σ p ≠ p) : S p :=
  Classical.not_not.mp fun hno => hp (h.out p hno)

theorem Ring.mem_apply (h : Ring S next prev σ) (hp : S p) : S (σ p) := by
  by_cases hself : σ p = p
  · rwa [hself]
  · exact h.mem_of_ne fun hno => hself (σ.injective hno)

theorem Ring.mem_symm (h : Ring S next prev σ) (hp : S p) : S (σ.symm p) := by
  by_cases hself : σ.symm p = p
  · rwa [hself]
  · refine h.mem_of_ne fun hno => hself ?_
    rw [Equiv.apply_symm_apply] at hno
    exact hno.symm

/-- A new entry that is alone. -/
theorem Ring.alone (h : Ring S next prev σ) (hp : ¬ S p) (hnext : next p = p) (hprev : prev p = p) :
    Ring (fun a => S a ∨ a = p) next prev σ := by
  have hout : σ p = p := h.out p hp
  refine ⟨?_, ?_, fun a ha => h.out a fun hno => ha (Or.inl hno)⟩
  · rintro a (ha | rfl)
    · exact h.next a ha
    · exact hnext.trans hout.symm
  · rintro a (ha | rfl)
    · exact h.prev a ha
    · rw [hprev, Equiv.eq_symm_apply]
      exact hout

/-- An entry that is alone is freed. -/
theorem Ring.remove (h : Ring S next prev σ) (hp : σ p = p) :
    Ring (fun a => S a ∧ a ≠ p) next prev σ := by
  refine ⟨fun a ha => h.next a ha.1, fun a ha => h.prev a ha.1, fun a ha => ?_⟩
  by_cases hap : a = p
  · rwa [hap]
  · exact h.out a fun hno => ha ⟨hno, hap⟩

theorem Ring.mem_sameCycle (h : Ring S next prev σ) (hp : S p) (hpq : σ.SameCycle p q) : S q := by
  by_contra hq
  have hqp : σ.SameCycle q p := hpq.symm
  obtain ⟨i, hi⟩ := hqp
  rw [Equiv.Perm.zpow_apply_eq_self_of_apply_eq_self (h.out q hq)] at hi
  exact hq (hi ▸ hp)

/-! ## What becomes of the cycles -/

/-- A map that takes one step of `σ` to steps of `τ`. -/
theorem sameCycle_map {f : α → α} (hf : ∀ z, τ.SameCycle (f z) (f (σ z))) (h : σ.SameCycle x y) :
    τ.SameCycle (f x) (f y) := by
  obtain ⟨i, rfl⟩ := h
  induction i with
  | zero => exact Equiv.Perm.SameCycle.refl τ (f x)
  | succ i ih =>
    rw [add_comm, zpow_add, zpow_one, Equiv.Perm.mul_apply]
    exact ih.trans (hf _)
  | pred i ih =>
    have hstep := hf ((σ ^ (-(i : ℤ) - 1)) x)
    rw [← Equiv.Perm.mul_apply, ← zpow_one_add, add_sub_cancel] at hstep
    exact ih.trans hstep.symm

theorem sameCycle_apply (σ : Equiv.Perm α) (x : α) : σ.SameCycle x (σ x) := ⟨1, by simp⟩

theorem sameCycle_fixed (h : σ p = p) : σ.SameCycle p q ↔ q = p := by
  constructor
  · rintro ⟨i, rfl⟩
    exact Equiv.Perm.zpow_apply_eq_self_of_apply_eq_self h i
  · rintro rfl
    exact Equiv.Perm.SameCycle.refl σ q

variable [DecidableEq α]

theorem swap_mul_apply_self (σ : Equiv.Perm α) (p : α) : (swap p (σ p) * σ) p = p := by
  rw [Equiv.Perm.mul_apply, Equiv.swap_apply_right]

theorem swap_mul_apply (σ : Equiv.Perm α) {p : α} (hx : x ≠ p) :
    (swap p (σ p) * σ) x = if σ x = p then σ p else σ x := by
  rw [Equiv.Perm.mul_apply]
  by_cases hxp : σ x = p
  · rw [if_pos hxp, hxp, Equiv.swap_apply_left]
  · rw [if_neg hxp]
    exact Equiv.swap_apply_of_ne_of_ne hxp fun heq => hx (σ.injective heq)

/-- Without `p` the other entries are on the cycles they were on. -/
theorem sameCycle_del (hx : x ≠ p) (hy : y ≠ p) :
    (swap p (σ p) * σ).SameCycle x y ↔ σ.SameCycle x y := by
  constructor
  · intro h
    refine sameCycle_map (f := id) (fun z => ?_) h
    by_cases hz : z = p
    · subst hz
      rw [swap_mul_apply_self]
    · show σ.SameCycle z _
      rw [swap_mul_apply σ hz]
      split
      · rename_i hzp
        have hstep := sameCycle_apply σ z
        rw [hzp] at hstep
        exact hstep.trans (sameCycle_apply σ p)
      · exact sameCycle_apply σ z
  · intro h
    have hmap := sameCycle_map (τ := swap p (σ p) * σ) (f := fun z => if z = p then σ p else z)
      (fun z => ?_) h
    · simpa only [if_neg hx, if_neg hy] using hmap
    · by_cases hz : z = p
      · subst hz
        by_cases hself : σ z = z
        · rw [hself]
        · rw [if_pos rfl, if_neg hself]
      · rw [if_neg hz]
        have hstep := sameCycle_apply (swap p (σ p) * σ) z
        rw [swap_mul_apply σ hz] at hstep
        exact hstep

theorem swap_swap_mul (hp : σ p = p) :
    swap p ((swap p q * σ) p) * (swap p q * σ) = σ := by
  have happ : (swap p q * σ) p = q := by
    rw [Equiv.Perm.mul_apply, hp, Equiv.swap_apply_left]
  rw [happ, ← mul_assoc, Equiv.swap_mul_self, one_mul]

/-- With a new entry the others are on the cycles they were on. -/
theorem sameCycle_add (hp : σ p = p) (hx : x ≠ p) (hy : y ≠ p) :
    (swap p q * σ).SameCycle x y ↔ σ.SameCycle x y := by
  have h := sameCycle_del (σ := swap p q * σ) hx hy
  rw [swap_swap_mul hp] at h
  exact h.symm

/-! ## The writes -/

/-- `list_add_before`: the new links to the next entry, with `p` before `q`. -/
def addNext (next prev : α → α) (q p : α) : α → α :=
  Function.update (Function.update next (prev q) p) p q

/-- `list_add_before`: the new links to the previous entry. -/
def addPrev (prev : α → α) (q p : α) : α → α :=
  Function.update (Function.update prev q p) p (prev q)

/-- `list_del_init`: the new links to the next entry. -/
def delNext (next prev : α → α) (p : α) : α → α :=
  Function.update (Function.update next (prev p) (next p)) p p

/-- `list_del_init`: the new links to the previous entry. -/
def delPrev (next prev : α → α) (p : α) : α → α :=
  Function.update (Function.update prev (next p) (prev p)) p p

/-- `p` comes into the list of `q`. -/
theorem Ring.addBefore (h : Ring S next prev σ) (hq : S q) (hp : ¬ S p) :
    Ring (fun a => S a ∨ a = p) (addNext next prev q p) (addPrev prev q p) (swap p q * σ) := by
  have hfix : σ p = p := h.out p hp
  have hne : ∀ a, S a → a ≠ p := fun a ha heq => hp (heq ▸ ha)
  have hpq : p ≠ q := (hne q hq).symm
  have hsymm : σ.symm p = p := by rw [Equiv.symm_apply_eq, hfix]
  have happly : ∀ a, S a → (swap p q * σ) a = if a = σ.symm q then p else σ a := by
    intro a ha
    rw [Equiv.Perm.mul_apply]
    by_cases haq : a = σ.symm q
    · rw [if_pos haq, haq, Equiv.apply_symm_apply, Equiv.swap_apply_right]
    · rw [if_neg haq]
      refine Equiv.swap_apply_of_ne_of_ne (fun heq => hne a ha ?_) fun heq => haq ?_
      · rwa [← σ.eq_symm_apply, hsymm] at heq
      · rwa [← σ.eq_symm_apply] at heq
  have hself : (swap p q * σ) p = q := by
    rw [Equiv.Perm.mul_apply, hfix, Equiv.swap_apply_left]
  refine ⟨?_, ?_, ?_⟩
  · rintro a (ha | rfl)
    · unfold addNext
      rw [Function.update_of_ne (hne a ha), happly a ha, h.prev q hq]
      by_cases haq : a = σ.symm q
      · rw [if_pos haq, haq, Function.update_self]
      · rw [if_neg haq, Function.update_of_ne haq]
        exact h.next a ha
    · unfold addNext
      rw [Function.update_self, hself]
  · rintro a (ha | rfl)
    · unfold addPrev
      rw [Function.update_of_ne (hne a ha), Equiv.eq_symm_apply]
      by_cases haq : a = q
      · rw [haq, Function.update_self, hself]
      · rw [Function.update_of_ne haq, h.prev a ha, happly _ (h.mem_symm ha), if_neg,
          Equiv.apply_symm_apply]
        exact fun heq => haq (σ.symm.injective heq)
    · unfold addPrev
      rw [Function.update_self, Equiv.eq_symm_apply, h.prev q hq, happly _ (h.mem_symm hq), if_pos rfl]
  · intro a ha
    have hap : a ≠ p := fun heq => ha (Or.inr heq)
    have haS : ¬ S a := fun hno => ha (Or.inl hno)
    rw [Equiv.Perm.mul_apply, h.out a haS]
    exact Equiv.swap_apply_of_ne_of_ne hap fun heq => haS (heq ▸ hq)

/-- `p` leaves its list. -/
theorem Ring.delInit (h : Ring S next prev σ) (hp : S p) :
    Ring S (delNext next prev p) (delPrev next prev p) (swap p (σ p) * σ) := by
  have hnext := h.next p hp
  have hprev := h.prev p hp
  refine ⟨fun a ha => ?_, fun a ha => ?_, fun a ha => ?_⟩
  · unfold delNext
    by_cases hap : a = p
    · subst hap
      rw [Function.update_self, swap_mul_apply_self]
    rw [Function.update_of_ne hap, swap_mul_apply σ hap, hprev, hnext]
    by_cases hap' : a = σ.symm p
    · rw [hap', Function.update_self, Equiv.apply_symm_apply, if_pos rfl]
    · rw [Function.update_of_ne hap', if_neg fun heq => hap' (σ.eq_symm_apply.mpr heq)]
      exact h.next a ha
  · unfold delPrev
    rw [Equiv.eq_symm_apply]
    by_cases hap : a = p
    · subst hap
      rw [Function.update_self, swap_mul_apply_self]
    rw [Function.update_of_ne hap, hnext, hprev]
    by_cases hap' : a = σ p
    · have hpp : σ.symm p ≠ p := fun heq => hap (hap'.trans (σ.symm_apply_eq.mp heq).symm)
      rw [hap', Function.update_self, swap_mul_apply σ hpp, Equiv.apply_symm_apply, if_pos rfl]
    · have hne : σ.symm a ≠ p := fun heq => hap' (σ.symm_apply_eq.mp heq)
      rw [Function.update_of_ne hap', h.prev a ha, swap_mul_apply σ hne, Equiv.apply_symm_apply,
        if_neg hap]
  · have hap : a ≠ p := fun heq => ha (heq ▸ hp)
    rw [swap_mul_apply σ hap, h.out a ha, if_neg hap]

/-! ## Walking along a list -/

/-- The entries from `q` on, until the next one is `p`; at most `fuel` of them. -/
def walk (next : α → α) (p : α) : ℕ → α → Option (List α)
  | 0, _ => none
  | fuel + 1, q => if next q = p then some [q] else (walk next p fuel (next q)).map (q :: ·)

omit [DecidableEq α] in
/-- An entry comes back to itself. -/
theorem exists_return (σ : Equiv.Perm α) {l : List α} (hl : ∀ n : ℕ, (σ ^ n) p ∈ l) :
    ∃ n, 0 < n ∧ (σ ^ n) p = p := by
  have hfin : {a | a ∈ l}.Finite := List.finite_toSet l
  obtain ⟨i, j, hij, heq⟩ := hfin.exists_lt_map_eq_of_forall_mem (f := fun n : ℕ => (σ ^ n) p) hl
  refine ⟨j - i, Nat.sub_pos_of_lt hij, ?_⟩
  apply (σ ^ i).injective
  rw [← Equiv.Perm.mul_apply, ← pow_add, Nat.add_sub_cancel' hij.le]
  exact heq.symm

/-- The walk, from one of the entries on. -/
theorem Ring.walk_from (h : Ring S next prev σ) (hp : S p) {n : ℕ} (hret : (σ ^ n) p = p)
    (hfirst : ∀ m, 0 < m → m < n → (σ ^ m) p ≠ p) (fuel : ℕ) {k : ℕ} (hk : k < n) (hfuel : n ≤ k + fuel) :
    walk next p fuel ((σ ^ k) p) = some ((List.range' k (n - k)).map fun i => (σ ^ i) p) := by
  have hS : ∀ m : ℕ, S ((σ ^ m) p) := fun m =>
    h.mem_sameCycle hp ⟨m, by rw [zpow_natCast]⟩
  induction fuel generalizing k with
  | zero => omega
  | succ fuel ih =>
    have hstep : next ((σ ^ k) p) = (σ ^ (k + 1)) p := by
      rw [h.next _ (hS k), pow_succ', Equiv.Perm.mul_apply]
    unfold walk
    rw [hstep]
    by_cases hlast : k + 1 = n
    · subst hlast
      rw [if_pos hret]
      simp
    · rw [if_neg (hfirst (k + 1) (Nat.succ_pos k) (by omega)), ih (by omega) (by omega)]
      have hlen : n - k = n - (k + 1) + 1 := by omega
      rw [hlen, List.range'_succ]
      rfl

/-- The walk around a list visits its entries, once each. -/
theorem Ring.walk_spec (h : Ring S next prev σ) (hp : S p) {l : List α} (hl : ∀ a, S a → a ∈ l)
    {fuel : ℕ} (hfuel : l.length ≤ fuel) :
    ∃ ts, walk next p fuel p = some (p :: ts) ∧ (p :: ts).Nodup ∧
      ∀ a, a ∈ p :: ts ↔ σ.SameCycle p a := by
  have hmem : ∀ n : ℕ, (σ ^ n) p ∈ l := fun n =>
    hl _ (h.mem_sameCycle hp ⟨n, by rw [zpow_natCast]⟩)
  have hex := exists_return σ hmem
  classical
  let n := Nat.find hex
  obtain ⟨hpos, hret⟩ : 0 < n ∧ (σ ^ n) p = p := Nat.find_spec hex
  have hfirst : ∀ m, 0 < m → m < n → (σ ^ m) p ≠ p := fun m hm hlt heq =>
    Nat.find_min hex hlt ⟨hm, heq⟩
  have hinj : ∀ i j, i < n → j < n → i ≤ j → (σ ^ i) p = (σ ^ j) p → i = j := by
    intro i j hi hj hij heq
    by_contra hne
    refine hfirst (j - i) (by omega) (by omega) ((σ ^ i).injective ?_)
    rw [← Equiv.Perm.mul_apply, ← pow_add, Nat.add_sub_cancel' hij]
    exact heq.symm
  have hnodup : ((List.range' 0 n).map fun i => (σ ^ i) p).Nodup := by
    refine List.Nodup.map_on (fun i hi j hj heq => ?_) List.nodup_range'
    have hi : i < n := by simpa using hi
    have hj : j < n := by simpa using hj
    rcases Nat.le_total i j with hij | hij
    · exact hinj i j hi hj hij heq
    · exact (hinj j i hj hi hij heq.symm).symm
  have hlen : n ≤ l.length := by
    have hsub := (hnodup.subperm fun a ha => by
      obtain ⟨i, -, rfl⟩ := List.mem_map.mp ha
      exact hmem i).length_le
    simpa using hsub
  have hwalk := h.walk_from hp hret hfirst fuel hpos (by omega)
  rw [pow_zero, Equiv.Perm.one_apply, Nat.sub_zero] at hwalk
  obtain ⟨m, hm⟩ : ∃ m, n = m + 1 := ⟨n - 1, by omega⟩
  have hcons : (List.range' 0 n).map (fun i => (σ ^ i) p) =
      p :: (List.range' 1 m).map fun i => (σ ^ i) p := by
    rw [hm, List.range'_succ]
    simp
  rw [hcons] at hwalk hnodup
  refine ⟨_, hwalk, hnodup, fun a => ?_⟩
  rw [← hcons, List.mem_map]
  constructor
  · rintro ⟨i, -, rfl⟩
    exact ⟨i, by rw [zpow_natCast]⟩
  · rintro ⟨i, rfl⟩
    have hmod : 0 ≤ i % n := Int.emod_nonneg i (by omega)
    have hlt : i % n < n := Int.emod_lt_of_pos i (by omega)
    refine ⟨(i % n).toNat, by simp; omega, ?_⟩
    have hnat : ((i % n).toNat : ℤ) = i % n := Int.toNat_of_nonneg hmod
    have hret' : (σ ^ (n : ℤ)) p = p := by rw [zpow_natCast, hret]
    have hround : (σ ^ ((n : ℤ) * (i / n))) p = p := by
      rw [zpow_mul]
      exact Equiv.Perm.zpow_apply_eq_self_of_apply_eq_self hret' _
    calc (σ ^ (i % n).toNat) p = (σ ^ (i % n)) p := by rw [← zpow_natCast, hnat]
      _ = (σ ^ (i % n)) ((σ ^ ((n : ℤ) * (i / n))) p) := by rw [hround]
      _ = (σ ^ i) p := by rw [← Equiv.Perm.mul_apply, ← zpow_add, Int.emod_add_mul_ediv]

end Ucore.Circular
