import Mathlib.Algebra.Order.Ring.Int
import Mathlib.Data.Int.LeastGreatest
import Mathlib.Order.Basic

/-!
# `stab_binsearch`

Reference model of `stab_binsearch` of `kern/debug/kdebug.c`.  An index is an `ℤ`: no array in a 32-bit address
space is long enough for `l + r` to overflow.  A read outside the array is a failure, an address wraps around.

* `probe` / `searchLoop` — one pass of the bisection, with the scan back to an entry of the right type;
* `Probed` — what one pass can do, and `searchLoop_invariant`, the rule for a whole search;
* `stab_binsearch_meets_iff` — the search reads no index outside the range, and its result is the documented one
  exactly under `Good`: it goes wrong without a match, and at an entry for `addr` before one for `addr + 1`.
-/

namespace Ucore.Debug

/-- The fields of `struct stab` that the search reads. -/
structure Stab where
  n_type : UInt8
  n_value : UInt32
  deriving DecidableEq, Repr

/-- The variables of `stab_binsearch`, the two behind its pointers included. -/
structure Search where
  l : ℤ
  r : ℤ
  any_matches : Bool
  region_left : ℤ
  region_right : ℤ
  addr : UInt32
  deriving DecidableEq, Repr

/-- `true_m`. -/
def Search.mid (s : Search) : ℤ := (s.l + s.r).tdiv 2

section code

variable (stabs : ℤ → Option Stab) (type : ℤ)

/-- `while (… && stabs[m].n_type != type) m --`, for the `n` indices up to `m`. -/
def scanBack : ℤ → ℕ → Option ℤ
  | m, 0 => some m
  | m, n + 1 => do
    let stab ← stabs m
    if stab.n_type.toNat ≠ type then scanBack (m - 1) n else return m

/-- One pass of the loop. -/
def probe (s : Search) : Option Search := do
  let true_m := s.mid
  let m ← scanBack stabs type true_m (true_m + 1 - s.l).toNat
  if m < s.l then
    return { s with l := true_m + 1 }
  let stab ← stabs m
  if stab.n_value < s.addr then
    return { s with any_matches := true, region_left := m, l := true_m + 1 }
  else if s.addr < stab.n_value then
    return { s with any_matches := true, region_right := m - 1, r := m - 1 }
  else
    return { s with any_matches := true, region_left := m, l := m, addr := s.addr + 1 }

def searchLoop : ℕ → Search → Option Search
  | 0, _ => none
  | fuel + 1, s => if s.l ≤ s.r then probe stabs type s >>= searchLoop fuel else some s

/-- What follows the loop: `*region_left` and `*region_right`. -/
def settle (s : Search) : Option (ℤ × ℤ) := do
  if s.any_matches = false then
    return (s.region_left, s.region_left - 1)
  let l ← scanBack stabs type s.region_right (s.region_right - s.region_left).toNat
  return (l, s.region_right)

/-- Two passes for each index are enough. -/
def stab_binsearch (region_left region_right : ℤ) (addr : UInt32) : Option (ℤ × ℤ) := do
  let s ← searchLoop stabs type (2 * (region_right + 1 - region_left).toNat + 2)
    ⟨region_left, region_right, false, region_left, region_right, addr⟩
  settle stabs type s

end code

/-! ## The contract -/

/-- An array, a range of it, and a type. -/
structure Region where
  stabs : ℤ → Stab
  left : ℤ
  right : ℤ
  type : ℤ

namespace Region

variable (g : Region)

/-- A read that has to be in the range. -/
def read (i : ℤ) : Option Stab := if g.left ≤ i ∧ i ≤ g.right then some (g.stabs i) else none

def value (i : ℤ) : UInt32 := (g.stabs i).n_value

/-- An entry of the type, in the range. -/
structure Entry (i : ℤ) : Prop where
  left_le : g.left ≤ i
  le_right : i ≤ g.right
  type_eq : (g.stabs i).n_type.toNat = g.type

def Increasing : Prop := ∀ i j, g.Entry i → g.Entry j → i < j → g.value i < g.value j

/-- `e` is the last entry with `n_value <= addr`. -/
structure Last (addr : UInt32) (e : ℤ) : Prop where
  entry : g.Entry e
  value_le : g.value e ≤ addr
  le_of_entry : ∀ i, g.Entry i → g.value i ≤ addr → i ≤ e

/-- `f` is the next entry after `e`. -/
structure Next (e f : ℤ) : Prop where
  entry : g.Entry f
  lt : e < f
  le_of_entry : ∀ i, g.Entry i → e < i → f ≤ i

/-- The documented result. -/
structure Meets (addr : UInt32) (region : ℤ × ℤ) : Prop where
  found : ∀ e, g.Last addr e →
    region.1 = e ∧ (∀ f, g.Next e f → region.2 = f - 1) ∧ ((∀ f, ¬ g.Next e f) → region.2 = g.right)
  notFound : (∀ i, g.Entry i → addr < g.value i) → region.2 < region.1

/-- `m` is the last entry that is not after `x`. -/
structure Nearest (x m : ℤ) : Prop where
  entry : g.Entry m
  le : m ≤ x
  le_of_entry : ∀ i, g.Entry i → i ≤ x → i ≤ m

/-- The bisection of `[l, r]` for the entry `e` comes upon `f` before it comes upon `e`. -/
inductive Clears (e f : ℤ) : ℤ → ℤ → Prop where
  | before {l r : ℤ} (hmid : (l + r).tdiv 2 < e) (h : Clears e f ((l + r).tdiv 2 + 1) r) : Clears e f l r
  | after {l r m : ℤ} (hm : g.Nearest ((l + r).tdiv 2) m) (hf : f < m) (h : Clears e f l (m - 1)) : Clears e f l r
  | next {l r : ℤ} (hf : g.Nearest ((l + r).tdiv 2) f) : Clears e f l r

/-- What the documented result depends on. -/
structure Good (addr : UInt32) : Prop where
  empty : (∀ i, g.Entry i → addr < g.value i) → ∀ i, ¬ g.Entry i
  hit : ∀ e, g.Last addr e → g.value e = addr → addr + 1 ≠ 0 ∧
    ∀ f, g.Next e f → g.value f = addr + 1 → g.Clears e f g.left g.right ∨ f = e + 1 ∧ addr + 2 = 0

/-! ## One pass -/

/-- What one pass can do. -/
inductive Probed (s : Search) : Search → Prop where
  | nothing (hnone : ∀ i, g.Entry i → s.l ≤ i → s.mid < i) : Probed s { s with l := s.mid + 1 }
  | below {m : ℤ} (hm : g.Nearest s.mid m) (hl : s.l ≤ m) (hv : g.value m < s.addr) :
      Probed s { s with any_matches := true, region_left := m, l := s.mid + 1 }
  | above {m : ℤ} (hm : g.Nearest s.mid m) (hl : s.l ≤ m) (hv : s.addr < g.value m) :
      Probed s { s with any_matches := true, region_right := m - 1, r := m - 1 }
  | hit {m : ℤ} (hm : g.Nearest s.mid m) (hl : s.l ≤ m) (hv : g.value m = s.addr) :
      Probed s { s with any_matches := true, region_left := m, l := m, addr := s.addr + 1 }

variable {g} {s s' : Search}

theorem read_eq_some {i : ℤ} {stab : Stab} :
    g.read i = some stab ↔ g.left ≤ i ∧ i ≤ g.right ∧ g.stabs i = stab := by
  unfold read
  split
  · rename_i h
    simp [h]
  · rename_i h
    constructor
    · rintro ⟨⟩
    · exact fun hi => absurd ⟨hi.1, hi.2.1⟩ h

theorem mid_bounds (h : s.l ≤ s.r) : s.l ≤ s.mid ∧ s.mid ≤ s.r := by
  unfold Search.mid
  rw [Int.tdiv_eq_ediv]
  split
  · omega
  · rename_i hodd
    have : ¬ (2 : ℤ) ∣ s.l + s.r := fun hd => hodd (.inr hd)
    simp only [Int.sign]
    omega

/-- The scan finds the last entry among the indices, or none. -/
theorem scanBack_eq {n : ℕ} {m k : ℤ} (h : scanBack g.read g.type m n = some k) :
    k ≤ m ∧ m - n ≤ k ∧ (∀ i, g.Entry i → i ≤ m → i ≤ k ∨ i ≤ m - n) ∧ (k = m - n ∨ g.Entry k) := by
  induction n generalizing m with
  | zero =>
    obtain rfl : m = k := by simpa [scanBack] using h
    exact ⟨le_rfl, by omega, fun i _ hi => .inl hi, .inl (by omega)⟩
  | succ n ih =>
    obtain ⟨stab, hread, h⟩ := Option.bind_eq_some_iff.mp h
    obtain ⟨hleft, hright, rfl⟩ := read_eq_some.mp hread
    split at h
    · rename_i hne
      obtain ⟨hle, hge, hlast, hk⟩ := ih h
      refine ⟨by omega, by omega, fun i hi him => ?_, hk.imp_left fun hk => by omega⟩
      have : i ≠ m := fun he => hne (he ▸ hi.type_eq)
      exact (hlast i hi (by omega)).imp_right fun hi => by omega
    · rename_i heq
      obtain rfl : m = k := by simpa using h
      exact ⟨le_rfl, by omega, fun i _ hi => .inl hi, .inr ⟨hleft, hright, by simpa using heq⟩⟩

theorem exists_scanBack {n : ℕ} {m : ℤ} (hn : n = 0 ∨ g.left ≤ m + 1 - n ∧ m ≤ g.right) :
    ∃ k, scanBack g.read g.type m n = some k := by
  induction n generalizing m with
  | zero => exact ⟨m, rfl⟩
  | succ n ih =>
    have hread : g.read m = some (g.stabs m) := read_eq_some.mpr ⟨by omega, by omega, rfl⟩
    simp only [scanBack, hread, Option.bind_eq_bind, Option.bind_some]
    split
    · exact ih (by omega)
    · exact ⟨m, rfl⟩

theorem probed_of_probe (h : probe g.read g.type s = some s') (hle : s.l ≤ s.r) : g.Probed s s' := by
  obtain ⟨hl, -⟩ := mid_bounds hle
  obtain ⟨m, hscan, h⟩ := Option.bind_eq_some_iff.mp h
  obtain ⟨hm, hge, hlast, hk⟩ := scanBack_eq hscan
  by_cases hnone : m < s.l
  · rw [if_pos hnone] at h
    obtain rfl := Option.some.inj h
    apply Probed.nothing
    intro i hi hli
    by_contra hmid
    have := hlast i hi (by omega)
    omega
  · rw [if_neg hnone] at h
    have hentry : g.Entry m := hk.resolve_left (by omega)
    have hnear : g.Nearest s.mid m := ⟨hentry, hm, fun i hi him => by have := hlast i hi him; omega⟩
    obtain ⟨stab, hread, h⟩ := Option.bind_eq_some_iff.mp h
    obtain ⟨-, -, rfl⟩ := read_eq_some.mp hread
    change (if g.value m < s.addr then _ else if s.addr < g.value m then _ else _) = _ at h
    by_cases hlt : g.value m < s.addr
    · rw [if_pos hlt] at h
      obtain rfl := Option.some.inj h
      exact .below hnear (by omega) hlt
    · rw [if_neg hlt] at h
      by_cases hgt : s.addr < g.value m
      · rw [if_pos hgt] at h
        obtain rfl := Option.some.inj h
        exact .above hnear (by omega) hgt
      · rw [if_neg hgt] at h
        obtain rfl := Option.some.inj h
        exact .hit hnear (by omega) (UInt32.le_antisymm (UInt32.not_lt.mp hgt) (UInt32.not_lt.mp hlt))

/-! ## A whole search -/

/-- What is read is in the range. -/
structure Within (g : Region) (s : Search) : Prop where
  left_le : g.left ≤ s.l
  le_right : s.r ≤ g.right
  left_le_region : g.left ≤ s.region_left
  region_le_right : s.region_right ≤ g.right

theorem Within.exists_probe (hw : g.Within s) (hle : s.l ≤ s.r) : ∃ s', probe g.read g.type s = some s' := by
  obtain ⟨hl, hr⟩ := mid_bounds hle
  have hleft := hw.left_le
  have hright := hw.le_right
  obtain ⟨m, hscan⟩ := exists_scanBack (g := g) (n := (s.mid + 1 - s.l).toNat) (m := s.mid) (.inr (by omega))
  have hm := (scanBack_eq hscan).1
  simp only [probe, hscan, Option.bind_eq_bind, Option.bind_some]
  by_cases hnone : m < s.l
  · rw [if_pos hnone]
    exact ⟨_, rfl⟩
  · rw [if_neg hnone, read_eq_some.mpr ⟨by omega, by omega, rfl⟩, Option.bind_some]
    split
    · exact ⟨_, rfl⟩
    · split
      · exact ⟨_, rfl⟩
      · exact ⟨_, rfl⟩

theorem Within.step (hw : g.Within s) (hle : s.l ≤ s.r) (h : g.Probed s s') : g.Within s' := by
  obtain ⟨hleft, hright, hregion, hregion'⟩ := hw
  obtain ⟨hl, hr⟩ := mid_bounds hle
  cases h with
  | nothing _ => exact ⟨by simp only; omega, hright, hregion, hregion'⟩
  | below hm hl' _ => exact ⟨by simp only; omega, hright, hleft.trans hl', hregion'⟩
  | above hm hl' _ =>
    have := hm.le
    exact ⟨hleft, by simp only; omega, hregion, by simp only; omega⟩
  | hit hm hl' _ => exact ⟨hleft.trans hl', hright, hleft.trans hl', hregion'⟩

/-- The passes that are left.  A hit at `l` itself takes one more, as it does not make the range smaller. -/
def Enough (g : Region) (n : ℕ) (s : Search) : Prop :=
  2 * (s.r + 1 - s.l).toNat + 2 ≤ n ∨ 2 * (s.r + 1 - s.l).toNat + 1 ≤ n ∧ g.value s.l ≠ s.addr

theorem Enough.step {n : ℕ} (hn : g.Enough (n + 1) s) (hle : s.l ≤ s.r) (h : g.Probed s s') : g.Enough n s' := by
  obtain ⟨hl, hr⟩ := mid_bounds hle
  have hwidth : 2 * (s.r + 1 - s.l).toNat ≤ n := by
    rcases hn with hn | ⟨hn, -⟩
    · omega
    · omega
  cases h with
  | nothing _ => exact .inl (by simp only; omega)
  | below _ _ _ => exact .inl (by simp only; omega)
  | above hm _ _ =>
    have := hm.le
    exact .inl (by simp only; omega)
  | @hit m hm hl' hv =>
    rcases hl'.lt_or_eq with hlt | rfl
    · exact .inl (by simp only; omega)
    · have hn : 2 * (s.r + 1 - s.l).toNat + 2 ≤ n + 1 := hn.resolve_right fun hn => hn.2 hv
      refine .inr ⟨by simp only; omega, ?_⟩
      show g.value s.l ≠ s.addr + 1
      rw [hv]
      simp

theorem Within.exists_searchLoop {n : ℕ} (hw : g.Within s) (hn : g.Enough n s) :
    ∃ s', searchLoop g.read g.type n s = some s' ∧ g.Within s' := by
  induction n generalizing s with
  | zero =>
    rcases hn with hn | ⟨hn, -⟩
    · omega
    · omega
  | succ n ih =>
    by_cases hle : s.l ≤ s.r
    · obtain ⟨s₁, hprobe⟩ := hw.exists_probe hle
      have hstep := probed_of_probe hprobe hle
      obtain ⟨s', hloop, hw'⟩ := ih (hw.step hle hstep) (hn.step hle hstep)
      refine ⟨s', ?_, hw'⟩
      simp only [searchLoop, if_pos hle, hprobe, Option.bind_eq_bind, Option.bind_some]
      exact hloop
    · exact ⟨s, if_neg hle, hw⟩

theorem searchLoop_succ {n : ℕ} (hle : s.l ≤ s.r) (h : searchLoop g.read g.type (n + 1) s = some s') :
    ∃ s₁, g.Probed s s₁ ∧ searchLoop g.read g.type n s₁ = some s' := by
  rw [searchLoop, if_pos hle] at h
  obtain ⟨s₁, hprobe, h⟩ := Option.bind_eq_some_iff.mp h
  exact ⟨s₁, probed_of_probe hprobe hle, h⟩

theorem searchLoop_done {n : ℕ} (hlt : s.r < s.l) (h : searchLoop g.read g.type n s = some s') : s' = s := by
  cases n with
  | zero => cases h
  | succ n =>
    rw [searchLoop, if_neg (not_le.mpr hlt)] at h
    exact (Option.some.inj h).symm

/-- What every pass keeps holds after the loop. -/
theorem searchLoop_invariant {P : Search → Prop} (hstep : ∀ s s', s.l ≤ s.r → g.Probed s s' → P s → P s') {n : ℕ}
    (h : searchLoop g.read g.type n s = some s') (hs : P s) : P s' ∧ s'.r < s'.l := by
  induction n generalizing s with
  | zero => cases h
  | succ n ih =>
    by_cases hle : s.l ≤ s.r
    · obtain ⟨s₁, hprobed, h⟩ := searchLoop_succ hle h
      exact ih h (hstep s s₁ hle hprobed hs)
    · obtain rfl := searchLoop_done (not_le.mp hle) h
      exact ⟨hs, not_le.mp hle⟩

theorem Within.exists_settle (hw : g.Within s) : ∃ region, settle g.read g.type s = some region := by
  unfold settle
  split
  · exact ⟨_, rfl⟩
  · have hleft := hw.left_le_region
    have hright := hw.region_le_right
    obtain ⟨k, hscan⟩ := exists_scanBack (g := g) (n := (s.region_right - s.region_left).toNat) (m := s.region_right)
      (by omega)
    exact ⟨(k, s.region_right), by simp [hscan]⟩

/-- After a match, the scan back from `*region_right`. -/
theorem settle_eq {region : ℤ × ℤ} (hany : s.any_matches = true) (h : settle g.read g.type s = some region) :
    region.2 = s.region_right ∧
      scanBack g.read g.type s.region_right (s.region_right - s.region_left).toNat = some region.1 := by
  simp only [settle, hany, Bool.true_eq_false, if_false] at h
  obtain ⟨k, hscan, h⟩ := Option.bind_eq_some_iff.mp h
  obtain rfl := Option.some.inj h
  exact ⟨rfl, hscan⟩

/-! ## An entry below the address -/

/-- `e` is the last entry that is not above `addr`, and no entry that is left is `addr` itself. -/
structure Bracket (g : Region) (e : ℤ) (s : Search) : Prop where
  entry : g.Entry e
  lower : s.region_left ≤ e
  upper : e ≤ s.r
  right : s.region_right = s.r
  edge : s.r = g.right ∨ g.Entry (s.r + 1)
  any : e < s.l → s.any_matches = true
  done : ∀ i, g.Entry i → i < s.l → i ≤ e
  value : ∀ i, g.Entry i → s.l ≤ i → i ≤ s.r → g.value i ≠ s.addr ∧ (g.value i < s.addr ↔ i ≤ e)

theorem Bracket.step {e : ℤ} (s s' : Search) (hle : s.l ≤ s.r) (h : g.Probed s s') (hb : g.Bracket e s) :
    g.Bracket e s' := by
  obtain ⟨hl, hr⟩ := mid_bounds hle
  cases h with
  | nothing hnone =>
    refine { hb with any := fun he => hb.any ?_, done := fun i hi hlt => ?_, value := fun i hi hli hir => ?_ }
    · by_contra hge
      have := hnone e hb.entry (not_lt.mp hge)
      simp only at he
      omega
    · by_contra hgt
      have := hb.done i hi
      have := hnone i hi
      simp only at hlt
      omega
    · exact hb.value i hi (by simp only at hli; omega) hir
  | @below m hm hl' hv =>
    have hme : m ≤ e := ((hb.value m hm.entry hl' (hm.le.trans hr)).2).mp hv
    refine { hb with lower := hme, any := fun _ => rfl, done := fun i hi hlt => ?_, value := fun i hi hli hir => ?_ }
    · exact (hm.le_of_entry i hi (by simp only at hlt; omega)).trans hme
    · exact hb.value i hi (by simp only at hli; omega) hir
  | @above m hm hl' hv =>
    have hem : e < m := by
      by_contra hge
      have := ((hb.value m hm.entry hl' (hm.le.trans hr)).2).mpr (not_lt.mp hge)
      exact UInt32.lt_asymm this hv
    have := hm.le
    refine { hb with upper := by simp only; omega, right := rfl, edge := .inr ?_, any := fun _ => rfl, value := ?_ }
    · simpa using hm.entry
    · exact fun i hi hli hir => hb.value i hi hli (by simp only at hir; omega)
  | @hit m hm hl' hv => exact absurd hv (hb.value m hm.entry hl' (hm.le.trans hr)).1

theorem Bracket.settled {e : ℤ} {region : ℤ × ℤ} (hb : g.Bracket e s) (hlt : s.r < s.l)
    (h : settle g.read g.type s = some region) :
    region.1 = e ∧ (∀ f, g.Next e f → region.2 = f - 1) ∧ ((∀ f, ¬ g.Next e f) → region.2 = g.right) := by
  have hupper := hb.upper
  have hlower := hb.lower
  obtain ⟨hright, hscan⟩ := settle_eq (hb.any (by omega)) h
  rw [hb.right] at hright hscan
  obtain ⟨hk, hge, hlast, hentry⟩ := scanBack_eq hscan
  have hdone : ∀ i, g.Entry i → i ≤ s.r → i ≤ e := fun i hi hir => hb.done i hi (by omega)
  have hedge : ∀ i, g.Entry i → e < i → s.r + 1 ≤ i := fun i hi hlt => by
    by_contra hir
    have := hdone i hi (by omega)
    omega
  refine ⟨?_, fun f hf => ?_, fun hnone => ?_⟩
  · have := hlast e hb.entry hupper
    rcases hentry with hk' | hentry
    · omega
    · have := hdone _ hentry hk
      omega
  · have := hedge f hf.entry hf.lt
    rcases hb.edge with hr | hr
    · have := hf.entry.le_right
      omega
    · have := hf.le_of_entry _ hr (by omega)
      omega
  · rw [hright]
    exact hb.edge.resolve_right fun hr => hnone _ ⟨hr, by omega, hedge⟩

/-! ## No entry below the address -/

/-- No entry is at or below `addr`. -/
structure AllAbove (g : Region) (s : Search) : Prop where
  above : ∀ i, g.Entry i → s.addr < g.value i
  left : s.region_left = g.left
  edge : s.any_matches = false → s.r = g.right
  matched : s.any_matches = true → ∃ i, g.Entry i
  done : ∀ i, g.Entry i → s.l ≤ i

theorem AllAbove.step (s s' : Search) (_ : s.l ≤ s.r) (h : g.Probed s s') (ha : g.AllAbove s) : g.AllAbove s' := by
  cases h with
  | nothing hnone => exact { ha with done := fun i hi => hnone i hi (ha.done i hi) }
  | below hm _ hv => exact absurd hv (UInt32.lt_asymm (ha.above _ hm.entry))
  | above hm _ _ => exact { ha with edge := fun h => Bool.noConfusion h, matched := fun _ => ⟨_, hm.entry⟩ }
  | hit hm _ hv => exact absurd hv.symm (UInt32.ne_of_lt (ha.above _ hm.entry))

/-- `*region_left > *region_right` then takes that nothing was compared. -/
theorem AllAbove.settled {region : ℤ × ℤ} (ha : g.AllAbove s) (hlt : s.r < s.l)
    (h : settle g.read g.type s = some region) : region.2 < region.1 ↔ ∀ i, ¬ g.Entry i := by
  cases hany : s.any_matches with
  | false =>
    obtain rfl : (s.region_left, s.region_left - 1) = region := by simpa [settle, hany] using h
    have hright := ha.edge hany
    refine iff_of_true (by simp only; omega) fun i hi => ?_
    have := ha.done i hi
    have := hi.le_right
    omega
  | true =>
    obtain ⟨hright, hscan⟩ := settle_eq hany h
    obtain ⟨hk, -, -, -⟩ := scanBack_eq hscan
    obtain ⟨i, hi⟩ := ha.matched hany
    exact iff_of_false (by omega) fun hno => hno i hi

/-! ## An exact hit -/

/-- The entry `e` is `addr`, and is not found yet. -/
structure Seek (g : Region) (e : ℤ) (s : Search) : Prop where
  entry : g.Entry e
  value : g.value e = s.addr
  low : s.l ≤ e
  high : e ≤ s.r
  right : s.region_right = s.r
  edge : s.r = g.right ∨ g.Entry (s.r + 1)

/-- The search after the hit at `e`, with the new address. -/
def hitAt (e r : ℤ) (addr : UInt32) : Search := ⟨e, r, true, e, r, addr⟩

theorem Nearest.unique {x m m' : ℤ} (h : g.Nearest x m) (h' : g.Nearest x m') : m = m' :=
  le_antisymm (h'.le_of_entry m h.entry h.le) (h.le_of_entry m' h'.entry h'.le)

section clears

variable {e f l r m : ℤ}

theorem clears_before (hmid : (l + r).tdiv 2 < e) (hef : e < f) :
    g.Clears e f l r ↔ g.Clears e f ((l + r).tdiv 2 + 1) r := by
  refine ⟨fun h => ?_, .before hmid⟩
  cases h with
  | before _ h => exact h
  | after hm hf _ => exact absurd hm.le (by omega)
  | next hf => exact absurd hf.le (by omega)

theorem clears_after (hm : g.Nearest ((l + r).tdiv 2) m) (hef : e < f) (hf : f < m) :
    g.Clears e f l r ↔ g.Clears e f l (m - 1) := by
  refine ⟨fun h => ?_, .after hm hf⟩
  cases h with
  | before hmid _ => exact absurd hm.le (by omega)
  | after hm' _ h => exact hm.unique hm' ▸ h
  | next hf' => exact absurd (hm.unique hf') (by omega)

theorem not_clears (hm : g.Nearest ((l + r).tdiv 2) e) (hef : e < f) : ¬ g.Clears e f l r := by
  intro h
  cases h with
  | before hmid _ => exact absurd hm.le (by omega)
  | after hm' hf _ => exact absurd (hm.unique hm') (by omega)
  | next hf => exact absurd (hm.unique hf) (by omega)

end clears

theorem Increasing.lt_iff (hinc : g.Increasing) {i j : ℤ} (hi : g.Entry i) (hj : g.Entry j) :
    g.value i < g.value j ↔ i < j := by
  refine ⟨fun h => ?_, hinc i j hi hj⟩
  by_contra hge
  rcases (not_lt.mp hge).lt_or_eq with hlt | rfl
  · exact UInt32.lt_asymm h (hinc j i hj hi hlt)
  · exact UInt32.lt_irrefl _ h

/-- The search comes to the hit at `e`; what is left of the range then has the next entry unless the bisection
has come upon that before. -/
theorem Seek.reaches (hinc : g.Increasing) {e : ℤ} {n : ℕ} (hs : g.Seek e s)
    (h : searchLoop g.read g.type n s = some s') :
    ∃ n' r, searchLoop g.read g.type n' (hitAt e r (s.addr + 1)) = some s' ∧ e ≤ r ∧ r ≤ s.r ∧
      (r = g.right ∨ g.Entry (r + 1)) ∧ ∀ f, g.Next e f → f ≤ s.r → (r < f ↔ g.Clears e f s.l s.r) := by
  induction n generalizing s with
  | zero => cases h
  | succ n ih =>
    obtain ⟨hentry, hvalue, hlow, hhigh, hright, hedge⟩ := hs
    have hle : s.l ≤ s.r := hlow.trans hhigh
    obtain ⟨s₁, hprobed, h⟩ := searchLoop_succ hle h
    obtain ⟨hl, hr⟩ := mid_bounds hle
    cases hprobed with
    | nothing hnone =>
      have hmid : s.mid < e := hnone e hentry hlow
      have hseek : g.Seek e { s with l := s.mid + 1 } := ⟨hentry, hvalue, hmid, hhigh, hright, hedge⟩
      obtain ⟨n', r, hloop, her, hrs, hedge', hclear⟩ := ih hseek h
      exact ⟨n', r, hloop, her, hrs, hedge', fun f hf hfr =>
        (hclear f hf hfr).trans (clears_before (g := g) hmid hf.lt).symm⟩
    | @below m hm hl' hv =>
      have hme : m < e := (hinc.lt_iff hm.entry hentry).mp (hvalue ▸ hv)
      have hmid : s.mid < e := by
        by_contra hge
        have := hm.le_of_entry e hentry (not_lt.mp hge)
        omega
      have hseek : g.Seek e { s with any_matches := true, region_left := m, l := s.mid + 1 } :=
        ⟨hentry, hvalue, hmid, hhigh, hright, hedge⟩
      obtain ⟨n', r, hloop, her, hrs, hedge', hclear⟩ := ih hseek h
      exact ⟨n', r, hloop, her, hrs, hedge', fun f hf hfr =>
        (hclear f hf hfr).trans (clears_before (g := g) hmid hf.lt).symm⟩
    | @above m hm hl' hv =>
      have hem : e < m := (hinc.lt_iff hentry hm.entry).mp (hvalue ▸ hv)
      have hmr := hm.le
      have hseek : g.Seek e { s with any_matches := true, region_right := m - 1, r := m - 1 } :=
        ⟨hentry, hvalue, hlow, Int.le_sub_one_of_lt hem, rfl, .inr (by simpa using hm.entry)⟩
      obtain ⟨n', r, hloop, her, hrs, hedge', hclear⟩ := ih hseek h
      simp only at hrs hclear
      refine ⟨n', r, hloop, her, by omega, hedge', fun f hf hfr => ?_⟩
      rcases (hf.le_of_entry m hm.entry hem).lt_or_eq with hfm | rfl
      · exact (hclear f hf (by omega)).trans (clears_after hm hf.lt hfm).symm
      · exact iff_of_true (by omega) (.next hm)
    | @hit m hm hl' hv =>
      obtain rfl : m = e := by
        rcases lt_trichotomy m e with hlt | heq | hlt
        · exact absurd (hvalue.trans hv.symm) (UInt32.ne_of_lt (hinc m e hm.entry hentry hlt)).symm
        · exact heq
        · exact absurd (hvalue.trans hv.symm) (UInt32.ne_of_lt (hinc e m hentry hm.entry hlt))
      refine ⟨n, s.r, ?_, hhigh, le_rfl, hedge, fun f hf hfr => iff_of_false (by omega) (not_clears hm hf.lt)⟩
      rw [hright] at h
      exact h

/-- After the hit at the largest address, `addr` is 0: the entry is then taken to be above it. -/
theorem hitAt_zero (hinc : g.Increasing) {e r : ℤ} {n : ℕ} (hentry : g.Entry e) (hmax : g.value e + 1 = 0)
    (her : e ≤ r) (h : searchLoop g.read g.type n (hitAt e r 0) = some s') : s' = ⟨e, e - 1, true, e, e - 1, 0⟩ := by
  have hlast : ∀ i, g.Entry i → e ≤ i → i = e := by
    intro i hi hei
    by_contra hne
    have := hinc e i hentry hi (by omega)
    grind
  cases n with
  | zero => cases h
  | succ n =>
    obtain ⟨s₁, hprobed, h⟩ := searchLoop_succ her h
    obtain ⟨hl, hr⟩ := mid_bounds (s := hitAt e r 0) her
    cases hprobed with
    | nothing hnone =>
      have := hnone e hentry le_rfl
      exact absurd hl (not_le.mpr this)
    | below hm _ hv => exact absurd hv UInt32.not_lt_zero
    | @above m hm hl' hv =>
      obtain rfl := hlast m hm.entry hl'
      exact searchLoop_done (by simp only; omega) h
    | @hit m hm hl' hv =>
      obtain rfl := hlast m hm.entry hl'
      rw [hv] at hmax
      exact absurd hmax (show (0 : UInt32) + 1 ≠ 0 by decide)

/-- The search does not come back to what is before `f`. -/
structure Beyond (g : Region) (f : ℤ) (s : Search) : Prop where
  entry : g.Entry f
  any : s.any_matches = true
  left : f ≤ s.region_left
  right : f ≤ s.region_right
  low : f < s.l ∨ f = s.l ∧ g.value f < s.addr

theorem Beyond.step {f : ℤ} (s s' : Search) (hle : s.l ≤ s.r) (h : g.Probed s s') (hb : g.Beyond f s) :
    g.Beyond f s' := by
  obtain ⟨hl, hr⟩ := mid_bounds hle
  have hlow := hb.low
  cases h with
  | nothing _ => exact { hb with low := .inl (by simp only; omega) }
  | below _ hl' _ => exact { hb with any := rfl, left := by simp only; omega, low := .inl (by simp only; omega) }
  | @above m hm hl' hv =>
    have hfm : f < m := by
      rcases hlow with hlt | ⟨rfl, hlt⟩
      · omega
      · rcases hl'.lt_or_eq with hlt' | rfl
        · exact hlt'
        · exact absurd hv (UInt32.lt_asymm hlt)
    exact { hb with any := rfl, right := Int.le_sub_one_of_lt hfm }
  | @hit m hm hl' hv =>
    have hfm : f < m := by
      rcases hlow with hlt | ⟨rfl, hlt⟩
      · omega
      · rcases hl'.lt_or_eq with hlt' | rfl
        · exact hlt'
        · exact absurd hv (UInt32.ne_of_lt hlt)
    exact { hb with any := rfl, left := hfm.le, low := .inl hfm }

theorem Beyond.settled {f : ℤ} {region : ℤ × ℤ} (hb : g.Beyond f s) (h : settle g.read g.type s = some region) :
    f ≤ region.1 := by
  obtain ⟨-, hscan⟩ := settle_eq hb.any h
  obtain ⟨-, hge, -, -⟩ := scanBack_eq hscan
  have := hb.left
  have := hb.right
  omega

/-! ## The search -/

section result

variable {addr : UInt32} {e : ℤ} {region : ℤ × ℤ}

theorem Last.unique {e' : ℤ} (h : g.Last addr e) (h' : g.Last addr e') : e = e' :=
  le_antisymm (h'.le_of_entry e h.entry h.value_le) (h.le_of_entry e' h'.entry h'.value_le)

theorem Next.unique {f f' : ℤ} (h : g.Next e f) (h' : g.Next e f') : f = f' :=
  le_antisymm (h.le_of_entry f' h'.entry h'.lt) (h'.le_of_entry f h.entry h.lt)

theorem exists_last {i : ℤ} (hi : g.Entry i) (hv : g.value i ≤ addr) : ∃ e, g.Last addr e := by
  obtain ⟨e, ⟨he, hev⟩, hlast⟩ := Int.exists_greatest_of_bdd (P := fun j => g.Entry j ∧ g.value j ≤ addr)
    ⟨g.right, fun j hj => hj.1.le_right⟩ ⟨i, hi, hv⟩
  exact ⟨e, he, hev, fun j hj hjv => hlast j ⟨hj, hjv⟩⟩

/-- With a last entry, only the first half of the contract is left. -/
theorem meets_last_iff (he : g.Last addr e) : g.Meets addr region ↔
    region.1 = e ∧ (∀ f, g.Next e f → region.2 = f - 1) ∧ ((∀ f, ¬ g.Next e f) → region.2 = g.right) := by
  refine ⟨fun h => h.found e he, fun h => ⟨fun e' he' => he.unique he' ▸ h, fun habove => ?_⟩⟩
  exact absurd (habove e he.entry) (UInt32.not_lt.mpr he.value_le)

theorem good_iff (he : g.Last addr e) : g.Good addr ↔ (g.value e = addr → addr + 1 ≠ 0 ∧
    ∀ f, g.Next e f → g.value f = addr + 1 → g.Clears e f g.left g.right ∨ f = e + 1 ∧ addr + 2 = 0) := by
  refine ⟨fun h => h.hit e he, fun h => ⟨fun habove => ?_, fun e' he' => he.unique he' ▸ h⟩⟩
  exact absurd (habove e he.entry) (UInt32.not_lt.mpr he.value_le)

/-- The entry after the one for `addr` is the one for `addr + 1`, if there is one. -/
theorem Increasing.next (hinc : g.Increasing) (he : g.Entry e) (hv : g.value e = addr) {i : ℤ} (hi : g.Entry i)
    (hi' : g.value i = addr + 1) (hei : e < i) : g.Next e i := by
  refine ⟨hi, hei, fun j hj hej => ?_⟩
  by_contra hji
  have := hinc e j he hj hej
  have := hinc j i hj hi (not_le.mp hji)
  grind

/-- The state before the first pass. -/
def init (g : Region) (addr : UInt32) : Search := ⟨g.left, g.right, false, g.left, g.right, addr⟩

variable {n : ℕ}

theorem meets_of_above (hloop : searchLoop g.read g.type n (g.init addr) = some s)
    (h : settle g.read g.type s = some region) (habove : ∀ i, g.Entry i → addr < g.value i) :
    g.Meets addr region ↔ g.Good addr := by
  have hinit : g.AllAbove (g.init addr) :=
    ⟨habove, rfl, fun _ => rfl, fun h => Bool.noConfusion h, fun i hi => hi.left_le⟩
  obtain ⟨hdone, hlt⟩ := searchLoop_invariant AllAbove.step hloop hinit
  have hiff := hdone.settled hlt h
  have hno : ∀ e, ¬ g.Last addr e := fun e he => UInt32.not_lt.mpr he.value_le (habove e he.entry)
  constructor
  · exact fun hm => ⟨fun _ => hiff.mp (hm.notFound habove), fun e he => absurd he (hno e)⟩
  · exact fun hg => ⟨fun e he => absurd he (hno e), fun _ => hiff.mpr (hg.empty habove)⟩

theorem meets_of_below (hloop : searchLoop g.read g.type n (g.init addr) = some s)
    (h : settle g.read g.type s = some region) (hinc : g.Increasing) (he : g.Last addr e) (hv : g.value e ≠ addr) :
    g.Meets addr region := by
  have hlt : g.value e < addr := UInt32.lt_of_le_of_ne he.value_le hv
  have hinit : g.Bracket e (g.init addr) := by
    refine ⟨he.entry, he.entry.left_le, he.entry.le_right, rfl, .inl rfl, fun hl => ?_, fun i hi hl => ?_,
      fun i hi _ _ => ?_⟩
    · exact absurd he.entry.left_le (not_le.mpr hl)
    · exact absurd hi.left_le (not_le.mpr hl)
    · have hie : i ≤ e ↔ g.value i < addr := by
        refine ⟨fun hie => ?_, fun hi' => he.le_of_entry i hi (UInt32.le_of_lt hi')⟩
        rcases hie.lt_or_eq with hie | rfl
        · exact UInt32.lt_trans (hinc i e hi he.entry hie) hlt
        · exact hlt
      refine ⟨fun heq => ?_, hie.symm⟩
      have := hie.mp (he.le_of_entry i hi (UInt32.le_of_eq heq))
      exact UInt32.ne_of_lt this heq
  obtain ⟨hdone, hlt⟩ := searchLoop_invariant Bracket.step hloop hinit
  exact (meets_last_iff he).mpr (hdone.settled hlt h)

/-- After the hit at `e` the search is right, unless the entry for `addr + 1` is still in the range. -/
theorem meets_of_hitAt {r : ℤ} (hinc : g.Increasing) (he : g.Last addr e) (hv : g.value e = addr)
    (hover : addr + 1 ≠ 0) (her : e ≤ r) (hedge : r = g.right ∨ g.Entry (r + 1))
    (hloop : searchLoop g.read g.type n (hitAt e r (addr + 1)) = some s)
    (h : settle g.read g.type s = some region) (hnext : ∀ f, g.Next e f → g.value f = addr + 1 → r < f) :
    g.Meets addr region := by
  have hbracket : g.Bracket e (hitAt e r (addr + 1)) := by
    refine ⟨he.entry, le_rfl, her, rfl, hedge, fun _ => rfl, fun i _ hl => hl.le, fun i hi hei hir => ?_⟩
    rcases hei.lt_or_eq with hlt | rfl
    · have hgt := hinc e i he.entry hi hlt
      have hne : g.value i ≠ addr + 1 := fun heq =>
        absurd (hnext i (hinc.next he.entry hv hi heq hlt) heq) (not_lt.mpr hir)
      refine ⟨hne, iff_of_false ?_ (not_le.mpr hlt)⟩
      show ¬ g.value i < addr + 1
      grind
    · refine ⟨?_, iff_of_true ?_ le_rfl⟩
      · show g.value e ≠ addr + 1
        grind
      · show g.value e < addr + 1
        grind
  obtain ⟨hdone, hlt⟩ := searchLoop_invariant Bracket.step hloop hbracket
  exact (meets_last_iff he).mpr (hdone.settled hlt h)

/-- At the last address, the search ends with `*region_left` before the entry. -/
theorem region_of_hitAt_zero {r : ℤ} (hinc : g.Increasing) (he : g.Entry e) (hmax : g.value e + 1 = 0) (her : e ≤ r)
    (hloop : searchLoop g.read g.type n (hitAt e r 0) = some s) (h : settle g.read g.type s = some region) :
    region = (e - 1, e - 1) := by
  obtain rfl := hitAt_zero hinc he hmax her hloop
  obtain ⟨hright, hscan⟩ := settle_eq rfl h
  have hzero : (e - 1 - e).toNat = 0 := by omega
  simp only [hzero, scanBack] at hscan
  exact Prod.ext (Option.some.inj hscan).symm hright

/-- After the hit at `e` with the entry `f` for `addr + 1` still in the range, the search goes on to `f`. -/
theorem meets_of_hitAt_next {r f : ℤ} (hinc : g.Increasing) (he : g.Last addr e) (hf : g.Next e f)
    (hvf : g.value f = addr + 1) (hfr : f ≤ r) (hedge : r = g.right ∨ g.Entry (r + 1))
    (hloop : searchLoop g.read g.type n (hitAt e r (addr + 1)) = some s)
    (h : settle g.read g.type s = some region) : g.Meets addr region ↔ f = e + 1 ∧ addr + 2 = 0 := by
  have htwo : addr + 1 + 1 = addr + 2 := by grind
  have hseek : g.Seek f (hitAt e r (addr + 1)) := ⟨hf.entry, hvf, hf.lt.le, hfr, rfl, hedge⟩
  obtain ⟨n', r', hloop', hfr', -, -, -⟩ := hseek.reaches hinc hloop
  rw [show (hitAt e r (addr + 1)).addr = addr + 1 from rfl, htwo] at hloop'
  by_cases hover : addr + 2 = 0
  · rw [hover] at hloop'
    obtain rfl := region_of_hitAt_zero hinc hf.entry (by rw [hvf, htwo, hover]) hfr' hloop' h
    rw [meets_last_iff he]
    constructor
    · rintro ⟨heq, -, -⟩
      exact ⟨by simp only at heq; omega, hover⟩
    · rintro ⟨rfl, -⟩
      exact ⟨by simp, fun f' hf' => by rw [hf'.unique hf], fun hno => absurd hf (hno _)⟩
  · have hbeyond : g.Beyond f (hitAt f r' (addr + 2)) := by
      refine ⟨hf.entry, rfl, le_rfl, hfr', .inr ⟨rfl, ?_⟩⟩
      show g.value f < addr + 2
      grind
    obtain ⟨hdone, -⟩ := searchLoop_invariant Beyond.step hloop' hbeyond
    have hle := hdone.settled h
    have hlt := hf.lt
    refine iff_of_false (fun hm => ?_) fun hcorner => hover hcorner.2
    have := (hm.found e he).1
    omega

theorem meets_of_hit (hloop : searchLoop g.read g.type n (g.init addr) = some s)
    (h : settle g.read g.type s = some region) (hinc : g.Increasing) (he : g.Last addr e) (hv : g.value e = addr) :
    g.Meets addr region ↔ g.Good addr := by
  have hseek : g.Seek e (g.init addr) := ⟨he.entry, hv, he.entry.left_le, he.entry.le_right, rfl, .inl rfl⟩
  obtain ⟨n', r, hhit, her, hrr, hedge, hclear⟩ := hseek.reaches hinc hloop
  change searchLoop g.read g.type n' (hitAt e r (addr + 1)) = some s at hhit
  rw [good_iff he]
  by_cases hover : addr + 1 = 0
  · rw [hover] at hhit
    obtain rfl := region_of_hitAt_zero hinc he.entry (by rw [hv, hover]) her hhit h
    refine iff_of_false (fun hm => ?_) fun hg => (hg hv).1 hover
    have := (hm.found e he).1
    omega
  · by_cases hnext : ∃ f, g.Next e f ∧ g.value f = addr + 1 ∧ f ≤ r
    · obtain ⟨f, hf, hvf, hfr⟩ := hnext
      have hcleared : ¬ g.Clears e f g.left g.right := fun hc =>
        absurd ((hclear f hf hf.entry.le_right).mpr hc) (not_lt.mpr hfr)
      rw [meets_of_hitAt_next hinc he hf hvf hfr hedge hhit h]
      constructor
      · exact fun hcorner _ => ⟨hover, fun f' hf' _ => .inr (hf.unique hf' ▸ hcorner)⟩
      · exact fun hg => ((hg hv).2 f hf hvf).resolve_left hcleared
    · have hout : ∀ f, g.Next e f → g.value f = addr + 1 → r < f := fun f hf hvf =>
        not_le.mp fun hfr => hnext ⟨f, hf, hvf, hfr⟩
      refine iff_of_true (meets_of_hitAt hinc he hv hover her hedge hhit h hout) fun _ => ⟨hover, fun f hf hvf => ?_⟩
      exact .inl ((hclear f hf hf.entry.le_right).mp (hout f hf hvf))

end result

/-- **`stab_binsearch` reads nothing outside the range, and meets its contract exactly under `Good`.** -/
theorem stab_binsearch_meets_iff (g : Region) (addr : UInt32) (hinc : g.Increasing) :
    ∃ region, stab_binsearch g.read g.type g.left g.right addr = some region ∧
      (g.Meets addr region ↔ g.Good addr) := by
  have hinit : g.Within (g.init addr) := ⟨le_rfl, le_rfl, le_rfl, le_rfl⟩
  obtain ⟨s, hloop, hw⟩ := hinit.exists_searchLoop (n := 2 * (g.right + 1 - g.left).toNat + 2) (.inl le_rfl)
  obtain ⟨region, h⟩ := hw.exists_settle
  refine ⟨region, Option.bind_eq_some_iff.mpr ⟨s, hloop, h⟩, ?_⟩
  by_cases habove : ∀ i, g.Entry i → addr < g.value i
  · exact meets_of_above hloop h habove
  · simp only [not_forall, UInt32.not_lt] at habove
    obtain ⟨i, hi, hiv⟩ := habove
    obtain ⟨e, he⟩ := exists_last hi hiv
    by_cases hv : g.value e = addr
    · exact meets_of_hit hloop h hinc he hv
    · exact iff_of_true (meets_of_below hloop h hinc he hv) ((good_iff he).mpr fun heq => absurd heq hv)

/-- Two source files (`N_SO`), with another stab between them. -/
def sources : Region :=
  ⟨fun i => if i = 0 then ⟨0x64, 0xf0100000⟩ else if i = 1 then ⟨0x44, 0⟩ else ⟨0x64, 0xf0100040⟩, 0, 2, 0x64⟩

theorem sources_entry {i : ℤ} : sources.Entry i ↔ i = 0 ∨ i = 2 := by
  constructor
  · rintro ⟨hleft, hright, htype⟩
    change 0 ≤ i at hleft
    change i ≤ 2 at hright
    have hcases : i = 0 ∨ i = 1 ∨ i = 2 := by omega
    rcases hcases with rfl | rfl | rfl
    · exact .inl rfl
    · exact absurd htype (by decide)
    · exact .inr rfl
  · rintro (rfl | rfl)
    · exact ⟨by decide, by decide, by decide⟩
    · exact ⟨by decide, by decide, by decide⟩

theorem sources_increasing : sources.Increasing := by
  intro i j hi hj hij
  rcases sources_entry.mp hi with rfl | rfl
  · rcases sources_entry.mp hj with rfl | rfl
    · exact absurd hij (by decide)
    · decide
  · rcases sources_entry.mp hj with rfl | rfl
    · exact absurd hij (by decide)
    · exact absurd hij (by decide)

theorem stab_binsearch_sources :
    stab_binsearch sources.read sources.type 0 2 0xf0100010 = some (0, 1) ∧ sources.Meets 0xf0100010 (0, 1) := by
  have hrun : stab_binsearch sources.read sources.type 0 2 0xf0100010 = some (0, 1) := by decide +kernel
  obtain ⟨region, h, hiff⟩ := stab_binsearch_meets_iff sources 0xf0100010 sources_increasing
  obtain rfl : region = (0, 1) := Option.some.inj (h.symm.trans hrun)
  refine ⟨hrun, hiff.mpr ⟨fun habove => ?_, fun e he hv => ?_⟩⟩
  · exact absurd (habove 0 (sources_entry.mpr (.inl rfl))) (by decide)
  · rcases sources_entry.mp he.entry with rfl | rfl
    · exact absurd hv (by decide)
    · exact absurd hv (by decide)

/-- Two functions (`N_FUN`) at neighbouring addresses. -/
def neighbours : Region := ⟨fun i => if i = 0 then ⟨0x24, 0xf0100100⟩ else ⟨0x24, 0xf0100101⟩, 0, 1, 0x24⟩

/-- At the first of the two addresses the search goes on to the second; below them `*region_left` and
`*region_right` come out equal. -/
theorem stab_binsearch_neighbours :
    neighbours.Increasing ∧
      stab_binsearch neighbours.read neighbours.type 0 1 0xf0100100 = some (1, 1) ∧
      ¬ neighbours.Meets 0xf0100100 (1, 1) ∧
      stab_binsearch neighbours.read neighbours.type 0 1 0xf0100000 = some (-1, -1) ∧
      ¬ neighbours.Meets 0xf0100000 (-1, -1) := by
  have hentry : ∀ i, neighbours.Entry i → i = 0 ∨ i = 1 := by
    rintro i ⟨hleft, hright, -⟩
    change 0 ≤ i at hleft
    change i ≤ 1 at hright
    omega
  refine ⟨fun i j hi hj hij => ?_, by decide +kernel, fun h => ?_, by decide +kernel, fun h => ?_⟩
  · rcases hentry i hi with rfl | rfl
    · rcases hentry j hj with rfl | rfl
      · exact absurd hij (by decide)
      · decide
    · rcases hentry j hj with rfl | rfl
      · exact absurd hij (by decide)
      · exact absurd hij (by decide)
  · have hlast : neighbours.Last 0xf0100100 0 := by
      refine ⟨⟨by decide, by decide, by decide⟩, by decide, fun i hi hv => ?_⟩
      rcases hentry i hi with rfl | rfl
      · exact le_rfl
      · exact absurd hv (by decide)
    exact absurd (h.found 0 hlast).1 (by decide)
  · have habove : ∀ i, neighbours.Entry i → (0xf0100000 : UInt32) < neighbours.value i := by
      intro i hi
      rcases hentry i hi with rfl | rfl
      · decide
      · decide
    exact absurd (h.notFound habove) (by decide)

end Region

end Ucore.Debug
