import Ucore.Mm.Wrap

/-!
# `get_unmapped_area`

The VMAs are visited from the last to the first, with one candidate that is moved below each VMA that
it meets.

* `Vacant` — an address at which an area of the length can be made;
* `unmappedLoop_spec` — the candidate is above no address that fits, and below the VMAs behind it.

Principal result: `unmapped_area` — the function returns the highest address that fits.
-/

namespace Ucore.Mm

variable {mm : Mm} {len start s v : ℕ}

/-- An area of `len` bytes at `start` is inside of user space and meets no VMA. -/
def Vacant (mm : Mm) (len start : ℕ) : Prop :=
  USERBASE ≤ start ∧ start + len ≤ USERTOP ∧
    ∀ v ∈ mm.mmapList, ∀ a, start ≤ a → a < start + len → ¬ (mm.vma v).Has a

/-- The values that the candidate takes in the loop. -/
def candidates (mm : Mm) (len : ℕ) : List ℕ → ℕ → List ℕ
  | [], start => [start]
  | v :: vs, start => start ::
    if start ≥ (mm.vma v).vmEnd then []
    else if wadd start len > (mm.vma v).vmStart then
      if len ≥ (mm.vma v).vmStart then [] else candidates mm len vs ((mm.vma v).vmStart - len)
    else candidates mm len vs start

/-- Two intervals that do not meet. -/
theorem Vacant.apart (h : mm.Vacant len s) (hlen : 0 < len) (hv : v ∈ mm.mmapList)
    (hne : (mm.vma v).vmStart < (mm.vma v).vmEnd) :
    s + len ≤ (mm.vma v).vmStart ∨ (mm.vma v).vmEnd ≤ s := by
  by_contra hno
  obtain ⟨hlow, hhigh⟩ := not_or.mp hno
  refine h.2.2 v hv (max s (mm.vma v).vmStart) (le_max_left _ _) ?_ ⟨le_max_right _ _, ?_⟩
  · exact max_lt (by omega) (by omega)
  · exact max_lt (by omega) (by omega)

theorem vacant_of_apart (hbase : USERBASE ≤ start) (htop : start + len ≤ USERTOP)
    (hapart : ∀ v ∈ mm.mmapList, start + len ≤ (mm.vma v).vmStart ∨ (mm.vma v).vmEnd ≤ start) :
    mm.Vacant len start := by
  refine ⟨hbase, htop, fun v hv a hlo hhi hhas => ?_⟩
  obtain ⟨hstart, hend⟩ := hhas
  rcases hapart v hv with h | h <;> omega

/-- What the function promises of its value. -/
structure Highest (mm : Mm) (len r : ℕ) : Prop where
  vacant : r ≠ 0 → mm.Vacant len r
  highest : r ≠ 0 → ∀ s, mm.Vacant len s → s ≤ r
  none : r = 0 → ∀ s, ¬ mm.Vacant len s

theorem highest_zero (h : ∀ s, ¬ mm.Vacant len s) : mm.Highest len 0 :=
  ⟨fun h0 => absurd rfl h0, fun h0 => absurd rfl h0, fun _ => h⟩

theorem Vacant.highest (h : mm.Vacant len start) (hmax : ∀ s, mm.Vacant len s → s ≤ start) :
    mm.Highest len start := by
  refine ⟨fun _ => h, fun _ => hmax, fun h0 => ?_⟩
  have hbase := h.1
  unfold USERBASE at hbase
  omega

/-- The loop over the VMAs `vs`, from the last on; `done` are those behind them. -/
theorem Inv.unmappedLoop_spec (h : Inv mm) (hlen : 0 < len) : ∀ (vs done : List ℕ) (start : ℕ),
    mm.mmapList = vs.reverse ++ done → start + len ≤ USERTOP →
    (∀ v ∈ done, start + len ≤ (mm.vma v).vmStart) → (∀ s, mm.Vacant len s → s ≤ start) →
    ∃ r, mm.unmappedLoop len vs start = some r ∧ mm.Highest len r ∧
      ∀ c ∈ mm.candidates len vs start, c + len ≤ USERTOP := by
  intro vs
  induction vs with
  | nil =>
    intro done start hlist htop hdone hmax
    refine ⟨_, rfl, ?_, fun c hc => ?_⟩
    · split
      · rename_i hbase
        refine (vacant_of_apart hbase htop fun v hv => .inl (hdone v ?_)).highest hmax
        rw [hlist] at hv
        exact hv
      · rename_i hbase
        exact highest_zero fun s hs => hbase (hs.1.trans (hmax s hs))
    · rw [List.mem_singleton.mp hc]
      exact htop
  | cons v vs ih =>
    intro done start hlist htop hdone hmax
    rw [List.reverse_cons, List.append_assoc] at hlist
    have hmem : v ∈ mm.mmapList := by simp [hlist]
    have hok := (h.member v hmem).ok
    have hbelow : ∀ u ∈ vs, (mm.vma u).vmEnd ≤ (mm.vma v).vmStart := by
      have hord := h.ordered
      unfold Ordered at hord
      rw [hlist, List.pairwise_append] at hord
      exact fun u hu => hord.2.2 u (List.mem_reverse.mpr hu) v List.mem_cons_self
    have hsplit : ∀ u ∈ mm.mmapList, u ∈ vs ∨ u = v ∨ u ∈ done := by
      intro u hu
      simpa [hlist, or_assoc] using hu
    have hsum : wadd start len = start + len := by
      unfold USERTOP at htop
      exact Nat.mod_eq_of_lt (by omega)
    have hwalk : ∀ start', start' + len ≤ USERTOP → start' + len ≤ (mm.vma v).vmStart →
        start' ≤ start → (∀ s, mm.Vacant len s → s ≤ start') →
        ∃ r, mm.unmappedLoop len vs start' = some r ∧ mm.Highest len r ∧
          ∀ c ∈ mm.candidates len vs start', c + len ≤ USERTOP := by
      intro start' htop' hv hle hmax'
      refine ih (v :: done) start' hlist htop' (fun u hu => ?_) hmax'
      rcases List.mem_cons.mp hu with rfl | hu
      · exact hv
      · have := hdone u hu
        omega
    have hcons : ∀ l : List ℕ, (∀ c ∈ l, c + len ≤ USERTOP) → ∀ c ∈ start :: l, c + len ≤ USERTOP :=
      fun l hl => List.forall_mem_cons.mpr ⟨htop, hl⟩
    unfold unmappedLoop candidates
    rw [(h.member v hmem).live, hsum]
    simp only [Option.bind_eq_bind, Option.bind_some]
    split
    · -- the VMAs that are left end below `start`
      rename_i hge
      refine ⟨start, rfl, (vacant_of_apart ?_ htop fun u hu => ?_).highest hmax, hcons [] nofun⟩
      · exact hok.base.trans (hok.nonempty.le.trans hge)
      · rcases hsplit u hu with hu | rfl | hu
        · exact .inr ((hbelow u hu).trans (hok.nonempty.le.trans hge))
        · exact .inr hge
        · exact .inl (hdone u hu)
    rename_i hlt
    split
    · -- whatever fits has to fit below `v`
      rename_i hover
      have hunder : ∀ s, mm.Vacant len s → s + len ≤ (mm.vma v).vmStart := by
        intro s hs
        have hle := hmax s hs
        rcases hs.apart hlen hmem hok.nonempty with hs' | hs'
        · exact hs'
        · omega
      split
      · rename_i hsmall
        refine ⟨0, rfl, highest_zero fun s hs => ?_, hcons [] nofun⟩
        have hbase := hs.1
        have := hunder s hs
        unfold USERBASE at hbase
        omega
      · rename_i hroom
        obtain ⟨r, hr, hhigh, hcand⟩ := hwalk ((mm.vma v).vmStart - len)
          (by have := hok.nonempty; have := hok.top; omega) (by omega) (by omega)
          fun s hs => Nat.le_sub_of_add_le (hunder s hs)
        exact ⟨r, hr, hhigh, hcons _ hcand⟩
    · rename_i hover
      obtain ⟨r, hr, hhigh, hcand⟩ := hwalk start htop (Nat.le_of_not_lt hover) (le_refl _) hmax
      exact ⟨r, hr, hhigh, hcons _ hcand⟩

/-- **`get_unmapped_area`** returns the highest address at which the area fits, or 0 if there is
none; no sum that it computes wraps. -/
theorem unmapped_area (mm : Mm) (h : Inv mm) (len : ℕ) : ∃ r, mm.getUnmappedArea len = some r ∧
    (r ≠ 0 → mm.Vacant len r ∧ ∀ s, mm.Vacant len s → s ≤ r) ∧
    (r = 0 → len = 0 ∨ ∀ s, ¬ mm.Vacant len s) ∧
    (len ≠ 0 → len ≤ USERTOP →
      ∀ c ∈ mm.candidates len mm.mmapList.reverse (USERTOP - len), c + len < 2 ^ 32) := by
  unfold getUnmappedArea
  split
  · rename_i hout
    refine ⟨0, rfl, fun h0 => absurd rfl h0, fun _ => ?_, fun h0 hle => absurd hout (by omega)⟩
    refine hout.imp id fun hbig s hs => ?_
    have := hs.2.1
    omega
  · rename_i hin
    obtain ⟨hlen, hle⟩ := not_or.mp hin
    obtain ⟨r, hr, hhigh, hcand⟩ := h.unmappedLoop_spec (Nat.pos_of_ne_zero hlen)
      mm.mmapList.reverse [] (USERTOP - len) (by simp) (by omega) nofun fun s hs => by
        have := hs.2.1
        omega
    refine ⟨r, hr, fun h0 => ⟨hhigh.vacant h0, hhigh.highest h0⟩, fun h0 => .inr (hhigh.none h0),
      fun _ _ c hc => lt_of_le_of_lt (hcand c hc) (by decide)⟩

/-- Five pages do not fit between the areas of a program, but below its stack. -/
theorem unmapped_area_program : programMm.getUnmappedArea (5 * PGSIZE) = some (USERTOP - 261 * PGSIZE) ∧
    programMm.Vacant (5 * PGSIZE) (USERTOP - 261 * PGSIZE) ∧
    ∀ s, programMm.Vacant (5 * PGSIZE) s → s ≤ USERTOP - 261 * PGSIZE := by
  obtain ⟨r, hrun, hvacant, -, -⟩ := unmapped_area programMm programMm_inv (5 * PGSIZE)
  have hr : some (USERTOP - 261 * PGSIZE) = some r := hrun
  cases hr
  exact ⟨hrun, hvacant (by decide)⟩

end Ucore.Mm
