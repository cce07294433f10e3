import Ucore.Mm.Shmem
import Ucore.Mm.VmmRun
import Mathlib.Algebra.BigOperators.Group.Finset.Basic

/-!
# Runs of the shared mappings

* `Counts.put`, `Counts.putAll` — the counts follow the VMAs, and an object is destroyed with its last one;
* `Inv.mapShmem_spec`, `Inv.unmap_spec`, `Inv.dup_spec`, `Inv.destroy_spec` — every call keeps the invariant,
  `mm_unmap` if its range is not inside a shared VMA;
* `shared_mappings_backed` — in every reachable state; `split_loses_object` is a run that loses an object.
-/

namespace Ucore.Shm

/-! ## Reference counts -/

/-- Every live object is counted as often as `n` says, and `n` counts no other. -/
structure Counts (shmems : ℕ → Option Shmem) (n : ℕ → ℕ) : Prop where
  live : ∀ o x, shmems o = some x → x.ref = n o
  dead : ∀ o, shmems o = none → n o = 0

/-- The objects whose number drops to zero are destroyed, and no others. -/
def Destroys (shmems shmems' : ℕ → Option Shmem) (n n' : ℕ → ℕ) : Prop :=
  ∀ o, shmems' o = none ↔ shmems o = none ∨ 0 < n o ∧ n' o = 0

section Counts

variable {shmems shmems' shmems'' : ℕ → Option Shmem} {n n' n'' : ℕ → ℕ} {o : ℕ}

theorem Counts.congr (h : Counts shmems n) (hn : ∀ o, n' o = n o) : Counts shmems n' := by
  have heq : n' = n := funext hn
  rw [heq]
  exact h

theorem Destroys.refl (shmems : ℕ → Option Shmem) (hn : ∀ o, n' o = n o) : Destroys shmems shmems n n' := by
  intro o
  refine ⟨Or.inl, fun hor => hor.resolve_right ?_⟩
  rw [hn]
  omega

theorem Destroys.trans (h : Destroys shmems shmems' n n') (h' : Destroys shmems' shmems'' n' n'')
    (hle : ∀ o, n' o ≤ n o) (hle' : ∀ o, n'' o ≤ n' o) : Destroys shmems shmems'' n n'' := by
  intro o
  have ho := hle o
  have ho' := hle' o
  rw [h' o, h o]
  constructor
  · rintro ((hdead | ⟨hpos, hzero⟩) | ⟨hpos, hzero⟩)
    · exact Or.inl hdead
    · exact Or.inr ⟨hpos, by omega⟩
    · exact Or.inr ⟨by omega, hzero⟩
  · rintro (hdead | ⟨hpos, hzero⟩)
    · exact Or.inl (Or.inl hdead)
    · by_cases hmid : n' o = 0
      · exact Or.inl (Or.inr ⟨hpos, hmid⟩)
      · exact Or.inr ⟨by omega, hzero⟩

/-- `shmem_ref_inc` of a live object. -/
theorem Counts.inc (h : Counts shmems n) (hlive : shmems o ≠ none) :
    ∃ shmems' x, shmemRefInc shmems o = some shmems' ∧ shmems o = some x ∧
      shmems' = Function.update shmems o (some { x with ref := x.ref + 1 }) ∧
      Counts shmems' (Function.update n o (n o + 1)) ∧ ∀ p, shmems' p = none ↔ shmems p = none := by
  obtain ⟨x, hx⟩ := Option.ne_none_iff_exists'.mp hlive
  have hinc : shmemRefInc shmems o = some (Function.update shmems o (some { x with ref := x.ref + 1 })) := by
    unfold shmemRefInc
    rw [hx]
    rfl
  refine ⟨_, x, hinc, hx, rfl, ⟨fun p y hp => ?_, fun p hp => ?_⟩, fun p => ?_⟩
  · by_cases hpo : p = o
    · rw [hpo, Function.update_self] at hp ⊢
      cases hp
      rw [h.live o x hx]
      push_cast
      rfl
    · rw [Function.update_of_ne hpo] at hp ⊢
      exact h.live p y hp
  · by_cases hpo : p = o
    · rw [hpo, Function.update_self] at hp
      cases hp
    · rw [Function.update_of_ne hpo] at hp ⊢
      exact h.dead p hp
  · by_cases hpo : p = o
    · rw [hpo, Function.update_self, hx]
      simp
    · rw [Function.update_of_ne hpo]

/-- A VMA of the object is destroyed. -/
theorem Counts.put (h : Counts shmems n) (hpos : 0 < n o) :
    ∃ shmems', shmemPut shmems o = some shmems' ∧ Counts shmems' (Function.update n o (n o - 1)) ∧
      Destroys shmems shmems' n (Function.update n o (n o - 1)) := by
  have hlive : shmems o ≠ none := fun hdead => by
    have hzero := h.dead o hdead
    omega
  obtain ⟨x, hx⟩ := Option.ne_none_iff_exists'.mp hlive
  have href := h.live o x hx
  -- the last reference is the only one
  have hlast : x.ref - 1 = 0 ↔ n o - 1 = 0 := by omega
  have hput : shmemPut shmems o =
      some (Function.update shmems o (if x.ref - 1 = 0 then none else some { x with ref := x.ref - 1 })) := by
    unfold shmemPut
    rw [hx]
    rfl
  refine ⟨_, hput, ⟨fun p y hp => ?_, fun p hp => ?_⟩, fun p => ?_⟩
  · by_cases hpo : p = o
    · rw [hpo, Function.update_self] at hp ⊢
      split at hp
      · cases hp
      · cases hp
        show x.ref - 1 = _
        omega
    · rw [Function.update_of_ne hpo] at hp ⊢
      exact h.live p y hp
  · by_cases hpo : p = o
    · rw [hpo, Function.update_self] at hp ⊢
      split at hp
      · rename_i hzero
        exact hlast.mp hzero
      · cases hp
    · rw [Function.update_of_ne hpo] at hp ⊢
      exact h.dead p hp
  · by_cases hpo : p = o
    · rw [hpo, Function.update_self, Function.update_self, hx]
      by_cases hzero : x.ref - 1 = 0
      · simp [hzero, hpos, hlast.mp hzero]
      · have hmore : n o - 1 ≠ 0 := fun heq => hzero (hlast.mpr heq)
        simp [hzero, hmore]
    · rw [Function.update_of_ne hpo, Function.update_of_ne hpo]
      refine ⟨Or.inl, fun hor => hor.resolve_right ?_⟩
      omega

/-- All references that a call gives up. -/
theorem Counts.putAll (h : Counts shmems n) {effects : List VmEffect}
    (hle : ∀ o, effects.count (.shmemRefDec o) ≤ n o) :
    ∃ shmems', Shm.putAll effects shmems = some shmems' ∧
      Counts shmems' (fun o => n o - effects.count (.shmemRefDec o)) ∧
      Destroys shmems shmems' n (fun o => n o - effects.count (.shmemRefDec o)) := by
  induction effects generalizing shmems n with
  | nil => exact ⟨shmems, rfl, h.congr fun _ => rfl, .refl shmems fun _ => rfl⟩
  | cons e rest ih =>
    cases e with
    | unmapRange b e =>
      have hskip : ∀ o, (VmEffect.unmapRange b e :: rest).count (.shmemRefDec o) = rest.count (.shmemRefDec o) :=
        fun o => List.count_cons_of_ne (by intro heq; cases heq)
      simp only [hskip] at hle ⊢
      exact ih h hle
    | shmemRefDec p =>
      have hself : (VmEffect.shmemRefDec p :: rest).count (.shmemRefDec p) = rest.count (.shmemRefDec p) + 1 :=
        List.count_cons_self
      have hother : ∀ o, o ≠ p →
          (VmEffect.shmemRefDec p :: rest).count (.shmemRefDec o) = rest.count (.shmemRefDec o) := by
        intro o hop
        refine List.count_cons_of_ne fun heq => hop ?_
        cases heq
        rfl
      have hp := hle p
      rw [hself] at hp
      obtain ⟨shmems₁, hput, hcounts, hdestroys⟩ := h.put (o := p) (by omega)
      have hle₁ : ∀ o, rest.count (.shmemRefDec o) ≤ Function.update n p (n p - 1) o := by
        intro o
        by_cases hop : o = p
        · rw [hop, Function.update_self]
          omega
        · rw [Function.update_of_ne hop, ← hother o hop]
          exact hle o
      obtain ⟨shmems', hrest, hcounts', hdestroys'⟩ := ih hcounts hle₁
      have hsame : (fun o => Function.update n p (n p - 1) o - rest.count (.shmemRefDec o)) =
          fun o => n o - (VmEffect.shmemRefDec p :: rest).count (.shmemRefDec o) := by
        funext o
        by_cases hop : o = p
        · rw [hop, Function.update_self, hself]
          omega
        · rw [Function.update_of_ne hop, hother o hop]
      rw [hsame] at hcounts' hdestroys'
      refine ⟨shmems', ?_, hcounts', hdestroys.trans hdestroys' (fun o => ?_) fun o => ?_⟩
      · show (shmemPut shmems p).bind (Shm.putAll rest) = _
        rw [hput]
        exact hrest
      · by_cases hop : o = p
        · rw [hop, Function.update_self]
          omega
        · rw [Function.update_of_ne hop]
      · rw [← congrFun hsame o]
        omega

end Counts

/-! ## Areas -/

/-- An area of shared memory has its object, from the offset on at which it was mapped; any other has none. -/
structure Backed (origin : ℕ → ℕ × ℕ) (x : Vma) : Prop where
  plain : ¬ x.Shared → x.shmem = 0
  object : x.Shared → x.shmem ≠ 0
  bound : x.Shared → x.shmemOff + (x.vmEnd - x.vmStart) ≤ 2 ^ 32
  origin : x.Shared → ∀ addr, x.Has addr → origin addr = (x.shmem, addr - x.vmStart + x.shmemOff)

section Areas

variable {origin : ℕ → ℕ × ℕ} {x : Vma} {A A' : Multiset Vma} {effects : List VmEffect}

theorem Backed.of_plain (hplain : ¬ x.Shared) (hnull : x.shmem = 0) : Backed origin x :=
  ⟨fun _ => hnull, fun h => absurd h hplain, fun h => absurd h hplain, fun h => absurd h hplain⟩

/-- `vma_resize` moves the offset with the start. -/
theorem Backed.resized (h : Backed origin x) {lo hi : ℕ} (hlo : x.vmStart ≤ lo) (hlt : lo < hi) (hhi : hi ≤ x.vmEnd) :
    Backed origin (Mm.resized x lo hi) := by
  by_cases hshared : x.Shared
  · have hbound := h.bound hshared
    have hoff : (Mm.resized x lo hi).shmemOff = x.shmemOff + (lo - x.vmStart) := by
      show (if x.vmFlags &&& VM_SHARE ≠ 0 then wadd x.shmemOff (lo - x.vmStart) else x.shmemOff) = _
      exact (if_pos hshared).trans (Nat.mod_eq_of_lt (by omega))
    refine ⟨h.plain, h.object, fun _ => ?_, fun _ addr haddr => ?_⟩
    · rw [hoff]
      show x.shmemOff + (lo - x.vmStart) + (hi - lo) ≤ 2 ^ 32
      omega
    · have hin : lo ≤ addr ∧ addr < hi := haddr
      rw [h.origin hshared addr ⟨by omega, by omega⟩, hoff]
      show (x.shmem, _) = (x.shmem, addr - lo + (x.shmemOff + (lo - x.vmStart)))
      refine congrArg _ ?_
      omega
  · exact .of_plain hshared (h.plain hshared)

theorem Backed.cut (h : ∀ x ∈ A, Backed origin x) (hcut : Mm.Cut A A' effects) : ∀ y ∈ A', Backed origin y := by
  intro y hy
  rcases hcut.part y hy with hold | ⟨x, hx, lo, hi, hlo, hlt, hhi, rfl⟩ | ⟨hplain, hnull⟩
  · exact h y hold
  · exact (h x hx).resized hlo hlt hhi
  · exact .of_plain hplain hnull

/-- A VMA without shared memory points to nothing. -/
theorem countP_cons_plain (hplain : ¬ x.Shared) (A : Multiset Vma) (o : ℕ) :
    (x ::ₘ A).countP (Vma.Points o) = A.countP (Vma.Points o) := by
  rw [Multiset.countP_cons, if_neg fun hpoints => hplain hpoints.1, Nat.add_zero]

end Areas

/-! ## States -/

/-- The shared VMAs of the object, in all address spaces. -/
def Sys.refs (s : Sys) (o : ℕ) : ℕ := ∑ m ∈ s.ids, (s.mms m).areas.countP (Vma.Points o)

/-- What holds between two calls. -/
structure Inv (s : Sys) : Prop where
  mm : ∀ m ∈ s.ids, Mm.Inv (s.mms m)
  backed : ∀ m ∈ s.ids, ∀ x ∈ (s.mms m).areas, Backed (s.origin m) x
  counts : Counts s.shmems s.refs
  null : s.shmems 0 = none

section States

variable {s s' : Sys} {m : ℕ} {mm : Mm}

/-- Another address space at one place. -/
theorem refs_update (s' : Sys) (hm : m ∈ s.ids) (hids : s'.ids = s.ids) (hmms : s'.mms = Function.update s.mms m mm)
    (o : ℕ) :
    s'.refs o + (s.mms m).areas.countP (Vma.Points o) = s.refs o + mm.areas.countP (Vma.Points o) := by
  have hrest : ∑ k ∈ s.ids.erase m, (s'.mms k).areas.countP (Vma.Points o) =
      ∑ k ∈ s.ids.erase m, (s.mms k).areas.countP (Vma.Points o) := by
    apply Finset.sum_congr rfl
    intro k hk
    rw [hmms, Function.update_of_ne (Finset.ne_of_mem_erase hk)]
  unfold Sys.refs
  rw [hids, ← Finset.add_sum_erase _ _ hm, ← Finset.add_sum_erase _ _ hm, hrest, hmms, Function.update_self]
  omega

/-- A VMA is counted. -/
theorem countP_le_refs (hm : m ∈ s.ids) (o : ℕ) : (s.mms m).areas.countP (Vma.Points o) ≤ s.refs o := by
  unfold Sys.refs
  rw [← Finset.add_sum_erase _ _ hm]
  exact Nat.le_add_right _ _

/-- The object of a shared VMA is live. -/
theorem Inv.live (h : Inv s) (hm : m ∈ s.ids) {x : Vma} (hx : x ∈ (s.mms m).areas) (hshared : x.Shared) :
    s.shmems x.shmem ≠ none := by
  intro hdead
  have hzero := h.counts.dead _ hdead
  have hle := countP_le_refs hm x.shmem
  have hpos : 0 < (s.mms m).areas.countP (Vma.Points x.shmem) := Multiset.countP_pos.mpr ⟨x, hx, hshared, rfl⟩
  omega

/-! ## Calls -/

/-- Everything but one address space, with its counts, is as before. -/
theorem Inv.update (h : Inv s) (m : ℕ) (hinv : Mm.Inv mm) {shmems : ℕ → Option Shmem}
    {origin : ℕ → ℕ × ℕ} (hbacked : ∀ x ∈ mm.areas, Backed origin x)
    (hs' : s' = ⟨s.ids, Function.update s.mms m mm, shmems, Function.update s.origin m origin⟩)
    (hcounts : Counts shmems s'.refs) (hnull : shmems 0 = none) : Inv s' := by
  subst hs'
  refine ⟨fun k hk => ?_, fun k hk x hx => ?_, hcounts, hnull⟩
  · by_cases hkm : k = m
    · rw [hkm]
      show Mm.Inv (Function.update s.mms m mm m)
      rw [Function.update_self]
      exact hinv
    · show Mm.Inv (Function.update s.mms m mm k)
      rw [Function.update_of_ne hkm]
      exact h.mm k hk
  · replace hx : x ∈ (Function.update s.mms m mm k).areas := hx
    show Backed (Function.update s.origin m origin k) x
    by_cases hkm : k = m
    · rw [hkm, Function.update_self] at hx ⊢
      exact hbacked x hx
    · rw [Function.update_of_ne hkm] at hx ⊢
      exact h.backed k hk x hx

/-- A call that keeps the invariant, and destroys the objects whose last VMA has gone. -/
def Keeps (s : Sys) (r : Option Sys) : Prop :=
  ∃ s', r = some s' ∧ Inv s' ∧ ∀ o, s.shmems o ≠ none → (s'.shmems o = none ↔ 0 < s.refs o ∧ s'.refs o = 0)

theorem Keeps.of_destroys (hinv : Inv s') (hdestroys : Destroys s.shmems s'.shmems s.refs s'.refs) :
    Keeps s (some s') := by
  refine ⟨s', rfl, hinv, fun o hlive => ?_⟩
  rw [hdestroys o]
  exact ⟨fun hor => hor.resolve_left hlive, Or.inr⟩

/-- No object is destroyed while no VMA goes. -/
theorem Keeps.of_live (hinv : Inv s') (hlive : ∀ o, s.shmems o ≠ none → s'.shmems o ≠ none)
    (hmore : ∀ o, s.refs o ≤ s'.refs o) : Keeps s (some s') := by
  refine ⟨s', rfl, hinv, fun o ho => ⟨fun hdead => absurd hdead (hlive o ho), fun hgone => ?_⟩⟩
  have hle := hmore o
  omega

theorem Inv.shmemCreate_spec (h : Inv s) {o : ℕ} (hnull : o ≠ 0) (hfree : s.shmems o = none) (len : UInt32) :
    Keeps s (s.step (.shmemCreate o len)) := by
  have hrefs : Sys.refs { s with shmems := Function.update s.shmems o (some ⟨len.toNat, 0⟩) } = s.refs := rfl
  refine Keeps.of_live ⟨h.mm, h.backed, ⟨fun p x hp => ?_, fun p hp => ?_⟩, ?_⟩ (fun p hp => ?_) fun _ =>
    Nat.le_refl _
  · replace hp : Function.update s.shmems o (some ⟨len.toNat, 0⟩) p = some x := hp
    by_cases hpo : p = o
    · rw [hpo, Function.update_self] at hp
      cases hp
      rw [hrefs, hpo, h.counts.dead o hfree]
      rfl
    · rw [Function.update_of_ne hpo] at hp
      exact h.counts.live p x hp
  · replace hp : Function.update s.shmems o (some ⟨len.toNat, 0⟩) p = none := hp
    by_cases hpo : p = o
    · rw [hpo, Function.update_self] at hp
      cases hp
    · rw [Function.update_of_ne hpo] at hp
      exact h.counts.dead p hp
  · show Function.update s.shmems o _ 0 = none
    rw [Function.update_of_ne hnull.symm]
    exact h.null
  · show Function.update s.shmems o _ p ≠ none
    by_cases hpo : p = o
    · rw [hpo, Function.update_self]
      exact Option.some_ne_none _
    · rw [Function.update_of_ne hpo]
      exact hp

theorem Inv.mmCreate_spec (h : Inv s) (hm : m ∉ s.ids) : Keeps s (s.step (.mmCreate m)) := by
  have hold : ∀ k ∈ s.ids, Function.update s.mms m (Mm.mmCreate m fun _ => none) k = s.mms k := by
    intro k hk
    have hkm : k ≠ m := fun heq => hm (heq ▸ hk)
    exact Function.update_of_ne hkm ..
  have hrefs : ∀ o, Sys.refs { s.setMm m (Mm.mmCreate m fun _ => none) with ids := insert m s.ids } o = s.refs o := by
    intro o
    show ∑ k ∈ insert m s.ids, (Function.update s.mms m _ k).areas.countP (Vma.Points o) = _
    rw [Finset.sum_insert hm, Function.update_self]
    have hnew : (Mm.mmCreate m fun _ => none).areas.countP (Vma.Points o) = 0 := rfl
    rw [hnew, Nat.zero_add]
    apply Finset.sum_congr rfl
    intro k hk
    rw [hold k hk]
  refine Keeps.of_live ⟨fun k hk => ?_, fun k hk x hx => ?_, h.counts.congr hrefs, h.null⟩ (fun _ ho => ho)
    fun o => (hrefs o).ge
  · show Mm.Inv (Function.update s.mms m _ k)
    rcases Finset.mem_insert.mp hk with rfl | hk
    · rw [Function.update_self]
      exact Mm.mmCreate_inv k _
    · rw [hold k hk]
      exact h.mm k hk
  · replace hx : x ∈ (Function.update s.mms m (Mm.mmCreate m fun _ => none) k).areas := hx
    rcases Finset.mem_insert.mp hk with rfl | hk
    · rw [Function.update_self] at hx
      exact absurd hx (Multiset.notMem_zero x)
    · rw [hold k hk] at hx
      exact h.backed k hk x hx

/-- `mm_map` takes `VM_SHARE` away. -/
theorem not_shared_of_masked {x : Vma} {f : UInt32} (hf : x.vmFlags = f &&& ~~~VM_SHARE) : ¬ x.Shared := by
  unfold Vma.Shared
  rw [hf, not_not, UInt32.and_assoc, UInt32.not_and_self, UInt32.and_zero]

/-- `mm_map_shmem` adds it. -/
theorem shared_of_or {x : Vma} {f : UInt32} (hf : x.vmFlags = f ||| VM_SHARE) : x.Shared := by
  unfold Vma.Shared
  rw [hf]
  intro hzero
  have hbits : (f.toBitVec ||| VM_SHARE.toBitVec) &&& VM_SHARE.toBitVec = 0 := congrArg UInt32.toBitVec hzero
  rw [BitVec.and_or_distrib_right, BitVec.and_self] at hbits
  exact absurd (BitVec.or_eq_zero_iff.mp hbits).2 (by decide)

/-- An address space whose shared VMAs are the same. -/
theorem Inv.sameRefs (h : Inv s) (hm : m ∈ s.ids) (hinv : Mm.Inv mm) (hbacked : ∀ x ∈ mm.areas, Backed (s.origin m) x)
    (hcount : ∀ o, mm.areas.countP (Vma.Points o) = (s.mms m).areas.countP (Vma.Points o)) :
    Keeps s (some (s.setMm m mm)) := by
  have hrefs : ∀ o, (s.setMm m mm).refs o = s.refs o := by
    intro o
    have hsum := refs_update (s.setMm m mm) hm rfl rfl o
    rw [hcount] at hsum
    omega
  have hs' : s.setMm m mm = ⟨s.ids, Function.update s.mms m mm, s.shmems,
    Function.update s.origin m (s.origin m)⟩ := by
    rw [Function.update_eq_self]
    rfl
  exact Keeps.of_live (h.update m hinv hbacked hs' (h.counts.congr hrefs) h.null) (fun _ ho => ho) fun o =>
    (hrefs o).ge

theorem Inv.map_spec (h : Inv s) (hm : m ∈ s.ids) (addr len vmFlags : UInt32) (a : Option ℕ)
    (mem : ℕ → Option (RbTree ℕ)) : Keeps s (s.step (.map m addr len vmFlags a mem)) := by
  obtain ⟨ret, vma, mm', hrun, hinv, -, hnone, hsome⟩ := (h.mm m hm).mmMap_spec addr.toNat len.toNat vmFlags a mem
  have hstep : s.step (.map m addr len vmFlags a mem) = some (s.setMm m mm') := by
    show (((s.mms m).mmMap _ _ _ _ _).map _).map _ = _
    rw [hrun]
    rfl
  rw [hstep]
  cases vma with
  | none =>
    obtain ⟨-, hareas⟩ := hnone rfl
    apply h.sameRefs hm hinv
    · rw [hareas]
      exact h.backed m hm
    · intro o
      rw [hareas]
  | some v =>
    obtain ⟨-, -, -, -, hareas⟩ := hsome v rfl
    apply h.sameRefs hm hinv
    · rw [hareas]
      intro x hx
      rcases Multiset.mem_cons.mp hx with rfl | hx
      · exact .of_plain (not_shared_of_masked rfl) rfl
      · exact h.backed m hm x hx
    · intro o
      rw [hareas]
      exact countP_cons_plain (not_shared_of_masked rfl) _ o

/-- The range of the call is inside of no shared VMA, with something left on both sides. -/
def Sys.Whole (s : Sys) : Op → Prop
  | .unmap m addr len _ _ =>
    USER_ACCESS (rounddown addr.toNat) (roundup (wadd addr.toNat len.toNat)) → ∀ x ∈ (s.mms m).areas, x.Shared →
      ¬ (x.vmStart < rounddown addr.toNat ∧ roundup (wadd addr.toNat len.toNat) < x.vmEnd)
  | _ => True

theorem Inv.unmap_spec (h : Inv s) (hm : m ∈ s.ids) {addr len : UInt32} {a : Option ℕ}
    {mem : ℕ → Option (RbTree ℕ)} (hwhole : s.Whole (.unmap m addr len a mem)) :
    Keeps s (s.step (.unmap m addr len a mem)) := by
  obtain ⟨ret, effects, mm', hrun, hinv, -, -, hcut, -⟩ :=
    (h.mm m hm).mmUnmap_spec addr.toNat len.toNat a mem
  replace hcut := hcut hwhole
  have hle : ∀ o, effects.count (.shmemRefDec o) ≤ s.refs o := by
    intro o
    have hcount := hcut.count o
    have hrefs := countP_le_refs hm o
    omega
  obtain ⟨shmems', hput, hcounts, hdestroys⟩ := h.counts.putAll hle
  have hstep : s.step (.unmap m addr len a mem) = some { s.setMm m mm' with shmems := shmems' } := by
    show (((s.mms m).mmUnmap _ _ _ _).bind _).map _ = _
    rw [hrun]
    show (((putAll effects s.shmems).map _).map _) = _
    rw [hput]
    rfl
  have hrefs : Sys.refs { s.setMm m mm' with shmems := shmems' } = fun o =>
    s.refs o - effects.count (.shmemRefDec o) := by
    funext o
    have hsum := refs_update { s.setMm m mm' with shmems := shmems' } hm rfl rfl o
    have hcount := hcut.count o
    omega
  rw [← hrefs] at hcounts hdestroys
  rw [hstep]
  refine .of_destroys (h.update m hinv (Backed.cut (h.backed m hm) hcut) ?_ hcounts ?_) hdestroys
  · rw [Function.update_eq_self]
    rfl
  · exact (hdestroys 0).mpr (Or.inl h.null)

/-- `mm_map_shmem` after `mm_map`: the new VMA gets its object. -/
theorem Inv.mapped_spec (h : Inv s) (hm : m ∈ s.ids) {o v start stop self : ℕ} {vmFlags : UInt32} (hnull : o ≠ 0)
    {shmems : ℕ → Option Shmem} (hcounts : Counts shmems (Function.update s.refs o (s.refs o + 1)))
    (hlive : ∀ p, shmems p = none ↔ s.shmems p = none) (hinv : Mm.Inv mm) (hmem : v ∈ mm.mmapList)
    (hclear : ∀ b, (mm.vma v).Has b → ∀ fl, ¬ (s.mms m).Covers b fl)
    (hval : mm.vma v = ⟨some self, start, stop, vmFlags, 0, 0⟩)
    (hareas : mm.areas = ⟨none, start, stop, vmFlags, 0, 0⟩ ::ₘ (s.mms m).areas) :
    Keeps s (some { s with
      mms := Function.update s.mms m
        (mm.setVma v { mm.vma v with shmem := o, shmemOff := 0, vmFlags := (mm.vma v).vmFlags ||| VM_SHARE })
      shmems := shmems
      origin := s.setOrigin m (mm.vma v).vmStart (mm.vma v).vmEnd o }) := by
  have hok := hinv.ok hmem
  have howner := (hinv.member v hmem).owner
  rw [hval] at hok howner hclear ⊢
  dsimp only
  set x : Vma := ⟨some self, start, stop, vmFlags ||| VM_SHARE, o, 0⟩ with hx
  have hshared : x.Shared := shared_of_or rfl
  -- the areas, with the new one
  have hnew : (mm.setVma v x).areas = ⟨none, start, stop, vmFlags ||| VM_SHARE, o, 0⟩ ::ₘ (s.mms m).areas := by
    obtain ⟨rest, hold, hset⟩ := hinv.setVma_areas (x := x) hmem
    rw [hval, hareas] at hold
    rw [hset, ← (Multiset.cons_inj_right _).mp hold]
  have hinv' : Mm.Inv (mm.setVma v x) := by
    refine hinv.setVma_mem hmem ⟨hok.base, hok.nonempty, hok.top, hok.startAligned, hok.endAligned⟩ howner ?_ ?_
    · rw [hval]
      exact fun _ _ hle => hle
    · rw [hval]
      exact fun _ _ hle => hle
  have htop : stop ≤ USERTOP := hok.top
  have hbacked : ∀ y ∈ (mm.setVma v x).areas, Backed
      (fun addr => if start ≤ addr ∧ addr < stop then (o, addr - start) else s.origin m addr) y := by
    rw [hnew]
    intro y hy
    rcases Multiset.mem_cons.mp hy with rfl | hy
    · refine ⟨fun hplain => absurd hshared hplain, fun _ => hnull, fun _ => ?_, fun _ addr haddr => if_pos haddr⟩
      show 0 + (stop - start) ≤ 2 ^ 32
      unfold USERTOP at htop
      omega
    · -- the old areas are elsewhere
      have hold := h.backed m hm y hy
      refine ⟨hold.plain, hold.object, hold.bound, fun hyshared addr haddr => ?_⟩
      have hout : ¬ (start ≤ addr ∧ addr < stop) := by
        intro hin
        obtain ⟨u, hu, rfl⟩ := Mm.mem_areas.mp hy
        exact hclear addr hin _ ⟨u, hu, haddr, rfl⟩
      rw [if_neg hout]
      exact hold.origin hyshared addr haddr
  have hrefs : ∀ p, Sys.refs ⟨s.ids, Function.update s.mms m (mm.setVma v x), shmems, s.setOrigin m start stop o⟩ p =
      Function.update s.refs o (s.refs o + 1) p := by
    intro p
    have hsum := refs_update ⟨s.ids, Function.update s.mms m (mm.setVma v x), shmems, s.setOrigin m start stop o⟩
      hm rfl rfl p
    rw [hnew, Multiset.countP_cons] at hsum
    by_cases hpo : p = o
    · subst hpo
      rw [if_pos ⟨hshared, rfl⟩] at hsum
      rw [Function.update_self]
      omega
    · rw [if_neg fun hpoints => hpo hpoints.2.symm] at hsum
      rw [Function.update_of_ne hpo]
      omega
  refine .of_live (h.update m hinv' hbacked rfl (hcounts.congr hrefs) ((hlive 0).mpr h.null))
    (fun p hp hdead => hp ((hlive p).mp hdead)) fun p => ?_
  rw [hrefs]
  by_cases hpo : p = o
  · rw [hpo, Function.update_self]
    exact Nat.le_succ _
  · rw [Function.update_of_ne hpo]

/-- The page aligned call with a live object. -/
theorem Inv.mapShmem_spec (h : Inv s) (hm : m ∈ s.ids) (addr vmFlags : UInt32) {o : ℕ}
    (ho : o = 0 ∨ s.shmems o ≠ none)
    (a : Option ℕ) (mem : ℕ → Option (RbTree ℕ)) : Keeps s (s.step (.mapShmem m addr vmFlags o a mem)) := by
  unfold Sys.step Sys.mmMapShmem
  dsimp only
  by_cases hbad : addr.toNat % PGSIZE ≠ 0 ∨ o = 0
  · rw [if_pos hbad]
    exact .of_live h (fun _ ho => ho) fun _ => Nat.le_refl _
  rw [if_neg hbad]
  have hnull : o ≠ 0 := fun heq => hbad (Or.inr heq)
  obtain ⟨shmems, x, hinc, hx, hshmems, hcounts, hlive⟩ := h.counts.inc (ho.resolve_left hnull)
  have hself : shmems o = some { x with ref := x.ref + 1 } := by
    rw [hshmems, Function.update_self]
  obtain ⟨ret, vma, mm', hrun, hinv, -, hnone, hsome⟩ :=
    (h.mm m hm).mmMap_spec addr.toNat x.len vmFlags a mem
  rw [hinc, Option.bind_some, hself, Option.bind_some, hrun, Option.bind_some]
  cases vma with
  | none =>
    -- the reference is given back
    obtain ⟨hret, hareas⟩ := hnone rfl
    have hdec : shmemRefDec shmems o = some s.shmems := by
      unfold shmemRefDec
      rw [hself, Option.map_some, hshmems, Function.update_idem]
      refine congrArg some ?_
      rw [show ({ x with ref := x.ref + 1 - 1 } : Shmem) = x by simp, ← hx, Function.update_eq_self]
    dsimp only
    rw [if_pos hret, hdec]
    refine h.sameRefs hm hinv ?_ ?_
    · rw [hareas]
      exact h.backed m hm
    · intro p
      rw [hareas]
  | some v =>
    obtain ⟨hmem, hclear, rfl, hval, hareas⟩ := hsome v rfl
    have hmember := hinv.member v hmem
    dsimp only
    rw [if_neg (fun h => h rfl), Option.bind_some, hmember.live]
    exact h.mapped_spec hm hnull hcounts hlive hinv hmem hclear hval hareas

/-! ### `dup_mmap` -/

/-- The VMA that `dup_mmap` makes of `x`. -/
def copyOf (x : Vma) : Vma :=
  if x.Shared then { x with vmMm := none } else ⟨none, x.vmStart, x.vmEnd, x.vmFlags, 0, 0⟩

theorem copyOf_shared {x : Vma} (hshared : x.Shared) : copyOf x = { x with vmMm := none } := if_pos hshared

theorem copyOf_plain {x : Vma} (hplain : ¬ x.Shared) : copyOf x = ⟨none, x.vmStart, x.vmEnd, x.vmFlags, 0, 0⟩ :=
  if_neg hplain

theorem copyOf_area (x : Vma) : { copyOf x with vmMm := none } = copyOf x ∧ (copyOf x).vmStart = x.vmStart ∧
    (copyOf x).vmEnd = x.vmEnd := by
  by_cases hshared : x.Shared
  · simp [copyOf_shared hshared]
  · simp [copyOf_plain hshared]

theorem dupShare_spec {shmems : ℕ → Option Shmem} {n : ℕ → ℕ} (hcounts : Counts shmems n) {x : Vma}
    (hlive : x.Shared → shmems x.shmem ≠ none) (dst : Mm) (nvma : ℕ) :
    ∃ shmems', dupShare x nvma (dst.setVma nvma ⟨none, x.vmStart, x.vmEnd, x.vmFlags, 0, 0⟩) shmems =
        some (dst.setVma nvma (copyOf x), shmems') ∧
      Counts shmems' (fun o => n o + if (copyOf x).Points o then 1 else 0) ∧
        ∀ p, shmems' p = none ↔ shmems p = none := by
  unfold dupShare
  rw [Mm.setVma_vmas, if_pos rfl, Option.bind_some]
  by_cases hshared : x.Shared
  · obtain ⟨shmems', y, hinc, -, -, hcounts', hlive'⟩ := hcounts.inc (hlive hshared)
    refine ⟨shmems', ?_, hcounts'.congr fun o => ?_, hlive'⟩
    · rw [if_pos (by exact hshared), hinc, copyOf_shared hshared]
      unfold Mm.setVma
      simp
    · rw [copyOf_shared hshared]
      by_cases ho : o = x.shmem
      · have hpoints : Vma.Points o { x with vmMm := none } := ⟨hshared, ho.symm⟩
        rw [if_pos hpoints, ho, Function.update_self]
      · have hpoints : ¬ Vma.Points o { x with vmMm := none } := fun hpoints => ho hpoints.2.symm
        rw [if_neg hpoints, Function.update_of_ne ho, Nat.add_zero]
  · refine ⟨shmems, ?_, hcounts.congr fun o => ?_, fun _ => Iff.rfl⟩
    · rw [if_neg (by exact hshared), copyOf_plain hshared]
    · have hpoints : ¬ (copyOf x).Points o := by
        rw [copyOf_plain hshared]
        exact fun hpoints => hshared hpoints.1
      rw [if_neg hpoints, Nat.add_zero]

/-- **The loop of `dup_mmap`**, from any place in the list on. -/
theorem dupLoop_spec {src : Mm} (hsrc : Mm.Inv src) (a : ℕ → Option ℕ) (mem : ℕ → Option (RbTree ℕ))
    (copyRange : ℕ → Bool) : ∀ (vs : List ℕ) (dst : Mm) (shmems : ℕ → Option Shmem) (n : ℕ → ℕ),
    (∀ v ∈ vs, v ∈ src.mmapList) → vs.Pairwise (fun v w => (src.vma v).Apart (src.vma w)) → Mm.Inv dst →
    (∀ v ∈ vs, ∀ u ∈ dst.mmapList, (dst.vma u).Apart (src.vma v)) → Counts shmems n →
    (∀ v ∈ vs, (src.vma v).Shared → shmems (src.vma v).shmem ≠ none) →
    ∃ ret dst' shmems', dupLoop src a mem copyRange vs dst shmems = some (ret, dst', shmems') ∧ Mm.Inv dst' ∧
      (∃ copies, dst'.areas = copies + dst.areas ∧ (∀ y ∈ copies, ∃ v ∈ vs, y = copyOf (src.vma v)) ∧
        Counts shmems' (fun o => n o + copies.countP (Vma.Points o))) ∧
      ∀ p, shmems' p = none ↔ shmems p = none
  | [], dst, shmems, n, _, _, hdst, _, hcounts, _ =>
    ⟨0, dst, shmems, rfl, hdst, ⟨0, (Multiset.zero_add _).symm, nofun, hcounts⟩, fun _ => Iff.rfl⟩
  | v :: vs, dst, shmems, n, hmem, hpw, hdst, hapart, hcounts, hlive => by
    obtain ⟨hv, hvs⟩ := List.pairwise_cons.mp hpw
    have hmember := hsrc.member v (hmem v List.mem_cons_self)
    unfold dupLoop
    rw [hmember.live, Option.bind_some]
    rcases hdst.vmaCreate_spec (a v) (src.vma v).vmFlags with hnone | ⟨nvma, hnew, hfresh, -⟩
    · rw [hnone]
      exact ⟨_, dst, shmems, rfl, hdst, ⟨0, (Multiset.zero_add _).symm, nofun, hcounts⟩, fun _ => Iff.rfl⟩
    obtain ⟨hnone, hstart, hend⟩ := copyOf_area (src.vma v)
    obtain ⟨shmems₁, hshare, hcounts₁, hlive₁⟩ := dupShare_spec hcounts (hlive v List.mem_cons_self) dst nvma
    have hinv₁ := hdst.setVma_other hfresh (copyOf (src.vma v))
    have hvma : ∀ u ∈ dst.mmapList, (dst.setVma nvma (copyOf (src.vma v))).vma u = dst.vma u := by
      intro u hu
      have hne : u ≠ nvma := fun heq => hfresh (heq ▸ hu)
      rw [Mm.setVma_vma, if_neg hne]
    have hok : VmaOk (copyOf (src.vma v)) := by
      have hok := hmember.ok
      exact ⟨hstart ▸ hok.base, hstart ▸ hend ▸ hok.nonempty, hend ▸ hok.top, hstart ▸ hok.startAligned,
        hend ▸ hok.endAligned⟩
    obtain ⟨dst₁, hins, hpost⟩ := hinv₁.insertVmaStruct_spec (by simp) hok hfresh (by
      intro u hu
      rw [hvma u hu]
      unfold Vma.Apart
      rw [hstart, hend]
      exact hapart v List.mem_cons_self u hu) (mem nvma)
    have hareas : dst₁.areas = copyOf (src.vma v) ::ₘ dst.areas := by
      rw [hpost.areas hinv₁ hfresh, Mm.setVma_areas_other hfresh, hnone]
    have hone : ∃ w ∈ v :: vs, copyOf (src.vma v) = copyOf (src.vma w) := ⟨v, List.mem_cons_self, rfl⟩
    rw [hnew]
    dsimp only
    rw [hshare, Option.bind_some]
    dsimp only
    rw [hins, Option.bind_some]
    by_cases hcopy : copyRange v = true
    · rw [if_pos hcopy]
      -- the others keep clear of the new one, too
      have hapart₁ : ∀ w ∈ vs, ∀ u ∈ dst₁.mmapList, (dst₁.vma u).Apart (src.vma w) := by
        intro w hw u hu
        rw [hpost.vma_eq]
        by_cases hun : u = nvma
        · rw [if_pos hun]
          unfold Vma.Apart
          dsimp only
          rw [hstart, hend]
          exact hv w hw
        · rw [if_neg hun]
          have hold := ((hpost.mem u).mp hu).resolve_left hun
          rw [hvma u hold]
          exact hapart w (List.mem_cons_of_mem v hw) u hold
      obtain ⟨ret, dst', shmems', hrun, hinv', ⟨copies, hcopies, hfrom, hcounts'⟩, hlive'⟩ :=
        dupLoop_spec hsrc a mem copyRange vs dst₁ shmems₁ _ (fun w hw => hmem w (List.mem_cons_of_mem v hw)) hvs
          hpost.inv hapart₁ hcounts₁ fun w hw hshared hdead =>
            hlive w (List.mem_cons_of_mem v hw) hshared ((hlive₁ _).mp hdead)
      refine ⟨ret, dst', shmems', hrun, hinv', ⟨copyOf (src.vma v) ::ₘ copies, ?_, fun y hy => ?_,
        hcounts'.congr fun o => ?_⟩, fun p => (hlive' p).trans (hlive₁ p)⟩
      · rw [hcopies, hareas, Multiset.cons_add, Multiset.add_cons]
      · rcases Multiset.mem_cons.mp hy with rfl | hy
        · exact hone
        · obtain ⟨w, hw, heq⟩ := hfrom y hy
          exact ⟨w, List.mem_cons_of_mem v hw, heq⟩
      · rw [Multiset.countP_cons]
        omega
    · rw [if_neg hcopy]
      refine ⟨_, dst₁, shmems₁, rfl, hpost.inv, ⟨{copyOf (src.vma v)}, ?_, fun y hy => ?_,
        hcounts₁.congr fun o => ?_⟩,
        hlive₁⟩
      · rw [hareas, Multiset.singleton_add]
      · rw [Multiset.mem_singleton.mp hy]
        exact hone
      · rw [Mm.countP_points]

theorem Inv.dup_spec (h : Inv s) {dst src : ℕ} (hdst : dst ∈ s.ids) (hsrc : src ∈ s.ids)
    (hempty : (s.mms dst).mmapList = []) (a : ℕ → Option ℕ) (mem : ℕ → Option (RbTree ℕ)) (copyRange : ℕ → Bool) :
    Keeps s (s.step (.dup dst src a mem copyRange)) := by
  have hinv := h.mm src hsrc
  have hareas : (s.mms dst).areas = 0 := by
    unfold Mm.areas
    rw [hempty]
    rfl
  have hpw : (s.mms src).mmapList.reverse.Pairwise fun v w => ((s.mms src).vma v).Apart ((s.mms src).vma w) := by
    rw [List.pairwise_reverse]
    exact hinv.ordered.imp fun hle => Or.inr hle
  obtain ⟨ret, mm', shmems', hrun, hinv', ⟨copies, hcopies, hfrom, hcounts⟩, hlive⟩ :=
    dupLoop_spec hinv a mem copyRange (s.mms src).mmapList.reverse (s.mms dst) s.shmems s.refs
      (fun v hv => List.mem_reverse.mp hv) hpw (h.mm dst hdst) (by rw [hempty]; exact nofun) h.counts
      fun v hv hshared => h.live (x := { (s.mms src).vma v with vmMm := none }) hsrc
        (Mm.mem_areas.mpr ⟨v, List.mem_reverse.mp hv, rfl⟩) hshared
  rw [hareas, Multiset.add_zero] at hcopies
  set s' : Sys := { s.setMm dst mm' with shmems := shmems', origin := Function.update s.origin dst (s.origin src) }
    with hs'
  have hstep : s.step (.dup dst src a mem copyRange) = some s' := by
    show ((dupLoop _ _ _ _ _ _ _).map _).map _ = _
    rw [hrun]
    rfl
  have hrefs : ∀ o, s'.refs o = s.refs o + copies.countP (Vma.Points o) := by
    intro o
    have hsum := refs_update s' hdst rfl rfl o
    rw [hareas, hcopies, Multiset.countP_zero] at hsum
    omega
  have hbacked : ∀ y ∈ mm'.areas, Backed (s.origin src) y := by
    rw [hcopies]
    intro y hy
    obtain ⟨v, hv, rfl⟩ := hfrom y hy
    have hold := h.backed src hsrc _ (Mm.mem_areas.mpr ⟨v, List.mem_reverse.mp hv, rfl⟩)
    by_cases hshared : ((s.mms src).vma v).Shared
    · rw [copyOf_shared hshared]
      exact hold
    · rw [copyOf_plain hshared]
      exact .of_plain hshared rfl
  rw [hstep]
  refine .of_live (h.update dst hinv' hbacked rfl (hcounts.congr hrefs) ((hlive 0).mpr h.null))
    (fun p hp hdead => hp ((hlive p).mp hdead)) fun o => ?_
  rw [hrefs]
  exact Nat.le_add_right _ _

/-! ### `mm_destroy` -/

/-- **The loop of `mm_destroy`**: the references of its VMAs are given up. -/
theorem destroyLoop_spec : ∀ (l : List ℕ) (mm : Mm) (shmems : ℕ → Option Shmem) (n : ℕ → ℕ), l.Nodup →
    (∀ v ∈ l, mm.vmas v = some (mm.vma v)) → Counts shmems n →
    (∀ o, l.countP (fun v => (mm.vma v).Points o) ≤ n o) →
    ∃ shmems', destroyLoop l mm shmems = some shmems' ∧
      Counts shmems' (fun o => n o - l.countP fun v => (mm.vma v).Points o) ∧
      Destroys shmems shmems' n (fun o => n o - l.countP fun v => (mm.vma v).Points o)
  | [], _, shmems, _, _, _, hcounts, _ => ⟨shmems, rfl, hcounts, .refl shmems fun _ => rfl⟩
  | v :: vs, mm, shmems, n, hnd, hlive, hcounts, hle => by
    obtain ⟨hv, hvs⟩ := List.nodup_cons.mp hnd
    set effects : List VmEffect := if (mm.vma v).vmFlags &&& VM_SHARE ≠ 0 then [.shmemRefDec (mm.vma v).shmem] else []
      with heffects
    set mm₁ : Mm := { mm with vmas := Function.update mm.vmas v none } with hmm₁
    have hdestroy : mm.vmaDestroy v = some (effects, mm₁) := by
      unfold Mm.vmaDestroy
      rw [hlive v List.mem_cons_self]
      rfl
    have hsame : ∀ w ∈ vs, mm₁.vmas w = mm.vmas w := by
      intro w hw
      have hne : w ≠ v := fun heq => hv (heq ▸ hw)
      exact Function.update_of_ne hne ..
    have hcount : ∀ o, effects.count (.shmemRefDec o) = if (mm.vma v).Points o then 1 else 0 :=
      fun o => Mm.count_destroyed o (mm.vma v)
    have hvma : ∀ o, vs.countP (fun w => (mm₁.vma w).Points o) = vs.countP fun w => (mm.vma w).Points o := by
      intro o
      refine List.countP_congr fun w hw => ?_
      rw [Mm.vma_congr (hsame w hw)]
    have hcons : ∀ o, (v :: vs).countP (fun w => (mm.vma w).Points o) =
        vs.countP (fun w => (mm.vma w).Points o) + if (mm.vma v).Points o then 1 else 0 := by
      intro o
      rw [List.countP_cons]
      simp
    have hle₁ : ∀ o, effects.count (.shmemRefDec o) ≤ n o := by
      intro o
      have ho := hle o
      rw [hcons] at ho
      rw [hcount]
      omega
    obtain ⟨shmems₁, hput, hcounts₁, hdestroys₁⟩ := hcounts.putAll hle₁
    obtain ⟨shmems', hrun, hcounts', hdestroys'⟩ := destroyLoop_spec vs mm₁ shmems₁ _ hvs
      (fun w hw => by rw [hsame w hw, Mm.vma_congr (hsame w hw)]; exact hlive w (List.mem_cons_of_mem v hw)) hcounts₁
      (fun o => by
        have ho := hle o
        rw [hcons] at ho
        rw [hvma, hcount]
        omega)
    have hn : (fun o => n o - effects.count (.shmemRefDec o) - vs.countP fun w => (mm₁.vma w).Points o) =
        fun o => n o - (v :: vs).countP fun w => (mm.vma w).Points o := by
      funext o
      rw [hvma, hcount, hcons]
      omega
    rw [hn] at hcounts' hdestroys'
    refine ⟨shmems', ?_, hcounts', hdestroys₁.trans hdestroys' (fun o => Nat.sub_le _ _) fun o => ?_⟩
    · unfold destroyLoop
      rw [hdestroy, Option.bind_some]
      dsimp only
      rw [hput]
      exact hrun
    · rw [← congrFun hn o]
      exact Nat.sub_le _ _

theorem Inv.destroy_spec (h : Inv s) (hm : m ∈ s.ids) : Keeps s (s.step (.destroy m)) := by
  have hinv := h.mm m hm
  have hcount : ∀ o, (s.mms m).mmapList.countP (fun v => ((s.mms m).vma v).Points o) =
      (s.mms m).areas.countP (Vma.Points o) := by
    intro o
    unfold Mm.areas
    rw [Multiset.coe_countP, List.countP_map]
    rfl
  obtain ⟨shmems', hrun, hcounts, hdestroys⟩ := destroyLoop_spec (s.mms m).mmapList
    (s.mms m) s.shmems s.refs hinv.nodup
    (fun v hv => (hinv.member v hv).live) h.counts fun o => by
      rw [hcount]
      exact countP_le_refs hm o
  set s' : Sys := { s with ids := s.ids.erase m, shmems := shmems' } with hs'
  have hstep : s.step (.destroy m) = some s' := by
    show (destroyLoop _ _ _).map _ = _
    rw [hrun]
    rfl
  have hrefs : s'.refs = fun o => s.refs o - (s.mms m).mmapList.countP fun v => ((s.mms m).vma v).Points o := by
    funext o
    have hsum := Finset.add_sum_erase s.ids (fun k => (s.mms k).areas.countP (Vma.Points o)) hm
    rw [hcount]
    show ∑ k ∈ s.ids.erase m, (s.mms k).areas.countP (Vma.Points o) = ∑ k ∈ s.ids, _ - _
    omega
  rw [← hrefs] at hcounts hdestroys
  rw [hstep]
  refine .of_destroys ⟨fun k hk => ?_, fun k hk => ?_, hcounts, ?_⟩ hdestroys
  · exact h.mm k (Finset.mem_of_mem_erase hk)
  · exact h.backed k (Finset.mem_of_mem_erase hk)
  · exact (hdestroys 0).mpr (Or.inl h.null)

/-! ## Runs -/

/-- **No call fails, and every call keeps the invariant**, if `mm_unmap` takes nothing out of the middle of
a shared VMA. -/
theorem Inv.step_spec (h : Inv s) {op : Op} (henabled : s.Enabled op) (hwhole : s.Whole op) :
    Keeps s (s.step op) := by
  cases op with
  | shmemCreate o len => exact h.shmemCreate_spec henabled.1 henabled.2 len
  | mmCreate m => exact h.mmCreate_spec henabled
  | map m addr len vmFlags a mem => exact h.map_spec henabled addr len vmFlags a mem
  | mapShmem m addr vmFlags o a mem => exact h.mapShmem_spec henabled.1 addr vmFlags henabled.2 a mem
  | unmap m addr len a mem => exact h.unmap_spec henabled hwhole
  | dup dst src a mem copyRange => exact h.dup_spec henabled.1 henabled.2.1 henabled.2.2.2 a mem copyRange
  | destroy m => exact h.destroy_spec henabled

/-- Any number of calls that satisfy `P`. -/
inductive Run (P : Sys → Op → Prop) : Sys → Prop
  | boot : Run P boot
  | step {s s' : Sys} (op : Op) (hrun : Run P s) (henabled : s.Enabled op) (hop : P s op)
      (hstep : s.step op = some s') : Run P s'

theorem boot_inv : Inv boot := ⟨nofun, nofun, ⟨nofun, fun _ _ => rfl⟩, rfl⟩

theorem Run.inv (hrun : Run Sys.Whole s) : Inv s := by
  induction hrun with
  | boot => exact boot_inv
  | step op hrun henabled hop hstep ih =>
    obtain ⟨s'', heq, hinv, -⟩ := ih.step_spec henabled hop
    cases hstep.symm.trans heq
    exact hinv

/-- The VMAs that point to the object, in all address spaces. -/
def Sys.pointers (s : Sys) (o : ℕ) : ℕ := ∑ m ∈ s.ids, (s.mms m).areas.countP fun x => x.shmem = o

/-- Only shared VMAs point to objects. -/
theorem Inv.pointers_eq (h : Inv s) {o : ℕ} (ho : o ≠ 0) : s.pointers o = s.refs o := by
  unfold Sys.pointers Sys.refs
  apply Finset.sum_congr rfl
  intro m hm
  refine Multiset.countP_congr rfl fun x hx => propext ⟨fun heq => ?_, fun hpoints => hpoints.2⟩
  refine ⟨?_, heq⟩
  by_contra hplain
  exact ho (heq.symm.trans ((h.backed m hm x hx).plain hplain))

/-- Shared mappings have kept their objects. -/
structure Kept (s : Sys) : Prop where
  object : ∀ m ∈ s.ids, ∀ x ∈ (s.mms m).areas, x.Shared → x.shmem ≠ 0 ∧ s.shmems x.shmem ≠ none
  refs : ∀ o x, s.shmems o = some x → x.ref = s.pointers o
  destroyed : ∀ op, s.Enabled op → s.Whole op → ∃ s', s.step op = some s' ∧
    ∀ o, s.shmems o ≠ none → (s'.shmems o = none ↔ 0 < s.pointers o ∧ s'.pointers o = 0)
  origin : ∀ m ∈ s.ids, ∀ x ∈ (s.mms m).areas, x.Shared → ∀ addr, x.Has addr →
    s.origin m addr = (x.shmem, addr - x.vmStart + x.shmemOff)

/-- **Shared mappings keep their backing object.**  In every run in which `mm_unmap` takes nothing out of the middle
of a shared VMA: every shared VMA has a live object; every object has as many references as there are VMAs that
point to it, and a call destroys it exactly if that number drops to zero; and every page of a shared VMA has
the object and the offset with which `mm_map_shmem` mapped it. -/
theorem shared_mappings_backed (hrun : Run Sys.Whole s) : Kept s := by
  have h := hrun.inv
  have hnull : ∀ o, s.shmems o ≠ none → o ≠ 0 := fun o hlive heq => hlive (heq ▸ h.null)
  refine ⟨fun m hm x hx hshared => ⟨(h.backed m hm x hx).object hshared, h.live hm hx hshared⟩, fun o x hx => ?_,
    fun op henabled hwhole => ?_, fun m hm x hx hshared => (h.backed m hm x hx).origin hshared⟩
  · rw [h.pointers_eq (hnull o (by rw [hx]; exact Option.some_ne_none x))]
    exact h.counts.live o x hx
  · obtain ⟨s', hstep, hinv, hdestroyed⟩ := h.step_spec henabled hwhole
    refine ⟨s', hstep, fun o hlive => ?_⟩
    rw [h.pointers_eq (hnull o hlive), hinv.pointers_eq (hnull o hlive)]
    exact hdestroyed o hlive

/-- An object of three pages is mapped, and the first page is unmapped: the VMA begins at the offset 4096. -/
theorem shared_mappings_backed_front : ∃ s, Run Sys.Whole s ∧ Kept s ∧ s.shmems 7 = some ⟨12288, 1⟩ ∧
    (s.mms 1).areas = {⟨none, 0x201000, 0x203000, VM_READ ||| VM_SHARE, 7, 4096⟩} := by
  have h₁ := (Run.boot (P := Sys.Whole)).step (.shmemCreate 7 12288) ⟨by decide, rfl⟩ trivial rfl
  have h₂ := h₁.step (.mmCreate 1) (Finset.notMem_empty 1) trivial rfl
  have h₃ := h₂.step (.mapShmem 1 0x200000 VM_READ 7 (some 2) fun _ => none)
    ⟨Finset.mem_insert_self 1 ∅, Or.inr nofun⟩ trivial rfl
  have h₄ := h₃.step (.unmap 1 0x200000 4096 none fun _ => none) (Finset.mem_insert_self 1 ∅) (by
    intro _ x hx _ hinside
    replace hx : x ∈ ({⟨none, 0x200000, 0x203000, VM_READ ||| VM_SHARE, 7, 0⟩} : Multiset Vma) := hx
    rw [Multiset.mem_singleton.mp hx] at hinside
    exact absurd hinside.1 (by decide)) rfl
  exact ⟨_, h₄, shared_mappings_backed h₄, rfl, rfl⟩

/-- An object of three pages is mapped, and the page in the middle is unmapped: the VMA of the first page is shared,
but has no object, and `mm_destroy` then uses `NULL`. -/
theorem split_loses_object : ∃ s, Run (fun _ _ => True) s ∧ 1 ∈ s.ids ∧
    (s.mms 1).areas = {⟨none, 0x200000, 0x201000, VM_READ ||| VM_SHARE, 0, 0⟩,
      ⟨none, 0x202000, 0x203000, VM_READ ||| VM_SHARE, 7, 0x2000⟩} ∧ s.step (.destroy 1) = none := by
  have h₁ := (Run.boot (P := fun _ _ => True)).step (.shmemCreate 7 12288) ⟨by decide, rfl⟩ trivial rfl
  have h₂ := h₁.step (.mmCreate 1) (Finset.notMem_empty 1) trivial rfl
  have h₃ := h₂.step (.mapShmem 1 0x200000 VM_READ 7 (some 2) fun _ => none)
    ⟨Finset.mem_insert_self 1 ∅, Or.inr nofun⟩ trivial rfl
  have h₄ := h₃.step (.unmap 1 0x201000 4096 (some 3) fun _ => none) (Finset.mem_insert_self 1 ∅) trivial rfl
  exact ⟨_, h₄, Finset.mem_insert_self 1 ∅, rfl, rfl⟩

end States

end Ucore.Shm
