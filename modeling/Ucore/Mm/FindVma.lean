import Ucore.Mm.VmmRun
import Ucore.Mm.UserMem

/-!
# The three paths of `find_vma`

`Lowest` — what a lookup is for: the area with the smallest `vm_start` among those that end behind
the address.  The scan of the list, the descent of the tree and the cache all find it
(`findVma_paths_agree`), so a lookup does not depend on the lookups before it.
-/

namespace Ucore.Mm

open RbTree

variable {mm : Mm} {addr : ℕ}

/-- The VMA with the smallest `vm_start` among those with `vm_end > addr`, or `none` if there is
no such VMA. -/
def Lowest (mm : Mm) (addr : ℕ) : Option ℕ → Prop
  | none => ∀ u ∈ mm.mmapList, (mm.vma u).vmEnd ≤ addr
  | some v => v ∈ mm.mmapList ∧ addr < (mm.vma v).vmEnd ∧
      ∀ u ∈ mm.mmapList, addr < (mm.vma u).vmEnd → (mm.vma v).vmStart ≤ (mm.vma u).vmStart

/-- The lookups of a list of addresses, one after the other. -/
def lookups (mm : Mm) (addrs : List ℕ) : Option Mm :=
  addrs.foldlM (fun mm addr => (mm.findVma addr).map Prod.snd) mm

/-- The order of the list makes the first VMA that ends behind the address the lowest. -/
theorem Inv.firstAbove_lowest (h : Inv mm) (addr : ℕ) :
    mm.Lowest addr (mm.firstAbove addr mm.mmapList) := by
  cases hfirst : mm.firstAbove addr mm.mmapList with
  | none => exact firstAbove_none hfirst
  | some v =>
    obtain ⟨habove, A, B, hl, hA⟩ := firstAbove_some hfirst
    refine ⟨(firstAbove_mem hfirst).1, habove, fun u hu hend => ?_⟩
    rw [hl] at hu
    rcases List.mem_append.mp hu with hu | hu
    · have := hA u hu
      omega
    · rcases List.mem_cons.mp hu with rfl | hu
      · exact Nat.le_refl _
      · -- `v` ends before every VMA behind it starts
        have hnext := h.behind hl hu
        have hne := (h.ok (firstAbove_mem hfirst).1).nonempty
        omega

/-- Two VMAs do not start at the same address. -/
theorem Inv.start_injective (h : Inv mm) {u v : ℕ} (hu : u ∈ mm.mmapList) (hv : v ∈ mm.mmapList)
    (heq : (mm.vma u).vmStart = (mm.vma v).vmStart) : u = v := by
  by_contra hne
  have hap := h.apart hu hv hne
  have hnu := (h.ok hu).nonempty
  have hnv := (h.ok hv).nonempty
  unfold Vma.Apart at hap
  omega

theorem Inv.lowest_unique (h : Inv mm) {r r' : Option ℕ} (hr : mm.Lowest addr r)
    (hr' : mm.Lowest addr r') : r' = r := by
  cases r with
  | none =>
    cases r' with
    | none => rfl
    | some w => exact absurd (hr w hr'.1) (Nat.not_le.mpr hr'.2.1)
  | some v =>
    cases r' with
    | none => exact absurd (hr' v hr.1) (Nat.not_le.mpr hr.2.1)
    | some w =>
      have hvw := hr.2.2 w hr'.1 hr'.2.1
      have hwv := hr'.2.2 v hr.1 hr.2.1
      rw [h.start_injective hr'.1 hr.1 (Nat.le_antisymm hwv hvw)]

/-- Another cache and another tree over the same list. -/
theorem Inv.indexes (h : Inv mm) {cache : Option ℕ} {tree : Option (RbTree ℕ)}
    (hcache : ∀ v, cache = some v → v ∈ mm.mmapList)
    (htree : ∀ t, tree = some t → t.IsRb mm.mmapList) :
    Inv { mm with mmapCache := cache, mmapTree := tree } where
  member := fun v hv => (h.member v hv).congr rfl rfl
  ordered := h.ordered.congr fun _ _ => rfl
  count := h.count
  tree := htree
  cache := hcache

/-- Lookups change the cache only, and what the next lookup finds stays the same. -/
theorem Inv.lookups_spec : ∀ (addrs : List ℕ) {mm : Mm}, Inv mm →
    ∃ mm', mm.lookups addrs = some mm' ∧ Inv mm' ∧ mm'.mmapList = mm.mmapList ∧ mm'.vma = mm.vma
  | [], mm, h => ⟨mm, rfl, h, rfl, rfl⟩
  | addr :: addrs, mm, h => by
    obtain ⟨mm', hrun, hinv, hlist, hvma⟩ := Inv.lookups_spec addrs (h.touched addr)
    refine ⟨mm', ?_, hinv, hlist.trans touched_mmapList, hvma.trans touched_vma⟩
    unfold lookups
    rw [List.foldlM_cons, h.findVma_spec]
    exact hrun

/-- **The paths of `find_vma` agree.**  The list, any red-black tree of its VMAs and the cache
yield the lowest VMA that ends behind the address; so does `find_vma`, whatever the cache holds,
whether the tree has been built and whatever has been looked up before. -/
theorem findVma_paths_agree (mm : Mm) (h : Inv mm) (addr : ℕ) :
    ∃ r, mm.Lowest addr r ∧ (∀ r', mm.Lowest addr r' → r' = r) ∧
      mm.findVmaList addr mm.mmapList = some r ∧
      (∀ tree : RbTree ℕ, tree.IsRb mm.mmapList →
        mm.findVmaRb tree addr mm.treeFuel tree.rbNodeRoot none = some r) ∧
      (∀ v ∈ mm.mmapList, cacheHit addr { mm with mmapCache := some v } = some true →
        r = some v) ∧
      ∀ (cache : Option ℕ) (tree : Option (RbTree ℕ)) (before : List ℕ),
        (∀ v, cache = some v → v ∈ mm.mmapList) → (∀ t, tree = some t → t.IsRb mm.mmapList) →
        ∃ mm₁ mm₂, lookups { mm with mmapCache := cache, mmapTree := tree } before = some mm₁ ∧
          mm₁.findVma addr = some (r, mm₂) ∧ Inv mm₂ := by
  have hlow := h.firstAbove_lowest addr
  refine ⟨_, hlow, fun r' hr' => h.lowest_unique hlow hr', findVmaList_spec _ h.member,
    fun tree htree => ?_, fun v hv hhit => ?_, fun cache tree before hcache htree => ?_⟩
  · have hinv : Inv { mm with mmapTree := some tree } :=
      h.indexes h.cache fun t ht => by cases ht; exact htree
    have hsame : ∀ (fuel : ℕ) (node best : Option ℕ),
        findVmaRb { mm with mmapTree := some tree } tree addr fuel node best =
          mm.findVmaRb tree addr fuel node best := by
      intro fuel
      induction fuel with
      | zero => intro node best; cases node <;> rfl
      | succ fuel ih =>
        intro node best
        cases node with
        | none => rfl
        | some node => unfold findVmaRb; simp only [ih]
    exact (hsame _ _ _).symm.trans hinv.findVmaMiss_eq
  · have hhit : (mm.vmas v).map _ = some true := hhit
    rw [(h.member v hv).live] at hhit
    have hhas := of_decide_eq_true (Option.some.inj hhit)
    exact h.firstAbove_of_mem hv hhas.1 hhas.2
  · obtain ⟨mm₁, hrun, hinv, hlist, hvma⟩ := (h.indexes hcache htree).lookups_spec before
    refine ⟨mm₁, mm₁.touched addr, hrun, ?_, hinv.touched addr⟩
    rw [hinv.findVma_spec]
    have hfirst : mm₁.firstAbove addr mm₁.mmapList = mm.firstAbove addr mm.mmapList := by
      unfold firstAbove
      rw [hlist, hvma]
      rfl
    rw [hfirst]

/-- Between the text and the data a lookup finds the data, with a tree and after other lookups. -/
theorem findVma_paths_agree_program : ∃ tree : RbTree ℕ, tree.IsRb programMm.mmapList ∧
    programMm.Lowest 0x802800 (some 2) ∧
    programMm.findVmaRb tree 0x802800 programMm.treeFuel tree.rbNodeRoot none = some (some 2) ∧
    ∃ mm₁ mm₂, lookups { programMm with mmapTree := some tree } [USERTOP - 1, 0x800000] = some mm₁ ∧
      mm₁.findVma 0x802800 = some (some 2, mm₂) := by
  let mem : RbTree ℕ := ⟨fun _ => false, fun _ => .nil, fun _ _ => .nil⟩
  obtain ⟨tree, -, htree⟩ := buildTree_fold [1, 2, 0] [] _ (rbTreeCreate_isRb mem) programMm_inv.ordered
    (fun u hu => (programMm_inv.member u hu).ok) (by decide)
  obtain ⟨r, hlow, -, hlist, hrb, -, hfind⟩ := findVma_paths_agree programMm programMm_inv 0x802800
  have hr : some (some 2) = some r := hlist
  cases hr
  obtain ⟨mm₁, mm₂, hrun, hres, -⟩ := hfind (some 1) (some tree) [USERTOP - 1, 0x800000]
    (fun v hv => by cases hv; decide) (fun t ht => by cases ht; exact htree)
  exact ⟨tree, htree, hlow, hrb tree htree, mm₁, mm₂, hrun, hres⟩

end Ucore.Mm
