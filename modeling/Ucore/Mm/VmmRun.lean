import Ucore.Mm.VmmInv
import Mathlib.Data.Multiset.Filter
import Mathlib.Order.Interval.Set.Basic

/-!
# Runs of the VMA operations

Any sequence of `mm_map`, `mm_unmap`, `mm_brk` and `find_vma` from `mm_create`, with any arguments
and any outcome of the allocations.

* `Inv.mmMap_spec`, `Inv.mmUnmap_spec`, `Inv.mmBrk_spec` — every operation returns, so no
  assertion fails, and keeps the invariant.
* `vma_set_invariant` — the invariant in every reachable state.
-/

namespace Ucore

open RbTree

/-- A VMA of shared memory. -/
def Vma.Shared (x : Vma) : Prop := x.vmFlags &&& VM_SHARE ≠ 0

instance (x : Vma) : Decidable x.Shared := inferInstanceAs (Decidable (_ ≠ _))

/-- A VMA of the shared memory `o`. -/
def Vma.Points (o : ℕ) (x : Vma) : Prop := x.Shared ∧ x.shmem = o

instance (o : ℕ) : DecidablePred (Vma.Points o) := fun _ => inferInstanceAs (Decidable (_ ∧ _))

namespace Mm

variable {mm : Mm} {v w : ℕ} {x : Vma} {start stop addr : ℕ}

/-! ## Lookups and updates -/

theorem USER_ACCESS.ok (h : USER_ACCESS start stop) (hs : PGSIZE ∣ start) (he : PGSIZE ∣ stop)
    (hxs : x.vmStart = start) (hxe : x.vmEnd = stop) : VmaOk x := by
  obtain ⟨h1, h2, h3⟩ := h
  exact ⟨by omega, by omega, by omega, hxs ▸ hs, hxe ▸ he⟩

theorem firstAbove_none {l : List ℕ} (h : mm.firstAbove addr l = none) :
    ∀ u ∈ l, (mm.vma u).vmEnd ≤ addr := by
  intro u hu
  have := List.find?_eq_none.mp h u hu
  simpa using this

theorem firstAbove_some {l : List ℕ} (h : mm.firstAbove addr l = some v) :
    addr < (mm.vma v).vmEnd ∧ ∃ A B, l = A ++ v :: B ∧ ∀ u ∈ A, (mm.vma u).vmEnd ≤ addr := by
  obtain ⟨hv, A, B, hl, hA⟩ := List.find?_eq_some_iff_append.mp h
  exact ⟨by simpa using hv, A, B, hl, fun u hu => by simpa using hA u hu⟩

theorem Inv.apart (h : Inv mm) (hv : v ∈ mm.mmapList) (hw : w ∈ mm.mmapList) (hne : v ≠ w) :
    (mm.vma v).Apart (mm.vma w) :=
  List.Pairwise.forall_of_forall_of_flip (R := fun u v => u ≠ v → (mm.vma u).Apart (mm.vma v))
    (fun _ _ h => absurd rfl h) (h.ordered.imp fun huv _ => Or.inl huv)
    (h.ordered.imp fun huv _ => Or.inr huv) hv hw hne

/-- The address is in one area only. -/
theorem Inv.covers_unique {flags flags' : UInt32} (h : Inv mm) (hc : mm.Covers addr flags)
    (hc' : mm.Covers addr flags') : flags = flags' := by
  obtain ⟨v, hv, hin, rfl⟩ := hc
  obtain ⟨w, hw, hin', rfl⟩ := hc'
  by_cases hvw : v = w
  · rw [hvw]
  · have hap := h.apart hv hw hvw
    unfold Vma.Apart at hap
    unfold Vma.Has at hin hin'
    omega

/-- The same areas cover the same addresses. -/
theorem covers_congr {mm' : Mm} {flags : UInt32} (hl : mm'.mmapList = mm.mmapList)
    (hv : ∀ v ∈ mm.mmapList, mm'.vma v = mm.vma v) :
    mm'.Covers addr flags ↔ mm.Covers addr flags := by
  unfold Covers
  rw [hl]
  constructor
  · rintro ⟨v, hmem, hin⟩
    exact ⟨v, hmem, hv v hmem ▸ hin⟩
  · rintro ⟨v, hmem, hin⟩
    exact ⟨v, hmem, (hv v hmem).symm ▸ hin⟩

theorem touched_covers {start : ℕ} {flags : UInt32} :
    (mm.touched start).Covers addr flags ↔ mm.Covers addr flags :=
  covers_congr touched_mmapList fun v _ => congrFun touched_vma v

theorem setVma_covers_other {flags : UInt32} (hv : v ∉ mm.mmapList) :
    (mm.setVma v x).Covers addr flags ↔ mm.Covers addr flags :=
  covers_congr rfl fun u hu => by
    have hne : u ≠ v := fun heq => hv (heq ▸ hu)
    rw [setVma_vma, if_neg hne]

theorem Inserted.vma_eq {mm' : Mm} (h : Inserted mm mm' v x) (u : ℕ) :
    mm'.vma u = if u = v then { x with vmMm := some mm.self } else mm.vma u := by
  unfold vma
  rw [h.vmas]
  by_cases huv : u = v
  · simp [huv]
  · simp [huv]

/-- What is covered after an insertion. -/
theorem Inserted.covers {mm' : Mm} {flags : UInt32} (h : Inserted mm mm' v x)
    (hnew : v ∉ mm.mmapList) :
    mm'.Covers addr flags ↔ mm.Covers addr flags ∨ (x.Has addr ∧ x.vmFlags = flags) := by
  have hvma := h.vma_eq
  constructor
  · rintro ⟨u, hu, hin⟩
    rw [hvma] at hin
    rcases (h.mem u).mp hu with rfl | hu
    · rw [if_pos rfl] at hin
      exact Or.inr hin
    · have hne : u ≠ v := fun heq => hnew (heq ▸ hu)
      rw [if_neg hne] at hin
      exact Or.inl ⟨u, hu, hin⟩
  · rintro (⟨u, hu, hin⟩ | hin)
    · have hne : u ≠ v := fun heq => hnew (heq ▸ hu)
      refine ⟨u, (h.mem u).mpr (Or.inr hu), ?_⟩
      rw [hvma, if_neg hne]
      exact hin
    · refine ⟨v, (h.mem v).mpr (Or.inl rfl), ?_⟩
      rw [hvma, if_pos rfl]
      exact hin

/-! ### The areas, without the order and the addresses of their VMAs -/

/-- The VMAs, without their `vm_mm`. -/
def areas (mm : Mm) : Multiset Vma := ↑(mm.mmapList.map fun v => { mm.vma v with vmMm := none })

theorem mem_areas : x ∈ mm.areas ↔ ∃ v ∈ mm.mmapList, { mm.vma v with vmMm := none } = x := by
  simp [areas]

theorem areas_congr {mm' : Mm} (hl : mm'.mmapList = mm.mmapList)
    (hv : ∀ v ∈ mm.mmapList, mm'.vma v = mm.vma v) : mm'.areas = mm.areas := by
  unfold areas
  rw [hl]
  refine congrArg _ (List.map_congr_left fun v hmem => ?_)
  rw [hv v hmem]

theorem touched_areas : (mm.touched start).areas = mm.areas :=
  areas_congr touched_mmapList fun v _ => congrFun touched_vma v

theorem setVma_areas_other (hv : v ∉ mm.mmapList) : (mm.setVma v x).areas = mm.areas :=
  areas_congr rfl fun u hu => by
    have hne : u ≠ v := fun heq => hv (heq ▸ hu)
    rw [setVma_vma, if_neg hne]

theorem Inserted.areas {mm' : Mm} (h : Inserted mm mm' v x) (hinv : Inv mm) (hnew : v ∉ mm.mmapList) :
    mm'.areas = { x with vmMm := none } ::ₘ mm.areas := by
  have hnd : (v :: mm.mmapList).Nodup := List.nodup_cons.mpr ⟨hnew, hinv.nodup⟩
  have hperm : mm'.mmapList.Perm (v :: mm.mmapList) :=
    (List.perm_ext_iff_of_nodup h.inv.nodup hnd).mpr fun u => by rw [h.mem, List.mem_cons]
  have hvma := h.vma_eq
  unfold Mm.areas
  rw [Multiset.coe_eq_coe.mpr (hperm.map _), List.map_cons, hvma, if_pos rfl, ← Multiset.cons_coe]
  refine congrArg _ (congrArg _ (List.map_congr_left fun u hu => ?_))
  have huv : u ≠ v := fun heq => hnew (heq ▸ hu)
  rw [hvma, if_neg huv]

/-- An area of the list is replaced by another. -/
theorem Inv.setVma_areas (h : Inv mm) (hv : v ∈ mm.mmapList) : ∃ rest,
    mm.areas = { mm.vma v with vmMm := none } ::ₘ rest ∧
      (mm.setVma v x).areas = { x with vmMm := none } ::ₘ rest := by
  have hperm := List.perm_cons_erase hv
  have hne : ∀ u ∈ mm.mmapList.erase v, u ≠ v := fun u hu heq =>
    (h.nodup.mem_erase_iff.mp hu).1 heq
  refine ⟨↑((mm.mmapList.erase v).map fun u => ({ mm.vma u with vmMm := none } : Vma)), ?_, ?_⟩
  · unfold areas
    rw [Multiset.coe_eq_coe.mpr (hperm.map _), List.map_cons, Multiset.cons_coe]
  · unfold areas
    rw [setVma_mmapList, Multiset.coe_eq_coe.mpr (hperm.map _), List.map_cons, setVma_vma, if_pos rfl,
      ← Multiset.cons_coe]
    refine congrArg _ (congrArg _ (List.map_congr_left fun u hu => ?_))
    rw [setVma_vma, if_neg (hne u hu)]

/-- More is covered than before, and what is new was not covered at all. -/
structure Grows (mm mm' : Mm) : Prop where
  keeps : ∀ addr flags, mm.Covers addr flags → mm'.Covers addr flags
  fresh : ∀ addr flags, mm'.Covers addr flags →
    mm.Covers addr flags ∨ ∀ flags', ¬ mm.Covers addr flags'

theorem Grows.refl (mm : Mm) : Grows mm mm := ⟨fun _ _ h => h, fun _ _ h => Or.inl h⟩

theorem Grows.of_touched {mm' : Mm} (h : Grows (mm.touched start) mm') : Grows mm mm' where
  keeps addr flags hc := h.keeps addr flags (touched_covers.mpr hc)
  fresh addr flags hc := by
    rcases h.fresh addr flags hc with hold | hno
    · exact Or.inl (touched_covers.mp hold)
    · exact Or.inr fun flags' hc' => hno flags' (touched_covers.mpr hc')

theorem touched_grows : Grows mm (mm.touched start) := (Grows.refl _).of_touched

/-- Storing an object that is not in the list. -/
theorem Inv.setVma_other (h : Inv mm) (hv : v ∉ mm.mmapList) (x : Vma) : Inv (mm.setVma v x) := by
  have hsame : ∀ u ∈ mm.mmapList, (mm.setVma v x).vmas u = mm.vmas u := by
    intro u hu
    have : u ≠ v := fun heq => hv (heq ▸ hu)
    simp [this]
  exact ⟨fun u hu => (h.member u hu).congr rfl (hsame u hu), h.ordered.congr hsame, h.count,
    h.tree, h.cache⟩

/-- An area of the list is replaced by another that keeps clear of the others. -/
theorem Inv.setVma_mem (h : Inv mm) (hv : v ∈ mm.mmapList) (hx : VmaOk x)
    (howner : x.vmMm = some mm.self)
    (hlow : ∀ u ∈ mm.mmapList, (mm.vma u).vmEnd ≤ (mm.vma v).vmStart →
      (mm.vma u).vmEnd ≤ x.vmStart)
    (hhigh : ∀ u ∈ mm.mmapList, (mm.vma v).vmEnd ≤ (mm.vma u).vmStart →
      x.vmEnd ≤ (mm.vma u).vmStart) : Inv (mm.setVma v x) := by
  refine ⟨fun u hu => ?_, ?_, h.count, h.tree, h.cache⟩
  · by_cases huv : u = v
    · subst huv
      exact ⟨by simp, by simpa using hx, by simpa using howner⟩
    · exact (h.member u hu).congr rfl (by simp [huv])
  · refine List.Pairwise.imp_of_mem (fun {u w} hu hw huw => ?_) h.ordered
    have hnu := (h.ok hu).nonempty
    rw [setVma_vma, setVma_vma]
    by_cases huv : u = v
    · subst huv
      have hwu : w ≠ u := by
        intro heq
        subst heq
        omega
      rw [if_pos rfl, if_neg hwu]
      exact hhigh w hw huw
    · rw [if_neg huv]
      by_cases hwv : w = v
      · subst hwv
        rw [if_pos rfl]
        exact hlow u hu huw
      · rw [if_neg hwv]
        exact huw

/-- `vma_create` fails, or gives a fresh object. -/
theorem Inv.vmaCreate_spec (h : Inv mm) (a : Option ℕ) (flags : UInt32) :
    mm.vmaCreate a start stop flags = (none, mm) ∨
      ∃ v, mm.vmaCreate a start stop flags =
          (some v, mm.setVma v ⟨none, start, stop, flags, 0, 0⟩) ∧
        v ∉ mm.mmapList ∧ Inv (mm.setVma v ⟨none, start, stop, flags, 0, 0⟩) := by
  unfold vmaCreate
  cases ha : mm.kmalloc a with
  | none => exact Or.inl rfl
  | some v =>
    have hfree : mm.vmas v = none := by
      unfold kmalloc at ha
      obtain ⟨-, hv⟩ := Option.filter_eq_some_iff.mp ha
      simpa using hv
    have hv : v ∉ mm.mmapList := by
      intro hmem
      rw [(h.member v hmem).live] at hfree
      cases hfree
    exact Or.inr ⟨v, rfl, hv, h.setVma_other hv _⟩

/-- A new area goes into the list, or there is no memory for it. -/
theorem Inv.createInsert_spec (h : Inv mm) (hacc : USER_ACCESS start stop)
    (hs : PGSIZE ∣ start) (he : PGSIZE ∣ stop)
    (hgap : ∀ u ∈ mm.mmapList, (mm.vma u).vmEnd ≤ start ∨ stop ≤ (mm.vma u).vmStart)
    (flags : UInt32) (a : Option ℕ) (mem : ℕ → Option (RbTree ℕ)) :
    ∃ vma mm', mm.createInsert start stop flags a mem = some (vma, mm') ∧ Inv mm' ∧
      Grows mm mm' ∧ (vma = none → mm'.areas = mm.areas) ∧
      ∀ v, vma = some v → v ∈ mm'.mmapList ∧ v ∉ mm.mmapList ∧
        mm'.vma v = ⟨some mm.self, start, stop, flags, 0, 0⟩ ∧
        mm'.areas = ⟨none, start, stop, flags, 0, 0⟩ ::ₘ mm.areas := by
  unfold createInsert
  rcases h.vmaCreate_spec a flags with hnone | ⟨v, hv, hnew, hinv⟩
  · rw [hnone]
    exact ⟨none, mm, rfl, h, .refl mm, fun _ => rfl, nofun⟩
  · obtain ⟨mm', hins, hpost⟩ := hinv.insertVmaStruct_spec
      (x := ⟨none, start, stop, flags, 0, 0⟩) (by simp) (USER_ACCESS.ok hacc hs he rfl rfl) hnew
      (fun u hu => by
        have hne : u ≠ v := fun heq => hnew (heq ▸ hu)
        rw [setVma_vma, if_neg hne]
        exact hgap u hu) (mem v)
    have hcov : ∀ addr fl, mm'.Covers addr fl ↔
        mm.Covers addr fl ∨ ((start ≤ addr ∧ addr < stop) ∧ flags = fl) := by
      intro addr fl
      rw [hpost.covers hnew, setVma_covers_other hnew]
      rfl
    refine ⟨some v, mm', ?_, hpost.inv, ⟨fun addr fl hc => (hcov addr fl).mpr (Or.inl hc),
      fun addr fl hc => ?_⟩, nofun, fun w hw => ?_⟩
    · rw [hv]
      show (insertVmaStruct (mem v) v _).bind _ = _
      rw [hins]
      rfl
    · rcases (hcov addr fl).mp hc with hold | ⟨hin, -⟩
      · exact Or.inl hold
      · -- the new area keeps clear of the old ones
        refine Or.inr fun fl' hc' => ?_
        obtain ⟨u, hu, hhas, -⟩ := hc'
        have hu' := hgap u hu
        unfold Vma.Has at hhas
        omega
    · cases hw
      refine ⟨(hpost.mem v).mpr (Or.inl rfl), hnew, vma_of_some ?_, ?_⟩
      · rw [hpost.vmas, Function.update_self]
        rfl
      · rw [hpost.areas hinv hnew, setVma_areas_other hnew]

/-- `find_vma` and the test that follows it. -/
theorem Inv.findVma_meets (h : Inv mm) (start stop : ℕ) :
    ∃ meets, (mm.touched start).startsBelow stop (mm.firstAbove start mm.mmapList) = some meets ∧
      (meets = true ↔ ∃ v, mm.firstAbove start mm.mmapList = some v ∧
        (mm.vma v).vmStart < stop) := by
  cases hfirst : mm.firstAbove start mm.mmapList with
  | none => exact ⟨false, rfl, by simp⟩
  | some v =>
    have hv : v ∈ mm.mmapList := List.mem_of_find?_eq_some hfirst
    refine ⟨decide (stop > (mm.vma v).vmStart), ?_, by simp⟩
    show ((mm.touched start).vmas v).map _ = _
    rw [touched_vmas, (h.member v hv).live]
    rfl

/-- The VMAs behind `v` start where it ends, or later. -/
theorem Inv.behind (h : Inv mm) {A B : List ℕ} {v u : ℕ} (hl : mm.mmapList = A ++ v :: B) (hu : u ∈ B) :
    (mm.vma v).vmEnd ≤ (mm.vma u).vmStart := by
  have hord := h.ordered
  unfold Ordered at hord
  rw [hl, List.pairwise_append, List.pairwise_cons] at hord
  exact hord.2.1.1 u hu

/-- What `find_vma` says about the range from `start`: the VMAs before the found one end at or
before `start`. -/
theorem Inv.gap_of_first (h : Inv mm) (hfree : ∀ v, mm.firstAbove start mm.mmapList = some v →
    stop ≤ (mm.vma v).vmStart) :
    ∀ u ∈ mm.mmapList, (mm.vma u).vmEnd ≤ start ∨ stop ≤ (mm.vma u).vmStart := by
  intro u hu
  cases hfirst : mm.firstAbove start mm.mmapList with
  | none => exact Or.inl (firstAbove_none hfirst u hu)
  | some v =>
    have hstop := hfree v hfirst
    obtain ⟨-, A, B, hl, hA⟩ := firstAbove_some hfirst
    have hnv := (h.ok (v := v) (by rw [hl]; simp)).nonempty
    rw [hl] at hu
    rcases List.mem_append.mp hu with hu | hu
    · exact Or.inl (hA u hu)
    · rcases List.mem_cons.mp hu with rfl | hu
      · exact Or.inr hstop
      · have := h.behind hl hu
        exact Or.inr (by omega)

/-- **`mm_map`** returns and keeps the invariant. -/
theorem Inv.mmMap_spec (h : Inv mm) (addr len : ℕ) (flags : UInt32) (a : Option ℕ)
    (mem : ℕ → Option (RbTree ℕ)) :
    ∃ ret vma mm', mm.mmMap addr len flags a mem = some (ret, vma, mm') ∧ Inv mm' ∧
      Grows mm mm' ∧ (vma = none → ret ≠ 0 ∧ mm'.areas = mm.areas) ∧
      ∀ v, vma = some v → v ∈ mm'.mmapList ∧ (∀ a, (mm'.vma v).Has a → ∀ fl, ¬ mm.Covers a fl) ∧
        ret = 0 ∧ mm'.vma v = ⟨some (mm.touched (rounddown addr)).self, rounddown addr,
          roundup (wadd addr len), flags &&& ~~~VM_SHARE, 0, 0⟩ ∧
        mm'.areas = ⟨none, rounddown addr, roundup (wadd addr len), flags &&& ~~~VM_SHARE, 0, 0⟩ ::ₘ
          mm.areas := by
  simp only [mmMap]
  split
  · exact ⟨_, _, mm, rfl, h, .refl mm, fun _ => ⟨by decide, rfl⟩, nofun⟩
  rename_i hacc
  have hacc := not_not.mp hacc
  have ht := h.touched (rounddown addr)
  obtain ⟨meets, hmeets, hiff⟩ := h.findVma_meets (rounddown addr) (roundup (wadd addr len))
  rw [h.findVma_spec]
  simp only [Option.bind_eq_bind, Option.bind_some, hmeets]
  cases meets with
  | true => exact ⟨_, _, _, rfl, ht, touched_grows, fun _ => ⟨by decide, touched_areas⟩, nofun⟩
  | false =>
    have hgap : ∀ u ∈ mm.mmapList,
        (mm.vma u).vmEnd ≤ rounddown addr ∨ roundup (wadd addr len) ≤ (mm.vma u).vmStart := by
      refine h.gap_of_first fun v hv => ?_
      by_contra hlt
      have := hiff.mpr ⟨v, hv, by omega⟩
      cases this
    obtain ⟨vma, mm', hrun, hinv, hgrows, hnone, hnew⟩ := ht.createInsert_spec hacc (rounddown_aligned _)
      (roundup_aligned _) (by rw [touched_mmapList, touched_vma]; exact hgap)
      (flags &&& ~~~VM_SHARE) a mem
    simp only [Bool.false_eq_true, if_false, hrun, Option.bind_some]
    rw [touched_areas] at hnone hnew
    refine ⟨_, _, mm', rfl, hinv, hgrows.of_touched, fun hv => ⟨?_, hnone hv⟩, fun v hv => ?_⟩
    · rw [if_pos hv]
      decide
    obtain ⟨hmem, -, hval, hareas⟩ := hnew v hv
    refine ⟨hmem, fun b hb fl hc => ?_, if_neg (by rw [hv]; exact Option.some_ne_none v), hval, hareas⟩
    obtain ⟨u, hu, hhas, -⟩ := hc
    have hu' := hgap u hu
    rw [hval] at hb
    unfold Vma.Has at hb hhas
    dsimp only at hb
    omega

/-! ## `mm_unmap` -/

section Unmap

variable {mem : ℕ → Option (RbTree ℕ)}

/-- No VMA of the list meets the range. -/
def Clear (mm : Mm) (start stop : ℕ) : Prop :=
  ∀ u ∈ mm.mmapList, (mm.vma u).vmEnd ≤ start ∨ stop ≤ (mm.vma u).vmStart

theorem Inserted.clear {mm' : Mm} (h : Inserted mm mm' v x) (hnew : v ∉ mm.mmapList)
    (hc : mm.Clear start stop) (hx : x.vmEnd ≤ start ∨ stop ≤ x.vmStart) :
    mm'.Clear start stop := by
  intro u hu
  rw [h.vma_eq]
  rcases (h.mem u).mp hu with rfl | hu
  · rw [if_pos rfl]
    exact hx
  · have huv : u ≠ v := fun heq => hnew (heq ▸ hu)
    rw [if_neg huv]
    exact hc u hu

theorem unmaps_nil {b : ℕ} : ¬ Unmaps [] b := by
  rintro ⟨lo, hi, hmem, -⟩
  cases hmem

theorem unmaps_singleton {lo hi b : ℕ} : Unmaps [.unmapRange lo hi] b ↔ lo ≤ b ∧ b < hi := by
  constructor
  · rintro ⟨lo', hi', hmem, hb⟩
    rw [List.mem_singleton] at hmem
    cases hmem
    exact hb
  · exact fun hb => ⟨lo, hi, List.mem_singleton.mpr rfl, hb⟩

theorem unmaps_append {effects rest : List VmEffect} {b : ℕ} :
    Unmaps (effects ++ rest) b ↔ Unmaps effects b ∨ Unmaps rest b := by
  unfold Unmaps
  constructor
  · rintro ⟨lo, hi, hmem, hb⟩
    rcases List.mem_append.mp hmem with hmem | hmem
    · exact Or.inl ⟨lo, hi, hmem, hb⟩
    · exact Or.inr ⟨lo, hi, hmem, hb⟩
  · rintro (⟨lo, hi, hmem, hb⟩ | ⟨lo, hi, hmem, hb⟩)
    · exact ⟨lo, hi, List.mem_append_left _ hmem, hb⟩
    · exact ⟨lo, hi, List.mem_append_right _ hmem, hb⟩

/-- The calls unmap ranges of pages between `start` and `stop`. -/
def Bounded (start stop : ℕ) (effects : List VmEffect) : Prop :=
  ∀ lo hi, VmEffect.unmapRange lo hi ∈ effects →
    PGSIZE ∣ lo ∧ PGSIZE ∣ hi ∧ start ≤ lo ∧ lo < hi ∧ hi ≤ stop

theorem bounded_nil : Bounded start stop [] := nofun

theorem bounded_singleton {lo hi : ℕ} (hlo : PGSIZE ∣ lo) (hhi : PGSIZE ∣ hi)
    (hrange : start ≤ lo ∧ lo < hi ∧ hi ≤ stop) : Bounded start stop [.unmapRange lo hi] := by
  intro lo' hi' hmem
  rw [List.mem_singleton] at hmem
  cases hmem
  exact ⟨hlo, hhi, hrange⟩

theorem Bounded.append {effects rest : List VmEffect} (h : Bounded start stop effects)
    (h' : Bounded start stop rest) : Bounded start stop (effects ++ rest) := by
  intro lo hi hmem
  exact (List.mem_append.mp hmem).elim (h lo hi) (h' lo hi)

theorem Bounded.of_unmaps {effects : List VmEffect} {b : ℕ} (h : Bounded start stop effects)
    (hb : Unmaps effects b) : start ≤ b ∧ b < stop := by
  obtain ⟨lo, hi, hmem, hb⟩ := hb
  obtain ⟨-, -, hrange⟩ := h lo hi hmem
  omega

/-- The object after `vma_resize`. -/
def resized (x : Vma) (start stop : ℕ) : Vma :=
  { x with
    vmStart := start, vmEnd := stop
    shmemOff :=
      if x.vmFlags &&& VM_SHARE ≠ 0 then wadd x.shmemOff (start - x.vmStart) else x.shmemOff }

theorem vmaResize_spec (hx : mm.vmas v = some x) (hs : PGSIZE ∣ start) (he : PGSIZE ∣ stop)
    (hrange : x.vmStart ≤ start ∧ start < stop ∧ stop ≤ x.vmEnd) :
    mm.vmaResize v start stop = some (mm.setVma v (resized x start stop)) := by
  unfold vmaResize
  rw [hx]
  have h1 : guard (start % PGSIZE = 0 ∧ stop % PGSIZE = 0) = some () :=
    if_pos ⟨Nat.mod_eq_zero_of_dvd hs, Nat.mod_eq_zero_of_dvd he⟩
  have h2 : guard (x.vmStart ≤ start ∧ start < stop ∧ stop ≤ x.vmEnd) = some () := if_pos hrange
  simp only [Option.bind_eq_bind, Option.bind_some, h1, h2]
  rfl

/-- The areas `A'` are parts of the areas `A`, or have no shared memory; every shared VMA that is not there any more
has given up its reference. -/
structure Cut (A A' : Multiset Vma) (effects : List VmEffect) : Prop where
  part : ∀ y ∈ A', y ∈ A ∨ (∃ x ∈ A, ∃ lo hi, x.vmStart ≤ lo ∧ lo < hi ∧ hi ≤ x.vmEnd ∧ y = resized x lo hi) ∨
    (¬ y.Shared ∧ y.shmem = 0)
  count : ∀ o, A'.countP (Vma.Points o) + effects.count (.shmemRefDec o) = A.countP (Vma.Points o)

theorem Cut.refl (A : Multiset Vma) : Cut A A [] := ⟨fun _ hy => Or.inl hy, fun _ => rfl⟩

theorem Cut.add {A A' B B' : Multiset Vma} {effects rest : List VmEffect} (h : Cut A A' effects)
    (h' : Cut B B' rest) : Cut (A + B) (A' + B') (effects ++ rest) := by
  refine ⟨fun y hy => ?_, fun o => ?_⟩
  · rcases Multiset.mem_add.mp hy with hy | hy
    · rcases h.part y hy with hold | ⟨x, hx, hpart⟩ | hplain
      · exact Or.inl (Multiset.mem_add.mpr (Or.inl hold))
      · exact Or.inr (Or.inl ⟨x, Multiset.mem_add.mpr (Or.inl hx), hpart⟩)
      · exact Or.inr (Or.inr hplain)
    · rcases h'.part y hy with hold | ⟨x, hx, hpart⟩ | hplain
      · exact Or.inl (Multiset.mem_add.mpr (Or.inr hold))
      · exact Or.inr (Or.inl ⟨x, Multiset.mem_add.mpr (Or.inr hx), hpart⟩)
      · exact Or.inr (Or.inr hplain)
  · have hcount := h.count o
    have hcount' := h'.count o
    simp only [Multiset.countP_add, List.count_append]
    omega

theorem countP_points (o : ℕ) (x : Vma) :
    Multiset.countP (Vma.Points o) {x} = if x.Points o then 1 else 0 := by
  rw [← Multiset.cons_zero, Multiset.countP_cons, Multiset.countP_zero, Nat.zero_add]

/-- `vma_destroy` gives up the reference of a shared VMA. -/
theorem count_destroyed (o : ℕ) (x : Vma) :
    List.count (.shmemRefDec o) (if x.vmFlags &&& VM_SHARE ≠ 0 then [VmEffect.shmemRefDec x.shmem] else []) =
      if x.Points o then 1 else 0 := by
  by_cases hshared : x.vmFlags &&& VM_SHARE ≠ 0
  · rw [if_pos hshared]
    simp [Vma.Points, Vma.Shared, hshared, List.count_singleton]
  · have hpoints : ¬ x.Points o := fun hpoints => hshared hpoints.1
    rw [if_neg hshared, if_neg hpoints]
    rfl

/-- A part of an area is left. -/
theorem Cut.trim {lo hi b e : ℕ} (hrange : x.vmStart ≤ lo ∧ lo < hi ∧ hi ≤ x.vmEnd) :
    Cut {x} {resized x lo hi} [.unmapRange b e] := by
  refine ⟨fun y hy => ?_, fun o => ?_⟩
  · refine Or.inr (Or.inl ⟨x, Multiset.mem_singleton_self x, lo, hi, hrange.1, hrange.2.1, hrange.2.2, ?_⟩)
    exact Multiset.mem_singleton.mp hy
  · rw [countP_points, countP_points]
    rfl

/-- The split of a VMA around the range. -/
theorem Inv.unmapSplit_spec (h : Inv mm) (hv : v ∈ mm.mmapList) (hs : PGSIZE ∣ start)
    (he : PGSIZE ∣ stop) (hss : start < stop)
    (hin : (mm.vma v).vmStart < start ∧ stop < (mm.vma v).vmEnd) (a : Option ℕ) :
    ∃ ret effects mm', mm.unmapSplit start stop a mem v (mm.vma v) = some (ret, effects, mm') ∧
      Inv mm' ∧ (ret = 0 → mm'.Clear start stop) ∧
      (∀ b fl, mm'.Covers b fl ↔ mm.Covers b fl ∧ ¬ Unmaps effects b) ∧
      (¬ (mm.vma v).Shared → Cut mm.areas mm'.areas effects) ∧ Bounded start stop effects ∧
      (ret ≠ 0 → effects = [] ∧ mm'.areas = mm.areas) := by
  have hok := h.ok hv
  unfold unmapSplit
  rcases h.vmaCreate_spec a (mm.vma v).vmFlags with
    hnone | ⟨n, hn, hnew, hinv⟩
  · rw [hnone]
    refine ⟨_, _, mm, rfl, h, nofun, fun b fl => ⟨fun hc => ⟨hc, ?_⟩, fun hc => hc.1⟩,
      fun _ => .refl _, bounded_nil, fun _ => ⟨rfl, rfl⟩⟩
    exact unmaps_nil
  rw [hn]
  set x₁ : Vma := ⟨none, (mm.vma v).vmStart, start, (mm.vma v).vmFlags, 0, 0⟩ with hx₁
  set mm₁ := mm.setVma n x₁ with hmm₁
  have hvn : v ≠ n := fun heq => hnew (heq ▸ hv)
  have hlive : mm₁.vmas v = some (mm.vma v) := by
    rw [hmm₁, setVma_vmas, if_neg hvn]
    exact (h.member v hv).live
  have hres := vmaResize_spec hlive he hok.endAligned ⟨by omega, by omega, Nat.le_refl _⟩
  set x₂ := resized (mm.vma v) stop (mm.vma v).vmEnd with hx₂
  have hvma₁ : ∀ u ∈ mm.mmapList, mm₁.vma u = mm.vma u := by
    intro u hu
    have hun : u ≠ n := fun heq => hnew (heq ▸ hu)
    rw [hmm₁, setVma_vma, if_neg hun]
  -- the upper part stays in place, in the list and in the tree
  have hinv₂ : Inv (mm₁.setVma v x₂) := by
    refine hinv.setVma_mem hv ⟨?_, hin.2, hok.top, he, hok.endAligned⟩ (h.member v hv).owner ?_ ?_
    · exact Nat.le_trans hok.base (by show (mm.vma v).vmStart ≤ stop; omega)
    · intro u _ hle
      rw [hvma₁ v hv] at hle
      exact Nat.le_trans hle (by show (mm.vma v).vmStart ≤ stop; omega)
    · intro u _ hle
      rw [hvma₁ v hv] at hle
      exact hle
  have hvma₂ : ∀ u ∈ mm.mmapList, u ≠ v → (mm₁.setVma v x₂).vma u = mm.vma u := by
    intro u hu huv
    rw [setVma_vma, if_neg huv, hvma₁ u hu]
  have hok₁ : VmaOk x₁ := ⟨hok.base, hin.1, by
    have := hok.top
    show start ≤ USERTOP
    omega, hok.startAligned, hs⟩
  obtain ⟨mm', hins, hpost⟩ := hinv₂.insertVmaStruct_spec (x := x₁)
    (by rw [setVma_vmas, if_neg (Ne.symm hvn), hmm₁, setVma_vmas, if_pos rfl]) hok₁ hnew (by
      intro u hu
      by_cases huv : u = v
      · subst huv
        rw [setVma_vma, if_pos rfl]
        exact Or.inr (Nat.le_of_lt hss)
      · rw [hvma₂ u hu huv]
        rcases h.apart hu hv huv with hle | hle
        · exact Or.inl hle
        · exact Or.inr (Nat.le_trans (by show start ≤ (mm.vma v).vmEnd; omega) hle)) (mem n)
  refine ⟨0, [.unmapRange start stop], mm', ?_, hpost.inv, fun _ => hpost.clear hnew ?_ ?_,
    fun b fl => ?_, fun hplain => ?_, bounded_singleton hs he ⟨le_rfl, hss, le_rfl⟩,
    fun hne => absurd rfl hne⟩
  · show (mm₁.vmaResize v stop (mm.vma v).vmEnd).bind _ = _
    rw [hres]
    show ((mm₁.setVma v x₂).insertVmaStruct (mem n) n).bind _ = _
    rw [hins]
    rfl
  · intro u hu
    by_cases huv : u = v
    · subst huv
      rw [setVma_vma, if_pos rfl]
      exact Or.inr (Nat.le_refl _)
    · rw [hvma₂ u hu huv]
      rcases h.apart hu hv huv with hle | hle
      · exact Or.inl (by omega)
      · exact Or.inr (by omega)
  · exact Or.inl (Nat.le_refl _)
  · -- the area is left with its ends
    rw [hpost.covers hnew, unmaps_singleton]
    constructor
    · rintro (⟨u, hu, hhas, hfl⟩ | ⟨hhas, hfl⟩)
      · by_cases huv : u = v
        · subst huv
          rw [setVma_vma, if_pos rfl] at hhas hfl
          have hhas : stop ≤ b ∧ b < (mm.vma u).vmEnd := hhas
          exact ⟨⟨u, hu, ⟨by omega, hhas.2⟩, hfl⟩, by omega⟩
        · rw [hvma₂ u hu huv] at hhas hfl
          refine ⟨⟨u, hu, hhas, hfl⟩, ?_⟩
          have hap := h.apart hu hv huv
          unfold Vma.Apart at hap
          unfold Vma.Has at hhas
          omega
      · have hhas : (mm.vma v).vmStart ≤ b ∧ b < start := hhas
        exact ⟨⟨v, hv, ⟨hhas.1, by omega⟩, hfl⟩, by omega⟩
    · rintro ⟨⟨u, hu, hhas, hfl⟩, hout⟩
      by_cases huv : u = v
      · subst huv
        unfold Vma.Has at hhas
        by_cases hlow : b < start
        · exact Or.inr ⟨⟨hhas.1, hlow⟩, hfl⟩
        · refine Or.inl ⟨u, hu, ?_⟩
          rw [setVma_vma, if_pos rfl]
          exact ⟨⟨by show stop ≤ b; omega, hhas.2⟩, hfl⟩
      · refine Or.inl ⟨u, hu, ?_⟩
        rw [hvma₂ u hu huv]
        exact ⟨hhas, hfl⟩
  · -- the new VMA of the lower part has no shared memory, and neither had the area
    obtain ⟨rest, hold, hset⟩ := hinv.setVma_areas (x := x₂) hv
    rw [hvma₁ v hv, hmm₁, setVma_areas_other hnew] at hold
    rw [hpost.areas hinv₂ hnew, hset, hold, ← Multiset.singleton_add, ← Multiset.singleton_add,
      ← Multiset.singleton_add, ← Multiset.add_assoc]
    have hlow : ¬ x₁.Shared := hplain
    have htrim := Cut.trim (x := { mm.vma v with vmMm := none }) (b := start) (e := stop)
      (show (mm.vma v).vmStart ≤ stop ∧ stop < (mm.vma v).vmEnd ∧ (mm.vma v).vmEnd ≤ (mm.vma v).vmEnd by omega)
    have hboth : Cut {{ mm.vma v with vmMm := none }} ({{ x₁ with vmMm := none }} + {{ x₂ with vmMm := none }})
        [.unmapRange start stop] := by
      refine ⟨fun y hy => ?_, fun o => ?_⟩
      · rcases Multiset.mem_add.mp hy with hy | hy
        · rw [Multiset.mem_singleton.mp hy]
          exact Or.inr (Or.inr ⟨hlow, rfl⟩)
        · exact htrim.part y hy
      · have hnone : ¬ ({ x₁ with vmMm := none } : Vma).Points o := fun hpoints => hlow hpoints.1
        rw [Multiset.countP_add, countP_points, if_neg hnone, Nat.zero_add]
        exact htrim.count o
    have hcut := hboth.add (Cut.refl rest)
    rw [List.append_nil] at hcut
    exact hcut

theorem listNext_mid {v : ℕ} {B : List ℕ} : ∀ {A : List ℕ}, v ∉ A →
    listNext (A ++ v :: B) (some v) = B.head?
  | [], _ => by simp [listNext]
  | a :: A, h => by
    have hav : a ≠ v := fun heq => h (by simp [heq])
    rw [List.cons_append, listNext, if_neg hav]
    exact listNext_mid fun hmem => h (by simp [hmem])

/-- **The first loop of `mm_unmap`** takes out the VMAs from `v` on that begin before `stop`. -/
theorem collect_spec (stop : ℕ) : ∀ (fuel : ℕ) (R A free : List ℕ) (v : ℕ) (mm : Mm), Inv mm →
    mm.mmapList = A ++ v :: R → R.length < fuel →
    ∃ M R' mm', v :: R = M ++ R' ∧ collect stop fuel v free mm = some (M.reverse ++ free, mm') ∧
      Inv mm' ∧ mm'.vmas = mm.vmas ∧ mm'.mmapList = A ++ R' ∧
      (∀ u ∈ M, (mm.vma u).vmStart < stop) ∧ ∀ u ∈ R', stop ≤ (mm.vma u).vmStart := by
  intro fuel
  induction fuel with
  | zero => intro R A free v mm _ _ hlt; omega
  | succ fuel ih =>
    intro R A free v mm h hl hlt
    have hv : v ∈ mm.mmapList := by rw [hl]; simp
    have hnd := h.nodup
    rw [hl] at hnd
    have hvA : v ∉ A := fun hmem => (List.nodup_append.mp hnd).2.2 v hmem v (by simp) rfl
    have herase : mm.mmapList.erase v = A ++ R := by
      rw [hl, List.erase_append_right _ hvA, List.erase_cons_head]
    unfold collect
    rw [(h.member v hv).live]
    simp only [Option.bind_eq_bind, Option.bind_some]
    by_cases hstop : (mm.vma v).vmStart < stop
    · obtain ⟨mm₁, hrem, hpost⟩ := h.removeVmaStruct_spec hv
      have hl₁ : mm₁.mmapList = A ++ R := hpost.list.trans herase
      have hvma₁ : ∀ u, mm₁.vma u = mm.vma u := fun u => vma_congr (congrFun hpost.vmas u)
      rw [if_pos hstop, hl, listNext_mid hvA, hrem, Option.bind_some]
      cases R with
      | nil =>
        refine ⟨[v], [], mm₁, rfl, rfl, hpost.inv, hpost.vmas, hl₁, ?_, nofun⟩
        intro u hu
        rw [List.mem_singleton.mp hu]
        exact hstop
      | cons w R =>
        obtain ⟨M, R', mm', hsplit, hrun, hinv, hvmas, hlist, hM, hR'⟩ :=
          ih R A (v :: free) w mm₁ hpost.inv hl₁ (by simpa using hlt)
        simp only [hvma₁] at hM hR'
        refine ⟨v :: M, R', mm', by rw [hsplit]; rfl, ?_, hinv, hvmas.trans hpost.vmas, hlist, ?_,
          hR'⟩
        · rw [List.head?_cons]
          simpa using hrun
        · intro u hu
          rcases List.mem_cons.mp hu with rfl | hu
          · exact hstop
          · exact hM u hu
    · rw [if_neg hstop]
      refine ⟨[], v :: R, mm, rfl, rfl, h, rfl, hl, nofun, ?_⟩
      -- the VMAs behind `v` start later still
      have hnv := (h.ok hv).nonempty
      intro u hu
      rcases List.mem_cons.mp hu with rfl | hu
      · omega
      · have := h.behind hl hu
        omega

/-- A VMA that was taken out: it meets the range, does not have to be split, and keeps clear of the
list. -/
structure TakenOut (mm : Mm) (start stop v : ℕ) : Prop where
  live : mm.vmas v = some (mm.vma v)
  ok : VmaOk (mm.vma v)
  below : (mm.vma v).vmStart < stop
  above : start < (mm.vma v).vmEnd
  whole : start ≤ (mm.vma v).vmStart ∨ (mm.vma v).vmEnd ≤ stop
  out : v ∉ mm.mmapList
  apart : ∀ u ∈ mm.mmapList, (mm.vma u).Apart (mm.vma v)

/-- What one round of the second loop of `mm_unmap` leaves behind. -/
structure Released (mm mm' : Mm) (start stop v : ℕ) : Prop where
  inv : Inv mm'
  clear : mm'.Clear start stop
  other : ∀ w, w ≠ v → mm'.vmas w = mm.vmas w
  list : ∀ u ∈ mm'.mmapList, u ∈ mm.mmapList ∨
    u = v ∧ (mm.vma v).vmStart ≤ (mm'.vma v).vmStart ∧ (mm'.vma v).vmEnd ≤ (mm.vma v).vmEnd

/-- The rest of the area `x` is covered again, and the calls unmap what is not. -/
structure Trims (mm mm' : Mm) (x : Vma) (effects : List VmEffect) : Prop where
  covers : ∀ b fl, mm'.Covers b fl ↔
    mm.Covers b fl ∨ (x.Has b ∧ x.vmFlags = fl ∧ ¬ Unmaps effects b)
  within : ∀ b, Unmaps effects b → x.Has b

/-- The part of a taken out VMA outside the range goes back into the list. -/
theorem Inv.putBack_spec (h : Inv mm) (hc : mm.Clear start stop) (hv : TakenOut mm start stop v)
    {lo hi : ℕ} (hlo : PGSIZE ∣ lo) (hhi : PGSIZE ∣ hi)
    (hrange : (mm.vma v).vmStart ≤ lo ∧ lo < hi ∧ hi ≤ (mm.vma v).vmEnd)
    (hout : hi ≤ start ∨ stop ≤ lo) :
    ∃ mm₁ mm', mm.vmaResize v lo hi = some mm₁ ∧ mm₁.insertVmaStruct (mem v) v = some mm' ∧
      Released mm mm' start stop v ∧ (∀ b fl, mm'.Covers b fl ↔
        mm.Covers b fl ∨ ((lo ≤ b ∧ b < hi) ∧ (mm.vma v).vmFlags = fl)) ∧
      mm'.areas = mm.areas + {resized { mm.vma v with vmMm := none } lo hi} := by
  have hok := hv.ok
  have hinv₁ := h.setVma_other hv.out (resized (mm.vma v) lo hi)
  have hvma : ∀ u ∈ mm.mmapList, (mm.setVma v (resized (mm.vma v) lo hi)).vma u = mm.vma u := by
    intro u hu
    have huv : u ≠ v := fun heq => hv.out (heq ▸ hu)
    rw [setVma_vma, if_neg huv]
  have hok₁ : VmaOk (resized (mm.vma v) lo hi) :=
    ⟨Nat.le_trans hok.base hrange.1, hrange.2.1, Nat.le_trans hrange.2.2 hok.top, hlo, hhi⟩
  obtain ⟨mm', hins, hpost⟩ := hinv₁.insertVmaStruct_spec (by simp) hok₁ hv.out (by
    intro u hu
    rw [hvma u hu]
    rcases hv.apart u hu with hle | hle
    · exact Or.inl (Nat.le_trans hle hrange.1)
    · exact Or.inr (Nat.le_trans hrange.2.2 hle)) (mem v)
  refine ⟨_, mm', vmaResize_spec hv.live hlo hhi hrange, hins, ⟨hpost.inv, ?_, ?_, ?_⟩,
    fun b fl => ?_, ?_⟩
  · refine hpost.clear hv.out ?_ hout
    intro u hu
    rw [hvma u hu]
    exact hc u hu
  · intro w hw
    rw [hpost.vmas]
    simp [hw]
  · intro u hu
    rcases (hpost.mem u).mp hu with rfl | hu
    · right
      rw [hpost.vma_eq, if_pos rfl]
      exact ⟨rfl, hrange.1, hrange.2.2⟩
    · exact Or.inl hu
  · rw [hpost.covers hv.out, setVma_covers_other hv.out]
    rfl
  · rw [hpost.areas hinv₁ hv.out, setVma_areas_other hv.out, Multiset.add_comm, Multiset.singleton_add]
    rfl

/-- **One round of the second loop.** -/
theorem Inv.release_spec (h : Inv mm) (hc : mm.Clear start stop) (hs : PGSIZE ∣ start)
    (he : PGSIZE ∣ stop) (hv : TakenOut mm start stop v) :
    ∃ effects mm', mm.release start stop mem v = some (effects, mm') ∧
      Released mm mm' start stop v ∧ Trims mm mm' (mm.vma v) effects ∧
      Bounded start stop effects ∧
      ∃ parts, mm'.areas = mm.areas + parts ∧ Cut {{ mm.vma v with vmMm := none }} parts effects := by
  have hok := hv.ok
  have habove := hv.above
  have hbelow := hv.below
  have hwhole := hv.whole
  unfold release
  rw [hv.live]
  simp only [Option.bind_eq_bind, Option.bind_some]
  split
  · rename_i hlow
    have hrange : (mm.vma v).vmStart ≤ (mm.vma v).vmStart ∧ (mm.vma v).vmStart < start ∧
        start ≤ (mm.vma v).vmEnd := ⟨Nat.le_refl _, hlow, by omega⟩
    obtain ⟨mm₁, mm', hres, hins, hpost, hcov, hareas⟩ := h.putBack_spec hc hv
      hok.startAligned hs hrange (Or.inl (Nat.le_refl _))
    rw [hres, Option.bind_some, hins]
    refine ⟨_, mm', rfl, hpost, ⟨fun b fl => ?_, fun b hb => ?_⟩,
      bounded_singleton hs hok.endAligned (by omega), _, hareas, .trim hrange⟩
    · rw [hcov, unmaps_singleton]
      unfold Vma.Has
      constructor
      · rintro (hold | ⟨hb, hfl⟩)
        · exact Or.inl hold
        · exact Or.inr ⟨by omega, hfl, by omega⟩
      · rintro (hold | ⟨hb, hfl, hout⟩)
        · exact Or.inl hold
        · exact Or.inr ⟨by omega, hfl⟩
    · rw [unmaps_singleton] at hb
      exact ⟨by omega, hb.2⟩
  · split
    · rename_i hhigh
      have hrange : (mm.vma v).vmStart ≤ stop ∧ stop < (mm.vma v).vmEnd ∧
          (mm.vma v).vmEnd ≤ (mm.vma v).vmEnd := ⟨by omega, hhigh, Nat.le_refl _⟩
      obtain ⟨mm₁, mm', hres, hins, hpost, hcov, hareas⟩ := h.putBack_spec hc hv he
        hok.endAligned hrange (Or.inr (Nat.le_refl _))
      rw [hres, Option.bind_some, hins]
      refine ⟨_, mm', rfl, hpost, ⟨fun b fl => ?_, fun b hb => ?_⟩,
        bounded_singleton hok.startAligned he (by omega), _, hareas, .trim hrange⟩
      · rw [hcov, unmaps_singleton]
        unfold Vma.Has
        constructor
        · rintro (hold | ⟨hb, hfl⟩)
          · exact Or.inl hold
          · exact Or.inr ⟨by omega, hfl, by omega⟩
        · rintro (hold | ⟨hb, hfl, hout⟩)
          · exact Or.inl hold
          · exact Or.inr ⟨by omega, hfl⟩
      · rw [unmaps_singleton] at hb
        exact ⟨hb.1, by omega⟩
    · -- nothing is left of it
      unfold vmaDestroy
      rw [hv.live]
      have hsame : ∀ u, u ≠ v → Function.update mm.vmas v none u = mm.vmas u :=
        fun u hu => by simp [hu]
      have hmem : ∀ u ∈ mm.mmapList, u ≠ v := fun u hu heq => hv.out (heq ▸ hu)
      have hcov : ∀ b fl, Covers { mm with vmas := Function.update mm.vmas v none } b fl ↔
          mm.Covers b fl := fun b fl =>
        covers_congr rfl fun u hu => vma_congr (hsame u (hmem u hu))
      have hun : ∀ b, Unmaps ((if (mm.vma v).vmFlags &&& VM_SHARE ≠ 0 then
          [VmEffect.shmemRefDec (mm.vma v).shmem] else []) ++
          [VmEffect.unmapRange (mm.vma v).vmStart (mm.vma v).vmEnd]) b ↔ (mm.vma v).Has b := by
        intro b
        rw [unmaps_append, unmaps_singleton]
        refine ⟨fun hb => hb.resolve_left ?_, Or.inr⟩
        rintro ⟨lo, hi, hmem', -⟩
        split at hmem'
        · rw [List.mem_singleton] at hmem'
          cases hmem'
        · cases hmem'
      have hareas : Mm.areas { mm with vmas := Function.update mm.vmas v none } = mm.areas + 0 := by
        rw [Multiset.add_zero]
        exact areas_congr rfl fun u hu => vma_congr (hsame u (hmem u hu))
      refine ⟨_, _, rfl, ⟨⟨fun u hu => ?_, ?_, h.count, h.tree, h.cache⟩, ?_, hsame, ?_⟩,
        ⟨fun b fl => ?_, fun b hb => (hun b).mp hb⟩, ?_, 0, hareas, nofun, fun o => ?_⟩
      · exact (h.member u hu).congr rfl (hsame u (hmem u hu))
      · exact Ordered.congr h.ordered fun u hu => hsame u (hmem u hu)
      · intro u hu
        rw [vma_congr (hsame u (hmem u hu))]
        exact hc u hu
      · exact fun u hu => Or.inl hu
      · rw [hcov, hun]
        refine ⟨Or.inl, fun hor => hor.resolve_right fun hx => hx.2.2 hx.1⟩
      · have hnone : Bounded start stop (if (mm.vma v).vmFlags &&& VM_SHARE ≠ 0 then
            [VmEffect.shmemRefDec (mm.vma v).shmem] else []) := by
          split <;> simp [Bounded]
        have hne := hok.nonempty
        exact hnone.append (bounded_singleton hok.startAligned hok.endAligned (by omega))
      · -- a shared VMA gives up its reference
        have hnone : List.count (VmEffect.shmemRefDec o) [.unmapRange (mm.vma v).vmStart (mm.vma v).vmEnd] = 0 :=
          List.count_eq_zero_of_not_mem (by simp)
        rw [countP_points, Multiset.countP_zero, Nat.zero_add, List.count_append, hnone, Nat.add_zero]
        exact count_destroyed o _

/-- **The second loop of `mm_unmap`** over VMAs that keep clear of one another. -/
theorem releaseAll_spec (hs : PGSIZE ∣ start) (he : PGSIZE ∣ stop) : ∀ (free : List ℕ) (mm : Mm),
    Inv mm → mm.Clear start stop → (∀ v ∈ free, TakenOut mm start stop v) →
    free.Pairwise (fun v w => v ≠ w ∧ (mm.vma v).Apart (mm.vma w)) →
    ∃ effects mm', mm.releaseAll start stop mem free = some (effects, mm') ∧ Inv mm' ∧
      mm'.Clear start stop ∧ (∀ b fl, mm'.Covers b fl ↔ mm.Covers b fl ∨
        ∃ v ∈ free, (mm.vma v).Has b ∧ (mm.vma v).vmFlags = fl ∧ ¬ Unmaps effects b) ∧
      (∀ b, Unmaps effects b → ∃ v ∈ free, (mm.vma v).Has b) ∧ Bounded start stop effects ∧
      ∃ parts, mm'.areas = mm.areas + parts ∧
        Cut ↑(free.map fun v => ({ mm.vma v with vmMm := none } : Vma)) parts effects
  | [], mm, h, hc, _, _ => by
    refine ⟨[], mm, rfl, h, hc, fun b fl => ⟨Or.inl, fun hor => hor.resolve_right ?_⟩, fun b hb => ?_,
      bounded_nil, 0, (Multiset.add_zero _).symm, .refl _⟩
    · rintro ⟨v, hv, -⟩
      cases hv
    · exact absurd hb unmaps_nil
  | v :: vs, mm, h, hc, hout, hpw => by
    obtain ⟨hv, hvs⟩ := List.pairwise_cons.mp hpw
    obtain ⟨effects, mm₁, hrel, hpost, htrim, hbound, parts, hareas, hcut⟩ :=
      h.release_spec hc hs he (hout v (by simp))
    have hsame : ∀ w ∈ vs, mm₁.vma w = mm.vma w := fun w hw =>
      vma_congr (hpost.other w (Ne.symm (hv w hw).1))
    have hout₁ : ∀ w ∈ vs, TakenOut mm₁ start stop w := by
      intro w hw
      have hwv := Ne.symm (hv w hw).1
      have ho := hout w (by simp [hw])
      refine ⟨by rw [hpost.other w hwv, hsame w hw]; exact ho.live, ?_, ?_, ?_, ?_, ?_, ?_⟩
      · rw [hsame w hw]; exact ho.ok
      · rw [hsame w hw]; exact ho.below
      · rw [hsame w hw]; exact ho.above
      · rw [hsame w hw]; exact ho.whole
      · intro hmem
        rcases hpost.list w hmem with hmem | ⟨heq, -, -⟩
        · exact ho.out hmem
        · exact hwv heq
      · intro u hu
        rw [hsame w hw]
        by_cases huv : u = v
        · -- what is left of `v` lies inside the old `v`
          rcases hpost.list u hu with hmem | ⟨-, hlo, hhi⟩
          · exact absurd (huv ▸ hmem) (hout v (by simp)).out
          · subst huv
            rcases (hv w hw).2 with hle | hle
            · exact Or.inl (Nat.le_trans hhi hle)
            · exact Or.inr (Nat.le_trans hle hlo)
        · rcases hpost.list u hu with hmem | ⟨heq, -, -⟩
          · rw [vma_congr (hpost.other u huv)]
            exact ho.apart u hmem
          · exact absurd heq huv
    have hpw₁ : vs.Pairwise (fun v w => v ≠ w ∧ (mm₁.vma v).Apart (mm₁.vma w)) := by
      refine List.Pairwise.imp_of_mem (fun {u w} hu hw huw => ?_) hvs
      rw [hsame u hu, hsame w hw]
      exact huw
    obtain ⟨rest, mm', hrun, hinv, hclear, hcov, hwithin, hbound', others, hareas', hcut'⟩ :=
      releaseAll_spec hs he vs mm₁ hpost.inv hpost.clear hout₁ hpw₁
    -- what is unmapped of one area is in no other
    have hdisj : ∀ b, (mm.vma v).Has b → ∀ w ∈ vs, ¬ (mm.vma w).Has b := by
      intro b hb w hw hb'
      have hap := (hv w hw).2
      unfold Vma.Apart at hap
      unfold Vma.Has at hb hb'
      omega
    refine ⟨effects ++ rest, mm', ?_, hinv, hclear, fun b fl => ?_, fun b hb => ?_,
      hbound.append hbound', parts + others, ?_, ?_⟩
    · unfold releaseAll
      rw [hrel]
      simp only [Option.bind_eq_bind, Option.bind_some, hrun]
      rfl
    · rw [hcov, htrim.covers, unmaps_append]
      constructor
      · rintro ((hold | ⟨hb, hfl, hno⟩) | ⟨w, hw, hb, hfl, hno⟩)
        · exact Or.inl hold
        · refine Or.inr ⟨v, by simp, hb, hfl, fun hor => hor.elim hno fun hrest => ?_⟩
          obtain ⟨w, hw, hbw⟩ := hwithin b hrest
          rw [hsame w hw] at hbw
          exact hdisj b hb w hw hbw
        · rw [hsame w hw] at hb hfl
          refine Or.inr ⟨w, by simp [hw], hb, hfl, fun hor => hor.elim (fun he => ?_) hno⟩
          exact hdisj b (htrim.within b he) w hw hb
      · rintro (hold | ⟨w, hw, hb, hfl, hno⟩)
        · exact Or.inl (Or.inl hold)
        · rw [not_or] at hno
          rcases List.mem_cons.mp hw with rfl | hw
          · exact Or.inl (Or.inr ⟨hb, hfl, hno.1⟩)
          · exact Or.inr ⟨w, hw, by rw [hsame w hw]; exact hb, by rw [hsame w hw]; exact hfl, hno.2⟩
    · rcases unmaps_append.mp hb with hb | hb
      · exact ⟨v, by simp, htrim.within b hb⟩
      · obtain ⟨w, hw, hbw⟩ := hwithin b hb
        rw [hsame w hw] at hbw
        exact ⟨w, by simp [hw], hbw⟩
    · rw [hareas', hareas, Multiset.add_assoc]
    · have hmap : (vs.map fun w => ({ mm₁.vma w with vmMm := none } : Vma)) =
          vs.map fun w => ({ mm.vma w with vmMm := none } : Vma) :=
        List.map_congr_left fun w hw => by rw [hsame w hw]
      rw [hmap] at hcut'
      rw [List.map_cons, ← Multiset.cons_coe, ← Multiset.singleton_add]
      exact hcut.add hcut'

/-- The range meets the found VMA: it is split, or the VMAs are taken out and put back. -/
theorem Inv.unmapVma_spec (h : Inv mm) (hs : PGSIZE ∣ start) (he : PGSIZE ∣ stop)
    (hss : start < stop) (hfirst : mm.firstAbove start mm.mmapList = some v)
    (hmeets : (mm.vma v).vmStart < stop) (a : Option ℕ) :
    ∃ ret effects mm', mm.unmapVma start stop a mem v = some (ret, effects, mm') ∧ Inv mm' ∧
      (ret = 0 → mm'.Clear start stop) ∧
      (∀ b fl, mm'.Covers b fl ↔ mm.Covers b fl ∧ ¬ Unmaps effects b) ∧
      ((∀ x ∈ mm.areas, x.Shared → ¬ (x.vmStart < start ∧ stop < x.vmEnd)) →
        Cut mm.areas mm'.areas effects) ∧ Bounded start stop effects ∧
      (ret ≠ 0 → effects = [] ∧ mm'.areas = mm.areas) := by
  obtain ⟨habove, A, R, hl, hA⟩ := firstAbove_some hfirst
  have hv : v ∈ mm.mmapList := by rw [hl]; simp
  unfold unmapVma
  rw [(h.member v hv).live]
  simp only [Option.bind_eq_bind, Option.bind_some]
  split
  · rename_i hin
    obtain ⟨ret, effects, mm', hrun, hinv, hclear, hcov, hcut, hbound, herr⟩ :=
      h.unmapSplit_spec hv hs he hss hin a
    refine ⟨ret, effects, mm', hrun, hinv, hclear, hcov, fun hwhole => hcut fun hshared => ?_,
      hbound, herr⟩
    exact hwhole _ (mem_areas.mpr ⟨v, hv, rfl⟩) hshared hin
  · rename_i hsplitless
    obtain ⟨M, R', mm₁, hsplit, hrun, hinv, hvmas, hl₁, hM, hR'⟩ :=
      collect_spec stop (mm.mmapList.length + 1) R A [] v mm h hl (by
        rw [hl]
        simp only [List.length_append, List.length_cons]
        omega)
    rw [hrun, List.append_nil, Option.bind_some]
    have hvma : ∀ u, mm₁.vma u = mm.vma u := fun u => vma_congr (congrFun hvmas u)
    have hl' : mm.mmapList = A ++ (M ++ R') := by rw [hl, hsplit]
    have hMl : ∀ u ∈ M, u ∈ mm.mmapList := fun u hu => by rw [hl']; simp [hu]
    have hl₁sub : ∀ u ∈ mm₁.mmapList, u ∈ mm.mmapList := by
      intro u hu
      rw [hl₁] at hu
      rw [hl']
      simp only [List.mem_append] at hu ⊢
      tauto
    have hnd := h.nodup
    rw [hl'] at hnd
    have hndA := List.nodup_append.mp hnd
    have hndM := List.nodup_append.mp hndA.2.1
    -- `v` and all VMAs behind it end behind `start`
    have hend : ∀ u ∈ v :: R, start < (mm.vma u).vmEnd := by
      intro u hu
      rcases List.mem_cons.mp hu with rfl | hu
      · exact habove
      · have h1 := h.behind hl hu
        have h2 := (h.ok (v := u) (by rw [hl]; simp [hu])).nonempty
        omega
    -- only `v` may begin before `start`, and `v` is not to be split
    have hwhole : ∀ u ∈ v :: R, start ≤ (mm.vma u).vmStart ∨ (mm.vma u).vmEnd ≤ stop := by
      intro u hu
      rcases List.mem_cons.mp hu with rfl | hu
      · omega
      · have hnext := h.behind hl hu
        exact Or.inl (by omega)
    have hout : ∀ u ∈ M, u ∉ mm₁.mmapList := by
      intro u hu hmem
      rw [hl₁] at hmem
      rcases List.mem_append.mp hmem with hmem | hmem
      · exact hndA.2.2 u hmem u (by simp [hu]) rfl
      · exact hndM.2.2 u hu u hmem rfl
    have hclear : mm₁.Clear start stop := by
      intro u hu
      rw [hvma u]
      rw [hl₁] at hu
      rcases List.mem_append.mp hu with hu | hu
      · exact Or.inl (hA u hu)
      · exact Or.inr (hR' u hu)
    have htaken : ∀ u ∈ M.reverse, TakenOut mm₁ start stop u := by
      intro u hu
      have hu := List.mem_reverse.mp hu
      refine ⟨?_, ?_, ?_, ?_, ?_, hout u hu, ?_⟩
      · rw [hvmas, hvma]; exact (h.member u (hMl u hu)).live
      · rw [hvma]; exact h.ok (hMl u hu)
      · rw [hvma]; exact hM u hu
      · rw [hvma]; exact hend u (by rw [hsplit]; simp [hu])
      · rw [hvma]; exact hwhole u (by rw [hsplit]; simp [hu])
      · intro w hw
        rw [hvma, hvma]
        exact h.apart (hl₁sub w hw) (hMl u hu) fun heq => hout u hu (heq ▸ hw)
    have hpw : M.reverse.Pairwise (fun v w => v ≠ w ∧ (mm₁.vma v).Apart (mm₁.vma w)) := by
      refine List.Pairwise.imp_of_mem (fun {u w} hu hw hne => ⟨hne, ?_⟩)
        (List.nodup_reverse.mpr hndM.1)
      rw [hvma, hvma]
      exact h.apart (hMl u (List.mem_reverse.mp hu)) (hMl w (List.mem_reverse.mp hw)) hne
    obtain ⟨effects, mm', hrel, hinv', hclear', hcov, hwithin, hbound, parts, hareas, hcut⟩ :=
      releaseAll_spec hs he M.reverse mm₁ hinv hclear htaken hpw
    have hold : mm.areas = mm₁.areas + ↑(M.reverse.map fun v => ({ mm₁.vma v with vmMm := none } : Vma)) := by
      unfold Mm.areas
      simp only [hvma]
      rw [hl', hl₁, Multiset.coe_add, ← List.map_append]
      refine Multiset.coe_eq_coe.mpr (List.Perm.map _ ?_)
      rw [List.append_assoc]
      exact List.Perm.append_left A (List.perm_append_comm.trans
        (List.Perm.append_left R' M.reverse_perm.symm))
    rw [hrel]
    refine ⟨0, effects, mm', rfl, hinv', fun _ => hclear', fun b fl => ?_, fun _ => ?_,
      hbound, fun hne => absurd rfl hne⟩
    rotate_left
    · rw [hold, hareas]
      exact (Cut.refl _).add hcut
    rw [hcov]
    constructor
    · rintro (⟨u, hu, hb, hfl⟩ | ⟨u, hu, hb, hfl, hno⟩)
      · rw [hvma] at hb hfl
        refine ⟨⟨u, hl₁sub u hu, hb, hfl⟩, fun hun => ?_⟩
        obtain ⟨w, hw, hbw⟩ := hwithin b hun
        have hw := List.mem_reverse.mp hw
        rw [hvma] at hbw
        have hap := h.apart (hl₁sub u hu) (hMl w hw) fun heq => hout w hw (heq ▸ hu)
        unfold Vma.Apart at hap
        unfold Vma.Has at hb hbw
        omega
      · rw [hvma] at hb hfl
        exact ⟨⟨u, hMl u (List.mem_reverse.mp hu), hb, hfl⟩, hno⟩
    · rintro ⟨⟨u, hu, hb, hfl⟩, hno⟩
      rw [hl'] at hu
      simp only [List.mem_append] at hu
      by_cases hM' : u ∈ M
      · exact Or.inr ⟨u, List.mem_reverse.mpr hM', by rw [hvma]; exact hb, by rw [hvma]; exact hfl, hno⟩
      · refine Or.inl ⟨u, ?_, by rw [hvma]; exact hb, by rw [hvma]; exact hfl⟩
        rw [hl₁, List.mem_append]
        tauto

/-- **`mm_unmap`** returns and keeps the invariant; when it returns `0` no VMA meets the range. -/
theorem Inv.mmUnmap_spec (h : Inv mm) (addr len : ℕ) (a : Option ℕ)
    (mem : ℕ → Option (RbTree ℕ)) :
    ∃ ret effects mm', mm.mmUnmap addr len a mem = some (ret, effects, mm') ∧ Inv mm' ∧
      (ret = 0 → mm'.Clear (rounddown addr) (roundup (wadd addr len))) ∧
      (∀ b fl, mm'.Covers b fl ↔ mm.Covers b fl ∧ ¬ Unmaps effects b) ∧
      ((USER_ACCESS (rounddown addr) (roundup (wadd addr len)) → ∀ x ∈ mm.areas, x.Shared →
        ¬ (x.vmStart < rounddown addr ∧ roundup (wadd addr len) < x.vmEnd)) →
          Cut mm.areas mm'.areas effects) ∧
      Bounded (rounddown addr) (roundup (wadd addr len)) effects ∧
      (ret ≠ 0 → effects = [] ∧ mm'.areas = mm.areas) := by
  have hnone : ∀ b fl, mm.Covers b fl ↔ mm.Covers b fl ∧ ¬ Unmaps [] b := fun b fl =>
    ⟨fun hc => ⟨hc, unmaps_nil⟩, fun hc => hc.1⟩
  simp only [mmUnmap]
  split
  · exact ⟨_, _, mm, rfl, h, nofun, hnone, fun _ => .refl _, bounded_nil, fun _ => ⟨rfl, rfl⟩⟩
  rename_i hacc
  have hacc := not_not.mp hacc
  have ht := h.touched (rounddown addr)
  obtain ⟨meets, hmeets, hiff⟩ := h.findVma_meets (rounddown addr) (roundup (wadd addr len))
  rw [h.findVma_spec]
  simp only [Option.bind_eq_bind, Option.bind_some, hmeets]
  have hfirst : (mm.touched (rounddown addr)).firstAbove (rounddown addr)
      (mm.touched (rounddown addr)).mmapList = mm.firstAbove (rounddown addr) mm.mmapList := by
    unfold firstAbove
    rw [touched_mmapList, touched_vma]
  have hclear : meets = false →
      (mm.touched (rounddown addr)).Clear (rounddown addr) (roundup (wadd addr len)) := by
    intro hm
    refine ht.gap_of_first fun v hv => ?_
    rw [hfirst] at hv
    rw [touched_vma]
    by_contra hlt
    have := hiff.mpr ⟨v, hv, by omega⟩
    rw [hm] at this
    cases this
  cases hm : meets with
  | false =>
    refine ⟨0, [], mm.touched (rounddown addr), ?_, ht, fun _ => hclear hm, fun b fl => ?_,
      fun _ => ?_, bounded_nil, fun hne => absurd rfl hne⟩
    · cases mm.firstAbove (rounddown addr) mm.mmapList <;> rfl
    · rw [touched_covers]
      exact hnone b fl
    · rw [touched_areas]
      exact .refl _
  | true =>
    obtain ⟨v, hv, hlt⟩ := hiff.mp hm
    rw [hv]
    obtain ⟨ret, effects, mm', hrun, hinv, hclear', hcov, hcut, hbound, herr⟩ := ht.unmapVma_spec
      (rounddown_aligned _) (roundup_aligned _) hacc.2.1 (hfirst.trans hv)
      (by rw [touched_vma]; exact hlt) a
    rw [touched_areas] at hcut herr
    refine ⟨ret, effects, mm', hrun, hinv, hclear', fun b fl => ?_,
      fun hwhole => hcut (hwhole hacc), hbound, herr⟩
    rw [hcov, touched_covers]

end Unmap

/-! ## `mm_brk` -/

/-- A VMA that ends where a clear range begins takes in the range. -/
theorem Inv.grows_extend (h : Inv mm) (hc : mm.Clear start stop) (hss : start < stop)
    (hv : v ∈ mm.mmapList) (hend : (mm.vma v).vmEnd = start) :
    Grows mm ((mm.touched (start - 1)).setVma v { mm.vma v with vmEnd := stop }) := by
  have hne := (h.ok hv).nonempty
  have hvma : ∀ u, ((mm.touched (start - 1)).setVma v { mm.vma v with vmEnd := stop }).vma u =
      if u = v then { mm.vma v with vmEnd := stop } else mm.vma u := by
    intro u
    rw [setVma_vma, touched_vma]
  have hlist : ((mm.touched (start - 1)).setVma v { mm.vma v with vmEnd := stop }).mmapList =
      mm.mmapList := touched_mmapList
  refine ⟨fun b fl hcov => ?_, fun b fl hcov => ?_⟩
  · obtain ⟨u, hu, hb, hfl⟩ := hcov
    refine ⟨u, hlist ▸ hu, ?_⟩
    rw [hvma]
    by_cases huv : u = v
    · subst huv
      rw [if_pos rfl]
      refine ⟨⟨hb.1, ?_⟩, hfl⟩
      unfold Vma.Has at hb
      show b < stop
      omega
    · rw [if_neg huv]
      exact ⟨hb, hfl⟩
  · obtain ⟨u, hu, hb, hfl⟩ := hcov
    rw [hlist] at hu
    rw [hvma] at hb hfl
    by_cases huv : u = v
    · subst huv
      rw [if_pos rfl] at hb hfl
      have hb : (mm.vma u).vmStart ≤ b ∧ b < stop := hb
      by_cases hold : b < start
      · exact Or.inl ⟨u, hu, ⟨hb.1, by omega⟩, hfl⟩
      · refine Or.inr fun fl' hcov' => ?_
        obtain ⟨w, hw, hbw, -⟩ := hcov'
        have hcw := hc w hw
        unfold Vma.Has at hbw
        omega
    · rw [if_neg huv] at hb hfl
      exact Or.inl ⟨u, hu, hb, hfl⟩

/-- The end of `mm_brk`, once the range is clear. -/
theorem Inv.brkExtend_spec (h : Inv mm) (hc : mm.Clear start stop) (hacc : USER_ACCESS start stop)
    (hs : PGSIZE ∣ start) (he : PGSIZE ∣ stop) (a : Option ℕ) (mem : ℕ → Option (RbTree ℕ)) :
    ∃ ret mm', mm.brkExtend start stop a mem = some (ret, mm') ∧ Inv mm' ∧ Grows mm mm' := by
  have ht := h.touched (start - 1)
  have hcreate : ∃ ret mm', (mm.touched (start - 1)).brkCreate start stop a mem =
      some (ret, mm') ∧ Inv mm' ∧ Grows mm mm' := by
    obtain ⟨vma, mm', hrun, hinv, hgrows, -⟩ := ht.createInsert_spec hacc hs he
      (by rw [touched_mmapList, touched_vma]; exact hc) (VM_READ ||| VM_WRITE) a mem
    refine ⟨if vma = none then -E_NO_MEM else 0, mm', ?_, hinv, hgrows.of_touched⟩
    unfold brkCreate
    rw [hrun]
    rfl
  unfold brkExtend
  rw [h.findVma_spec]
  simp only [Option.bind_eq_bind, Option.bind_some]
  cases hfirst : mm.firstAbove (start - 1) mm.mmapList with
  | none => exact hcreate
  | some v =>
    have hv : v ∈ mm.mmapList := List.mem_of_find?_eq_some hfirst
    have hm := h.member v hv
    simp only [touched_vmas, hm.live, Option.bind_some]
    split
    · rename_i hgrow
      obtain ⟨hstart, -⟩ := hgrow
      have hss := hacc.2.1
      have hne := hm.ok.nonempty
      refine ⟨0, _, rfl, ht.setVma_mem (by rw [touched_mmapList]; exact hv)
        ⟨hm.ok.base, ?_, hacc.2.2, hm.ok.startAligned, he⟩ ?_ ?_ ?_, h.grows_extend hc hss hv hstart⟩
      · show (mm.vma v).vmStart < stop
        omega
      · unfold Mm.touched
        split <;> exact hm.owner
      · rw [touched_vma]
        exact fun _ _ hle => hle
      · -- the next VMA starts at or behind `start`, so it starts behind the range
        rw [touched_vma, touched_mmapList]
        intro u hu hle
        have hnu := (h.ok hu).nonempty
        rcases hc u hu with hlow | hhigh
        · omega
        · exact hhigh
    · exact hcreate

/-- **`mm_brk`** returns and keeps the invariant. -/
theorem Inv.mmBrk_spec (h : Inv mm) (addr len : ℕ) (a b : Option ℕ)
    (mem : ℕ → Option (RbTree ℕ)) :
    ∃ ret effects mm', mm.mmBrk addr len a b mem = some (ret, effects, mm') ∧ Inv mm' ∧
      ∃ mm₁, (∀ c fl, mm₁.Covers c fl ↔ mm.Covers c fl ∧ ¬ Unmaps effects c) ∧ Grows mm₁ mm' := by
  simp only [mmBrk]
  split
  · exact ⟨_, _, mm, rfl, h, mm, fun c fl => ⟨fun hc => ⟨hc, unmaps_nil⟩, fun hc => hc.1⟩,
      .refl mm⟩
  rename_i hacc
  have hacc := not_not.mp hacc
  have hs := rounddown_aligned addr
  have he := roundup_aligned (wadd addr len)
  set start := rounddown addr
  set stop := roundup (wadd addr len)
  obtain ⟨ret, effects, mm₁, hunmap, hinv, hclear, hcov, -⟩ :=
    h.mmUnmap_spec start (stop - start) a mem
  -- the rounded range is what `mm_unmap` rounds again
  have hstop : roundup (wadd start (stop - start)) = stop := by
    have hsum : wadd start (stop - start) = stop := by
      unfold wadd
      obtain ⟨-, hlt, htop⟩ := hacc
      unfold USERTOP at htop
      omega
    rw [hsum, roundup_of_aligned he hacc.2.2]
  rw [rounddown_of_aligned hs, hstop] at hclear
  rw [hunmap]
  simp only [Option.bind_eq_bind, Option.bind_some]
  split
  · exact ⟨_, _, mm₁, rfl, hinv, mm₁, hcov, .refl mm₁⟩
  · rename_i hret
    obtain ⟨ret', mm', hext, hinv', hgrows⟩ :=
      hinv.brkExtend_spec (hclear (not_not.mp hret)) hacc hs he b mem
    rw [hext]
    exact ⟨ret', effects, mm', rfl, hinv', mm₁, hcov, hgrows⟩

/-! ## Runs -/

/-- A call, with the outcome of the allocations it may make. -/
inductive Op where
  | map (addr len vmFlags : UInt32) (a : Option ℕ) (mem : ℕ → Option (RbTree ℕ))
  | unmap (addr len : UInt32) (a : Option ℕ) (mem : ℕ → Option (RbTree ℕ))
  | brk (addr len : UInt32) (a b : Option ℕ) (mem : ℕ → Option (RbTree ℕ))
  | find (addr : UInt32)

/-- One call; `none` if an assertion fails. -/
def step (mm : Mm) : Op → Option Mm
  | .map addr len vmFlags a mem =>
    (mm.mmMap addr.toNat len.toNat vmFlags a mem).map fun r => r.2.2
  | .unmap addr len a mem => (mm.mmUnmap addr.toNat len.toNat a mem).map fun r => r.2.2
  | .brk addr len a b mem => (mm.mmBrk addr.toNat len.toNat a b mem).map fun r => r.2.2
  | .find addr => (mm.findVma addr.toNat).map fun r => r.2

/-- A sequence of calls. -/
def run (mm : Mm) (ops : List Op) : Option Mm := ops.foldlM step mm

theorem Inv.step_spec (h : Inv mm) (op : Op) : ∃ mm', mm.step op = some mm' ∧ Inv mm' := by
  cases op with
  | map addr len flags a mem =>
    obtain ⟨ret, vma, mm', hrun, hinv, -⟩ := h.mmMap_spec addr.toNat len.toNat flags a mem
    exact ⟨mm', by rw [step, hrun]; rfl, hinv⟩
  | unmap addr len a mem =>
    obtain ⟨ret, effects, mm', hrun, hinv, -⟩ := h.mmUnmap_spec addr.toNat len.toNat a mem
    exact ⟨mm', by rw [step, hrun]; rfl, hinv⟩
  | brk addr len a b mem =>
    obtain ⟨ret, effects, mm', hrun, hinv, -⟩ := h.mmBrk_spec addr.toNat len.toNat a b mem
    exact ⟨mm', by rw [step, hrun]; rfl, hinv⟩
  | find addr => exact ⟨_, by rw [step, h.findVma_spec]; rfl, h.touched addr.toNat⟩

theorem Inv.run_spec : ∀ (ops : List Op) {mm : Mm}, Inv mm →
    ∃ mm', mm.run ops = some mm' ∧ Inv mm'
  | [], mm, h => ⟨mm, rfl, h⟩
  | op :: ops, mm, h => by
    obtain ⟨mm₁, hstep, hinv⟩ := h.step_spec op
    obtain ⟨mm', hrun, hinv'⟩ := Inv.run_spec ops hinv
    refine ⟨mm', ?_, hinv'⟩
    unfold run
    rw [List.foldlM_cons, hstep]
    exact hrun

theorem mmCreate_inv (self : ℕ) (vmas : ℕ → Option Vma) : Inv (mmCreate self vmas) :=
  ⟨nofun, List.Pairwise.nil, rfl, nofun, nofun⟩

/-- The VMA set is consistent: list, count, tree and cache. -/
structure Consistent (mm : Mm) : Prop where
  increasing : mm.mmapList.Pairwise fun u v => (mm.vma u).vmStart < (mm.vma v).vmStart
  live : ∀ v ∈ mm.mmapList, mm.vmas v = some (mm.vma v)
  nonempty : ∀ v ∈ mm.mmapList, (mm.vma v).vmStart < (mm.vma v).vmEnd
  aligned : ∀ v ∈ mm.mmapList, PGSIZE ∣ (mm.vma v).vmStart ∧ PGSIZE ∣ (mm.vma v).vmEnd
  disjoint : mm.mmapList.Pairwise fun u v =>
    Disjoint (Set.Ico (mm.vma u).vmStart (mm.vma u).vmEnd)
      (Set.Ico (mm.vma v).vmStart (mm.vma v).vmEnd)
  user : ∀ v ∈ mm.mmapList, USERBASE ≤ (mm.vma v).vmStart ∧ (mm.vma v).vmEnd ≤ USERTOP
  count : mm.mapCount = mm.mmapList.length
  tree : ∀ t, mm.mmapTree = some t → t.IsRb mm.mmapList
  cache : ∀ v, mm.mmapCache = some v → v ∈ mm.mmapList

theorem Inv.consistent (h : Inv mm) : Consistent mm where
  increasing := List.Pairwise.imp_of_mem (fun {u v} hu _ huv => by
    have := (h.ok hu).nonempty
    omega) h.ordered
  live := fun v hv => (h.member v hv).live
  nonempty := fun v hv => (h.ok hv).nonempty
  aligned := fun v hv => ⟨(h.ok hv).startAligned, (h.ok hv).endAligned⟩
  disjoint := h.ordered.imp fun {u v} huv => by
    refine Set.disjoint_left.mpr fun p hu hv => ?_
    rw [Set.mem_Ico] at hu hv
    omega
  user := fun v hv => ⟨(h.ok hv).base, (h.ok hv).top⟩
  count := h.count
  tree := h.tree
  cache := h.cache

/-- **The VMA set invariant.** Whatever calls are made from `mm_create`, with whatever arguments
and allocation failures, no assertion fails and list, tree, cache and count agree. -/
theorem vma_set_invariant (self : ℕ) (vmas : ℕ → Option Vma) (ops : List Op) :
    ∃ mm, (mmCreate self vmas).run ops = some mm ∧ mm.Consistent := by
  obtain ⟨mm, hrun, hinv⟩ := Inv.run_spec ops (mmCreate_inv self vmas)
  exact ⟨mm, hrun, hinv.consistent⟩

end Mm

end Ucore
