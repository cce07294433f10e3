import Ucore.Mm.ShmemRun
import Ucore.Mm.SwapRun
import Ucore.Mm.UserMem

/-!
# The page map of an address space

An address space without shared memory is a partial map from user pages to the flags of their VMA,
with a page table that is empty outside the map (`PageSpace`).  `mm_map` adds a range of pages to the
map and `mm_unmap` takes one away, with its entries (`mm_page_map`); a call that fails changes
nothing.
-/

namespace Ucore

namespace Sys

variable {s s' : Sys} {mm start stop o : ℕ} {x : Loc}

/-! ## What unmapping does to the entries, whatever the counts are -/

theorem swapListDel_tables {f : ℕ} (hrun : s.swapListDel f = some s') :
    s'.pte = s.pte ∧ s'.pde = s.pde := by
  unfold swapListDel at hrun
  split at hrun
  · cases hrun
    exact ⟨rfl, rfl⟩
  · cases hrun

theorem swapFreePage_tables {f : ℕ} (hrun : s.swapFreePage f = some s') :
    s'.pte = s.pte ∧ s'.pde = s.pde := by
  unfold swapFreePage at hrun
  split at hrun
  · rename_i hcond
    simp only [swapPageDel, hcond.1, if_true, Option.map_some, Option.some.injEq] at hrun
    subst hrun
    exact ⟨rfl, rfl⟩
  · cases hrun

theorem swapRemoveLast_tables (hrun : s.swapRemoveLast o = some s') :
    s'.pte = s.pte ∧ s'.pde = s.pde := by
  unfold swapRemoveLast at hrun
  split at hrun
  · cases hrun
    exact ⟨rfl, rfl⟩
  · split at hrun
    · cases hrun
      exact ⟨rfl, rfl⟩
    · obtain ⟨s₁, hdel, hrest⟩ := Option.bind_eq_some_iff.mp hrun
      obtain ⟨s₂, hfree, hrest⟩ := Option.bind_eq_some_iff.mp hrest
      cases hrest
      have hdel := swapListDel_tables hdel
      have hfree := swapFreePage_tables hfree
      exact ⟨hfree.1.trans hdel.1, hfree.2.trans hdel.2⟩

theorem swapRemoveEntry_tables (hrun : s.swapRemoveEntry o = some s') :
    s'.pte = s.pte ∧ s'.pde = s.pde := by
  unfold swapRemoveEntry at hrun
  obtain ⟨p, -, hrest⟩ := Option.bind_eq_some_iff.mp hrun
  obtain ⟨-, -, hrest⟩ := Option.bind_eq_some_iff.mp hrest
  dsimp only at hrest
  split at hrest
  · exact swapRemoveLast_tables (s := s.setMemMap p (s.memMap p - 1)) hrest
  · cases hrest
    exact ⟨rfl, rfl⟩

/-- `page_remove_pte` clears its entry and no other. -/
theorem pageRemovePte_tables (hrun : s.pageRemovePte x = some s') :
    s'.pte = Function.update s.pte x .zero ∧ s'.pde = s.pde := by
  unfold pageRemovePte at hrun
  cases hx : s.pte x with
  | zero =>
    rw [hx] at hrun
    cases hrun
    exact ⟨by rw [← hx, Function.update_eq_self], rfl⟩
  | page f perm =>
    rw [hx] at hrun
    dsimp only at hrun
    split at hrun
    · cases hrun
      split <;> exact ⟨rfl, rfl⟩
    · cases hrun
      split <;> exact ⟨rfl, rfl⟩
  | swap o =>
    rw [hx] at hrun
    obtain ⟨s₁, hrem, rfl⟩ := Option.map_eq_some_iff.mp hrun
    obtain ⟨hpte, hpde⟩ := swapRemoveEntry_tables hrem
    exact ⟨by show Function.update s₁.pte x .zero = _; rw [hpte], hpde⟩

/-- The entries of the address space are in its page tables. -/
def Tabled (s : Sys) (mm : ℕ) : Prop :=
  ∀ vpn, s.pte (.user mm vpn) ≠ .zero → s.pde mm (vpn / 1024) ≠ none

/-- The entries of the range are cleared, and nothing else is. -/
structure Clears (s s' : Sys) (mm start stop : ℕ) : Prop where
  pde : s'.pde = s.pde
  inside : ∀ vpn, InPages start stop vpn → s'.pte (.user mm vpn) = .zero
  outside : ∀ x, ¬ InSpan mm start stop x → s'.pte x = s.pte x

theorem Clears.zero (h : Clears s s' mm start stop) {vpn : ℕ} (hz : s.pte (.user mm vpn) = .zero) :
    s'.pte (.user mm vpn) = .zero := by
  by_cases hin : InPages start stop vpn
  · exact h.inside vpn hin
  · rw [h.outside _ (by rintro ⟨_, ⟨⟩, hv⟩; exact hin hv)]
    exact hz

theorem Clears.tabled (h : Clears s s' mm start stop) (ht : s.Tabled mm) : s'.Tabled mm := by
  intro vpn hne hnone
  rw [h.pde] at hnone
  exact ht vpn (fun hz => hne (h.zero hz)) hnone

theorem unmapLoop_clears (stop start : ℕ) (s : Sys) {s' : Sys} (ht : s.Tabled mm)
    (hal : PGSIZE ∣ start) (hlt : start < stop) (hrun : unmapLoop mm stop start s = some s') :
    Clears s s' mm start stop := by
  have hzero : ∀ {s : Sys} {vpn : ℕ}, s.Tabled mm → s.pde mm (vpn / 1024) = none →
      s.pte (.user mm vpn) = .zero := fun ht hpde => by_contra fun hne => ht _ hne hpde
  fun_induction unmapLoop mm stop start s with
  | case1 start s hpde hgo ih =>
    have hc := ih ht (nextTable_aligned start) hgo.2 hrun
    refine ⟨hc.pde, fun vpn hvpn => ?_, fun x hx => hc.outside x ?_⟩
    · by_cases hnext : InPages (nextTable start) stop vpn
      · exact hc.inside vpn hnext
      · exact hc.zero (hzero ht (by rw [hvpn.nextTable_or.resolve_left hnext, hpde]))
    · rintro ⟨vpn, rfl, hvpn⟩
      exact hx ⟨vpn, rfl, hvpn.of_nextTable⟩
  | case2 start s hpde hstop =>
    cases hrun
    refine ⟨rfl, fun vpn hvpn => hzero ht ?_, fun _ _ => rfl⟩
    rw [hvpn.nextTable_or.resolve_left fun hnext => hstop hnext.nextTable_go, hpde]
  | case3 start s f hpde ih =>
    obtain ⟨s₁, hrem, hrest⟩ := Option.bind_eq_some_iff.mp hrun
    obtain ⟨hpte, hpde₁⟩ := pageRemovePte_tables hrem
    have hother : ∀ y, y ≠ ptep mm start → s₁.pte y = s.pte y := fun y hy => by
      rw [hpte, Function.update_of_ne hy]
    have hhere : s₁.pte (.user mm (start / PGSIZE)) = .zero := by
      rw [hpte]
      exact Function.update_self ..
    have ht₁ : s₁.Tabled mm := by
      intro vpn hne
      rw [hpde₁]
      refine ht vpn fun hz => hne ?_
      by_cases heq : Loc.user mm vpn = ptep mm start
      · rw [heq]
        exact hhere
      · rw [hother _ heq, hz]
    have hout : ∀ y, ¬ InSpan mm start stop y → s₁.pte y = s.pte y := fun y hy =>
      hother y fun heq => hy ⟨_, heq, inPages_start hal hlt⟩
    split at hrest
    · rename_i hgo
      have hc := ih s₁ hgo ht₁ (add_aligned hal) hgo.2 hrest
      refine ⟨hc.pde.trans hpde₁, fun vpn hvpn => ?_, fun x hx => ?_⟩
      · by_cases hnext : InPages (start + PGSIZE) stop vpn
        · exact hc.inside vpn hnext
        · refine hc.zero ?_
          rw [hvpn.eq_or.resolve_right hnext]
          exact hhere
      · rw [hc.outside x, hout x hx]
        rintro ⟨vpn, rfl, hvpn⟩
        exact hx ⟨vpn, rfl, hvpn.of_add⟩
    · rename_i hstop
      cases hrest
      refine ⟨hpde₁, fun vpn hvpn => ?_, hout⟩
      rw [hvpn.eq_or.resolve_right fun hnext => hstop (hnext.add_go hal)]
      exact hhere

theorem unmapRange_clears (ht : s.Tabled mm) (hrun : s.unmapRange mm start stop = some s') :
    Clears s s' mm start stop := by
  unfold unmapRange at hrun
  obtain ⟨_, hal, hrest⟩ := Option.bind_eq_some_iff.mp hrun
  obtain ⟨_, hacc, hloop⟩ := Option.bind_eq_some_iff.mp hrest
  exact unmapLoop_clears stop start s ht (Nat.dvd_of_mod_eq_zero (of_guard hal).1)
    (of_guard hacc).2.1 hloop

/-! ## Unmapping returns -/

theorem swapRemoveLast_total (hc : s.CacheInv none) (o : ℕ) : ∃ s', s.swapRemoveLast o = some s' := by
  unfold swapRemoveLast
  cases hfind : s.swapHashFind o with
  | none => exact ⟨_, rfl⟩
  | some f =>
    have hswap := (hc.caches_of_find hfind).1
    dsimp only
    split
    · exact ⟨_, rfl⟩
    · rename_i hzero
      have hzero : s.pageRef f = 0 := not_not.mp hzero
      simp [swapListDel, swapFreePage, swapPageDel, hswap, hzero]

/-- `swap_remove_entry` of an entry with a holder: no assertion fails. -/
theorem SwapInv.swapRemoveEntry_total {R H : ℕ → ℕ} (h : s.SwapInv R H) (hheld : H o ≠ 0) :
    ∃ s', s.swapRemoveEntry o = some s' := by
  obtain ⟨hcount, -⟩ := h.counts.memMap_held hheld
  have hrange : 0 < o ∧ o < s.maxSwapOffset := h.counts.range o hheld
  have hpos : 0 < s.memMap o := by omega
  have hguard : guard (0 < s.memMap o) = some () := if_pos hpos
  unfold swapRemoveEntry swapOffset
  rw [if_pos hrange]
  simp only [Option.bind_eq_bind, Option.bind_some, hguard]
  split
  · have hc : (s.setMemMap o (s.memMap o - 1)).CacheInv none :=
      h.cache.congr rfl rfl rfl rfl rfl rfl rfl
    exact swapRemoveLast_total hc o
  · exact ⟨_, rfl⟩

theorem Paging.swapRemoveEntry_total (h : s.Paging) (hx : s.pte x = .swap o) :
    ∃ s', s.swapRemoveEntry o = some s' :=
  h.swap.swapRemoveEntry_total (holders_pos h.finite hx)

theorem Paging.pageRemovePte_total (h : s.Paging) (x : Loc) :
    ∃ s', s.pageRemovePte x = some s' := by
  unfold pageRemovePte
  cases hx : s.pte x with
  | zero => exact ⟨_, rfl⟩
  | page f perm =>
    dsimp only
    split <;> exact ⟨_, rfl⟩
  | swap o =>
    obtain ⟨s₁, hrem⟩ := h.swapRemoveEntry_total hx
    exact ⟨_, congrArg (Option.map fun s : Sys => s.setPte x .zero) hrem⟩

theorem unmapLoop_total (stop start : ℕ) (s : Sys) (h : s.Paging) :
    ∃ s', unmapLoop mm stop start s = some s' := by
  fun_induction unmapLoop mm stop start s with
  | case1 start s hpde hgo ih => exact ih h
  | case2 start s hpde hstop => exact ⟨s, rfl⟩
  | case3 start s f hpde ih =>
    obtain ⟨s₁, hrem⟩ := h.pageRemovePte_total (ptep mm start)
    simp only [hrem, Option.bind_eq_bind, Option.bind_some]
    split
    · rename_i hgo
      exact ih s₁ hgo (h.pageRemovePte_spec hrem).1.paging
    · exact ⟨s₁, rfl⟩

theorem Paging.unmapRange_total (h : s.Paging) (hs : PGSIZE ∣ start) (he : PGSIZE ∣ stop)
    (hacc : USER_ACCESS start stop) : ∃ s', s.unmapRange mm start stop = some s' := by
  have h1 : guard (start % PGSIZE = 0 ∧ stop % PGSIZE = 0) = some () :=
    if_pos ⟨Nat.mod_eq_zero_of_dvd hs, Nat.mod_eq_zero_of_dvd he⟩
  have h2 : guard (USER_ACCESS start stop) = some () := if_pos hacc
  unfold unmapRange
  simp only [Option.bind_eq_bind, Option.bind_some, h1, h2]
  exact unmapLoop_total stop start s h

/-! ## The calls of one `mm_unmap` -/

/-- A call of `mm_unmap` into the page table; a reference to shared memory is not given up here. -/
def unmapEffect (mm : ℕ) (s : Sys) : VmEffect → Option Sys
  | .unmapRange lo hi => s.unmapRange mm lo hi
  | .shmemRefDec _ => none

/-- The calls one after the other. -/
def unmapEffects (mm : ℕ) (s : Sys) (effects : List VmEffect) : Option Sys :=
  effects.foldlM (unmapEffect mm) s

theorem inPages_iff {vpn : ℕ} (hal : PGSIZE ∣ start) :
    InPages start stop vpn ↔ start ≤ vpn * PGSIZE ∧ vpn * PGSIZE < stop := by
  obtain ⟨k, rfl⟩ := hal
  unfold InPages PGSIZE
  omega

/-- The calls clear the entries of the pages they unmap, and no others. -/
theorem unmapEffects_clears : ∀ (effects : List VmEffect) (s : Sys) {s' : Sys}, s.Tabled mm →
    Mm.Bounded start stop effects → unmapEffects mm s effects = some s' →
    s'.Tabled mm ∧ (∀ vpn, Unmaps effects (vpn * PGSIZE) → s'.pte (.user mm vpn) = .zero) ∧
      (∀ x, (∀ vpn, x = .user mm vpn → ¬ Unmaps effects (vpn * PGSIZE)) → s'.pte x = s.pte x)
  | [], s, s', ht, _, hrun => by
    cases hrun
    exact ⟨ht, fun vpn hun => absurd hun Mm.unmaps_nil, fun _ _ => rfl⟩
  | effect :: rest, s, s', ht, hb, hrun => by
    unfold unmapEffects at hrun
    rw [List.foldlM_cons] at hrun
    obtain ⟨s₁, hfirst, hrest⟩ := Option.bind_eq_some_iff.mp hrun
    cases effect with
    | shmemRefDec o => cases hfirst
    | unmapRange lo hi =>
      have hal := (hb lo hi (by simp)).1
      have hc := unmapRange_clears ht hfirst
      obtain ⟨ht', hzero, hsame⟩ := unmapEffects_clears rest s₁ (hc.tabled ht)
        (fun lo hi hmem => hb lo hi (List.mem_cons_of_mem _ hmem)) hrest
      have hsplit : ∀ b, Unmaps (.unmapRange lo hi :: rest) b ↔ (lo ≤ b ∧ b < hi) ∨ Unmaps rest b :=
        fun b => by rw [← Mm.unmaps_singleton, ← Mm.unmaps_append]; rfl
      refine ⟨ht', fun vpn hun => ?_, fun x hx => ?_⟩
      · by_cases hlater : Unmaps rest (vpn * PGSIZE)
        · exact hzero vpn hlater
        · rw [hsame _ (by rintro _ ⟨⟩; exact hlater)]
          exact hc.inside vpn ((inPages_iff hal).mpr (((hsplit _).mp hun).resolve_right hlater))
      · rw [hsame x fun vpn hvpn hun => hx vpn hvpn ((hsplit _).mpr (Or.inr hun))]
        refine hc.outside x ?_
        rintro ⟨vpn, rfl, hvpn⟩
        exact hx vpn rfl ((hsplit _).mpr (Or.inl ((inPages_iff hal).mp hvpn)))

/-- With the counts in order, the calls return, and what the entries outside the range stand for is
as before. -/
theorem Paging.unmapEffects_total (hacc : USERBASE ≤ start ∧ stop ≤ USERTOP) :
    ∀ (effects : List VmEffect) (s : Sys), s.Paging → Mm.Bounded start stop effects →
      (∀ o, VmEffect.shmemRefDec o ∉ effects) →
      ∃ s', unmapEffects mm s effects = some s' ∧ s'.Paging ∧
        ∀ x, ¬ InSpan mm start stop x → s'.view x = s.view x
  | [], s, h, _, _ => ⟨s, rfl, h, fun _ _ => rfl⟩
  | .shmemRefDec o :: rest, s, h, _, hno => absurd (List.mem_cons_self) (hno o)
  | .unmapRange lo hi :: rest, s, h, hb, hno => by
    obtain ⟨hlo, hhi, hrange⟩ := hb lo hi (by simp)
    have htotal : ∃ s₁, s.unmapRange mm lo hi = some s₁ :=
      h.unmapRange_total hlo hhi ⟨by omega, hrange.2.1, by omega⟩
    obtain ⟨s₁, hfirst⟩ := htotal
    have hpaged := (h.unmapRange_spec hfirst).1
    obtain ⟨s', hrun, h', hview⟩ := Paging.unmapEffects_total hacc rest s₁ hpaged.paging
      (fun lo hi hmem => hb lo hi (List.mem_cons_of_mem _ hmem))
      (fun o hmem => hno o (List.mem_cons_of_mem _ hmem))
    refine ⟨s', ?_, h', fun x hx => ?_⟩
    · unfold unmapEffects
      rw [List.foldlM_cons, show unmapEffect mm s (.unmapRange lo hi) = some s₁ from hfirst]
      exact hrun
    · rw [hview x hx]
      refine hpaged.view x ?_
      rintro ⟨vpn, rfl, hvpn⟩
      have hin := (inPages_iff hlo).mp hvpn
      refine hx ⟨vpn, rfl, ?_, by omega⟩
      unfold PGSIZE at *
      omega

end Sys

namespace Mm

open Sys (InPages InSpan Tabled unmapEffects)

variable {mm mm' : Mm} {s s' : Sys} {pgdir addr len : ℕ}

/-! ## The page map -/

instance (x : Vma) (b : ℕ) : Decidable (x.Has b) := inferInstanceAs (Decidable (_ ∧ _))

/-- The page map: the flags of the VMA that has the page. -/
def pageMap (mm : Mm) (vpn : ℕ) : Option UInt32 :=
  (mm.mmapList.find? fun v => (mm.vma v).Has (vpn * PGSIZE)).map fun v => (mm.vma v).vmFlags

theorem Inv.pageMap_eq_some (h : Inv mm) {vpn : ℕ} {fl : UInt32} :
    mm.pageMap vpn = some fl ↔ mm.Covers (vpn * PGSIZE) fl := by
  unfold pageMap
  constructor
  · intro hmap
    obtain ⟨v, hfind, rfl⟩ := Option.map_eq_some_iff.mp hmap
    exact ⟨v, List.mem_of_find?_eq_some hfind, by simpa using List.find?_some hfind, rfl⟩
  · rintro ⟨v, hv, hhas, rfl⟩
    cases hfind : mm.mmapList.find? fun v => (mm.vma v).Has (vpn * PGSIZE) with
    | none => exact absurd hhas (by simpa using List.find?_eq_none.mp hfind v hv)
    | some w =>
      have hw : (mm.vma w).Has (vpn * PGSIZE) := by simpa using List.find?_some hfind
      have hfl : (mm.vma w).vmFlags = (mm.vma v).vmFlags :=
        h.covers_unique ⟨w, List.mem_of_find?_eq_some hfind, hw, rfl⟩ ⟨v, hv, hhas, rfl⟩
      rw [Option.map_some, hfl]

/-- The page map is read off the areas. -/
theorem covers_iff_areas {b : ℕ} {fl : UInt32} :
    mm.Covers b fl ↔ ∃ x ∈ mm.areas, x.Has b ∧ x.vmFlags = fl := by
  constructor
  · rintro ⟨v, hv, hhas, hfl⟩
    exact ⟨_, mem_areas.mpr ⟨v, hv, rfl⟩, hhas, hfl⟩
  · rintro ⟨x, hx, hhas, hfl⟩
    obtain ⟨v, hv, rfl⟩ := mem_areas.mp hx
    exact ⟨v, hv, hhas, hfl⟩

/-- Two address spaces with the same areas have the same page map. -/
theorem pageMap_congr (h : Inv mm) (h' : Inv mm') (hareas : mm'.areas = mm.areas) :
    mm'.pageMap = mm.pageMap := by
  funext vpn
  refine Option.ext fun fl => ?_
  rw [h'.pageMap_eq_some, h.pageMap_eq_some, covers_iff_areas, covers_iff_areas, hareas]

/-! ## Ranges that do not wrap -/

instance (start stop vpn : ℕ) : Decidable (InPages start stop vpn) :=
  inferInstanceAs (Decidable (_ ∧ _))

/-- The rounded range is in user space iff it has a page and all its pages are. -/
theorem userAccess_iff (hwrap : addr + len < 2 ^ 32) :
    USER_ACCESS (rounddown addr) (roundup (wadd addr len)) ↔
      (∃ vpn, InPages addr (addr + len) vpn) ∧ ∀ vpn, InPages addr (addr + len) vpn →
        USERBASE ≤ vpn * PGSIZE ∧ (vpn + 1) * PGSIZE ≤ USERTOP := by
  unfold USER_ACCESS rounddown roundup rounddown wadd InPages USERBASE USERTOP PGSIZE
  constructor
  · intro hacc
    exact ⟨⟨addr / 4096, by omega⟩, fun vpn hvpn => by omega⟩
  · rintro ⟨⟨vpn, hvpn⟩, hall⟩
    have hfirst := hall (addr / 4096) (by omega)
    have hlast := hall ((addr + len - 1) / 4096) (by omega)
    omega

/-- The rounded range has the pages that meet the range. -/
theorem range_iff (hwrap : addr + len < 2 ^ 32)
    (hacc : USER_ACCESS (rounddown addr) (roundup (wadd addr len))) {vpn : ℕ} :
    rounddown addr ≤ vpn * PGSIZE ∧ vpn * PGSIZE < roundup (wadd addr len) ↔
      InPages addr (addr + len) vpn := by
  unfold USER_ACCESS USERTOP at hacc
  unfold rounddown roundup rounddown wadd InPages PGSIZE at *
  omega

/-- No VMA meets the range iff the map has none of its pages. -/
theorem Inv.clear_iff (h : Inv mm) {start stop : ℕ} (hs : PGSIZE ∣ start)
    (hlt : start < stop) : mm.Clear start stop ↔
      ∀ vpn, start ≤ vpn * PGSIZE ∧ vpn * PGSIZE < stop → mm.pageMap vpn = none := by
  constructor
  · intro hc vpn hvpn
    by_contra hne
    obtain ⟨fl, hfl⟩ := Option.ne_none_iff_exists'.mp hne
    obtain ⟨v, hv, hhas, -⟩ := h.pageMap_eq_some.mp hfl
    have hv := hc v hv
    unfold Vma.Has at hhas
    omega
  · intro hnone v hv
    by_contra hmeets
    rw [not_or, Nat.not_le, Nat.not_le] at hmeets
    -- the first page of the range that is in the area
    have hok := h.ok hv
    have hne := hok.nonempty
    have hdvd : PGSIZE ∣ max start (mm.vma v).vmStart := by
      rcases max_choice start (mm.vma v).vmStart with heq | heq
      · rw [heq]; exact hs
      · rw [heq]; exact hok.startAligned
    obtain ⟨k, hk⟩ := hdvd
    rw [Nat.mul_comm] at hk
    have hhas : (mm.vma v).Has (k * PGSIZE) := by
      unfold Vma.Has
      omega
    have hsome := h.pageMap_eq_some.mpr ⟨v, hv, hhas, rfl⟩
    rw [hnone k (by omega)] at hsome
    cases hsome

/-! ## The two operations -/

/-- An address space of private areas, with a page table that has entries for its pages only. -/
structure PageSpace (mm : Mm) (pgdir : ℕ) (s : Sys) : Prop where
  inv : Inv mm
  priv : ∀ v ∈ mm.mmapList, ¬ (mm.vma v).Shared
  tabled : s.Tabled pgdir
  inside : ∀ vpn, s.pte (.user pgdir vpn) ≠ .zero → mm.pageMap vpn ≠ none

/-- `mm_unmap` with the calls it makes into the page table. -/
def mmUnmapPages (addr len : ℕ) (a : Option ℕ) (mem : ℕ → Option (RbTree ℕ)) (pgdir : ℕ) (mm : Mm)
    (s : Sys) : Option (Int × Mm × Sys) := do
  let (ret, effects, mm) ← mm.mmUnmap addr len a mem
  let s ← unmapEffects pgdir s effects
  return (ret, mm, s)

theorem mmUnmapPages_ret {a : Option ℕ} {mem : ℕ → Option (RbTree ℕ)} {ret : Int}
    (hrun : mmUnmapPages addr len a mem pgdir mm s = some (ret, mm', s')) :
    (mm.mmUnmap addr len a mem).map Prod.fst = some ret := by
  obtain ⟨r, hr, hrest⟩ := Option.bind_eq_some_iff.mp hrun
  obtain ⟨s₁, -, hres⟩ := Option.bind_eq_some_iff.mp hrest
  cases hres
  rw [hr]
  rfl

/-- `mm_map` refuses a range with `-E_INVAL` iff it is not in user space or meets a VMA. -/
theorem Inv.mmMap_inval (h : Inv mm) {flags : UInt32} {a vma : Option ℕ}
    {mem : ℕ → Option (RbTree ℕ)} {ret : Int}
    (hrun : mm.mmMap addr len flags a mem = some (ret, vma, mm')) :
    (ret = 0 ∨ ret = -E_INVAL ∨ ret = -E_NO_MEM) ∧
      (ret = -E_INVAL ↔ ¬ USER_ACCESS (rounddown addr) (roundup (wadd addr len)) ∨
        ¬ mm.Clear (rounddown addr) (roundup (wadd addr len))) := by
  obtain ⟨meets, hmeets, hiff⟩ := h.findVma_meets (rounddown addr) (roundup (wadd addr len))
  simp only [mmMap] at hrun
  split at hrun
  · rename_i hacc
    cases hrun
    exact ⟨Or.inr (Or.inl rfl), iff_of_true rfl (Or.inl hacc)⟩
  rename_i hacc
  rw [h.findVma_spec] at hrun
  simp only [Option.bind_eq_bind, Option.bind_some, hmeets] at hrun
  cases meets with
  | true =>
    cases hrun
    refine ⟨Or.inr (Or.inl rfl), iff_of_true rfl (Or.inr fun hc => ?_)⟩
    obtain ⟨v, hv, hlt⟩ := hiff.mp rfl
    obtain ⟨hmem, habove⟩ := firstAbove_mem hv
    have hv := hc v hmem
    omega
  | false =>
    have hclear : mm.Clear (rounddown addr) (roundup (wadd addr len)) := by
      refine h.gap_of_first fun v hv => ?_
      by_contra hlt
      cases hiff.mpr ⟨v, hv, by omega⟩
    obtain ⟨⟨w, mm₁⟩, -, hres⟩ := Option.bind_eq_some_iff.mp hrun
    cases hres
    have hne : ¬ (¬ USER_ACCESS (rounddown addr) (roundup (wadd addr len)) ∨
        ¬ mm.Clear (rounddown addr) (roundup (wadd addr len))) := by tauto
    by_cases hw : w = none
    · rw [if_pos hw]
      exact ⟨Or.inr (Or.inr rfl), iff_of_false (by decide) hne⟩
    · rw [if_neg hw]
      exact ⟨Or.inl rfl, iff_of_false (by decide) hne⟩

/-- The areas after `mm_map` are private if those before were. -/
theorem priv_iff_areas : (∀ v ∈ mm.mmapList, ¬ (mm.vma v).Shared) ↔ ∀ x ∈ mm.areas, ¬ x.Shared := by
  constructor
  · intro h x hx
    obtain ⟨v, hv, rfl⟩ := mem_areas.mp hx
    exact h v hv
  · exact fun h v hv => h { mm.vma v with vmMm := none } (mem_areas.mpr ⟨v, hv, rfl⟩)

/-- **`mm_map` on the page map.** -/
theorem PageSpace.mmMap_spec (h : PageSpace mm pgdir s) (hwrap : addr + len < 2 ^ 32)
    (flags : UInt32) (a : Option ℕ) (mem : ℕ → Option (RbTree ℕ)) :
    ∃ ret vma mm', mm.mmMap addr len flags a mem = some (ret, vma, mm') ∧
      (ret = 0 ∨ ret = -E_INVAL ∨ ret = -E_NO_MEM) ∧ PageSpace mm' pgdir s ∧
      (ret = -E_INVAL ↔ (¬ ∃ vpn, InPages addr (addr + len) vpn) ∨
        (∃ vpn, InPages addr (addr + len) vpn ∧
          ¬ (USERBASE ≤ vpn * PGSIZE ∧ (vpn + 1) * PGSIZE ≤ USERTOP)) ∨
        ∃ vpn, InPages addr (addr + len) vpn ∧ mm.pageMap vpn ≠ none) ∧
      (ret = 0 → ∀ vpn, mm'.pageMap vpn =
        if InPages addr (addr + len) vpn then some (flags &&& ~~~VM_SHARE) else mm.pageMap vpn) ∧
      (ret ≠ 0 → mm'.pageMap = mm.pageMap) := by
  obtain ⟨ret, vma, mm', hrun, hinv, -, hnone, hnew⟩ := h.inv.mmMap_spec addr len flags a mem
  obtain ⟨hret, hinval⟩ := h.inv.mmMap_inval hrun
  have hpriv := priv_iff_areas.mp h.priv
  -- the condition of `-E_INVAL`, on pages
  have hcond : ret = -E_INVAL ↔ (¬ ∃ vpn, InPages addr (addr + len) vpn) ∨
      (∃ vpn, InPages addr (addr + len) vpn ∧
        ¬ (USERBASE ≤ vpn * PGSIZE ∧ (vpn + 1) * PGSIZE ≤ USERTOP)) ∨
      ∃ vpn, InPages addr (addr + len) vpn ∧ mm.pageMap vpn ≠ none := by
    rw [hinval]
    by_cases hacc : USER_ACCESS (rounddown addr) (roundup (wadd addr len))
    · rw [h.inv.clear_iff (rounddown_aligned _) hacc.2.1]
      simp only [range_iff hwrap hacc]
      have hpages := (userAccess_iff hwrap).mp hacc
      constructor
      · rintro (hno | hmeets)
        · exact absurd hacc hno
        · push Not at hmeets
          exact Or.inr (Or.inr hmeets)
      · rintro (hno | ⟨vpn, hvpn, hno⟩ | hmeets)
        · exact absurd hpages.1 hno
        · exact absurd (hpages.2 vpn hvpn) hno
        · right
          push Not
          exact hmeets
    · refine iff_of_true (Or.inl hacc) ?_
      rw [userAccess_iff hwrap, not_and_or] at hacc
      rcases hacc with hno | hno
      · exact Or.inl hno
      · push Not at hno
        obtain ⟨vpn, hvpn, hno⟩ := hno
        exact Or.inr (Or.inl ⟨vpn, hvpn, by omega⟩)
  cases hvma : vma with
  | none =>
    obtain ⟨hne, hareas⟩ := hnone hvma
    have hmap := pageMap_congr h.inv hinv hareas
    refine ⟨ret, none, mm', hvma ▸ hrun, hret,
      ⟨hinv, priv_iff_areas.mpr (hareas ▸ hpriv), h.tabled, hmap ▸ h.inside⟩, hcond,
      fun hzero => absurd hzero hne, fun _ => hmap⟩
  | some v =>
    obtain ⟨-, hfresh, hzero, hval, hareas⟩ := hnew v hvma
    have hok : ¬ (ret = -E_INVAL) := by rw [hzero]; decide
    rw [hinval, not_or, not_not, not_not] at hok
    have hmap : ∀ vpn, mm'.pageMap vpn = if InPages addr (addr + len) vpn then
        some (flags &&& ~~~VM_SHARE) else mm.pageMap vpn := by
      intro vpn
      have hnewArea : (⟨none, rounddown addr, roundup (wadd addr len), flags &&& ~~~VM_SHARE, 0, 0⟩ :
          Vma).Has (vpn * PGSIZE) ↔ InPages addr (addr + len) vpn := range_iff hwrap hok.1
      refine Option.ext fun fl => ?_
      rw [hinv.pageMap_eq_some, covers_iff_areas, hareas]
      simp only [Multiset.mem_cons, or_and_right, exists_or, exists_eq_left, hnewArea]
      rw [← covers_iff_areas, ← h.inv.pageMap_eq_some]
      split
      · rename_i hin
        have hgone : mm.pageMap vpn = none := by
          refine ((h.inv.clear_iff (rounddown_aligned _) hok.1.2.1).mp hok.2) vpn ?_
          exact (range_iff hwrap hok.1).mpr hin
        simp [hgone, hin]
      · rename_i hout
        simp [hout]
    refine ⟨ret, some v, mm', hvma ▸ hrun, hret, ⟨hinv, priv_iff_areas.mpr ?_, h.tabled, ?_⟩, hcond,
      fun _ => hmap, fun hne => absurd hzero hne⟩
    · intro x hx
      rw [hareas] at hx
      rcases Multiset.mem_cons.mp hx with rfl | hx
      · exact Shm.not_shared_of_masked rfl
      · exact hpriv x hx
    · intro vpn hne
      rw [hmap]
      split
      · exact Option.some_ne_none _
      · exact h.inside vpn hne

/-- **`mm_unmap` on the page map and the page table.** -/
theorem PageSpace.mmUnmap_spec (h : PageSpace mm pgdir s) (hwrap : addr + len < 2 ^ 32)
    {a : Option ℕ} {mem : ℕ → Option (RbTree ℕ)} {ret : Int}
    (hrun : mmUnmapPages addr len a mem pgdir mm s = some (ret, mm', s')) :
    PageSpace mm' pgdir s' ∧
      (ret = 0 → (∀ vpn, mm'.pageMap vpn =
          if InPages addr (addr + len) vpn then none else mm.pageMap vpn) ∧
        (∀ vpn, InPages addr (addr + len) vpn → s'.pte (.user pgdir vpn) = .zero) ∧
        ∀ x, ¬ InSpan pgdir addr (addr + len) x → s'.pte x = s.pte x) ∧
      (ret ≠ 0 → mm'.pageMap = mm.pageMap ∧ s' = s) := by
  obtain ⟨ret₁, effects, mm₁, hunmap, hinv, hclear, hcov, hcut, hbound, herr⟩ :=
    h.inv.mmUnmap_spec addr len a mem
  have hacc : ret₁ = 0 → USER_ACCESS (rounddown addr) (roundup (wadd addr len)) := by
    intro hret
    by_contra hno
    simp only [mmUnmap, if_pos hno] at hunmap
    cases hunmap
    cases hret
  unfold mmUnmapPages at hrun
  simp only [hunmap, Option.bind_eq_bind, Option.bind_some] at hrun
  obtain ⟨s₁, heff, hres⟩ := Option.bind_eq_some_iff.mp hrun
  cases hres
  have hpriv := priv_iff_areas.mp h.priv
  have hcut := hcut fun _ x hx hshared => absurd hshared (hpriv x hx)
  obtain ⟨htab, hzero, hsame⟩ := Sys.unmapEffects_clears effects s h.tabled hbound heff
  have hmapped : ∀ vpn fl, mm'.pageMap vpn = some fl ↔
      mm.pageMap vpn = some fl ∧ ¬ Unmaps effects (vpn * PGSIZE) := by
    intro vpn fl
    rw [hinv.pageMap_eq_some, h.inv.pageMap_eq_some]
    exact hcov _ fl
  have hpriv' : ∀ y ∈ mm'.areas, ¬ y.Shared := by
    intro y hy
    rcases hcut.part y hy with hold | ⟨x, hx, lo, hi, -, -, -, rfl⟩ | ⟨hplain, -⟩
    · exact hpriv y hold
    · exact hpriv x hx
    · exact hplain
  have hother : ∀ vpn, ¬ Unmaps effects (vpn * PGSIZE) →
      s'.pte (.user pgdir vpn) = s.pte (.user pgdir vpn) :=
    fun vpn hno => hsame _ (by rintro _ ⟨⟩; exact hno)
  refine ⟨⟨hinv, priv_iff_areas.mpr hpriv', htab, fun vpn hne => ?_⟩, fun hret => ?_, fun hret => ?_⟩
  · by_cases hun : Unmaps effects (vpn * PGSIZE)
    · exact absurd (hzero vpn hun) hne
    · rw [hother vpn hun] at hne
      obtain ⟨fl, hfl⟩ := Option.ne_none_iff_exists'.mp (h.inside vpn hne)
      rw [(hmapped vpn fl).mpr ⟨hfl, hun⟩]
      exact Option.some_ne_none fl
  · have hacc := hacc hret
    have hgone : ∀ vpn, InPages addr (addr + len) vpn → mm'.pageMap vpn = none := fun vpn hvpn =>
      (hinv.clear_iff (rounddown_aligned _) hacc.2.1).mp (hclear hret) vpn
        ((range_iff hwrap hacc).mpr hvpn)
    have hin : ∀ vpn, Unmaps effects (vpn * PGSIZE) → InPages addr (addr + len) vpn :=
      fun vpn hun => (range_iff hwrap hacc).mp (hbound.of_unmaps hun)
    refine ⟨fun vpn => ?_, fun vpn hvpn => ?_, fun x hx => hsame x ?_⟩
    · split
      · rename_i hvpn
        exact hgone vpn hvpn
      · rename_i hout
        refine Option.ext fun fl => ?_
        rw [hmapped]
        exact and_iff_left fun hun => hout (hin vpn hun)
    · by_cases hun : Unmaps effects (vpn * PGSIZE)
      · exact hzero vpn hun
      · -- a page of the range that was not unmapped was not in the map
        rw [hother vpn hun]
        by_contra hne
        obtain ⟨fl, hfl⟩ := Option.ne_none_iff_exists'.mp (h.inside vpn hne)
        have hleft := (hmapped vpn fl).mpr ⟨hfl, hun⟩
        rw [hgone vpn hvpn] at hleft
        cases hleft
    · rintro vpn rfl hun
      exact hx ⟨vpn, rfl, hin vpn hun⟩
  · obtain ⟨rfl, hareas⟩ := herr hret
    cases heff
    exact ⟨pageMap_congr h.inv hinv hareas, rfl⟩

/-- With the counts of frames and swap entries in order `mm_unmap` returns, and what the entries
outside the range give to read is as before. -/
theorem PageSpace.mmUnmap_total (h : PageSpace mm pgdir s) (hwrap : addr + len < 2 ^ 32)
    (hp : s.Paging) (a : Option ℕ) (mem : ℕ → Option (RbTree ℕ)) :
    ∃ ret mm' s', mmUnmapPages addr len a mem pgdir mm s = some (ret, mm', s') ∧ s'.Paging ∧
      ∀ x, ¬ InSpan pgdir addr (addr + len) x → s'.view x = s.view x := by
  obtain ⟨ret, effects, mm', hunmap, -, -, -, hcut, hbound, -⟩ := h.inv.mmUnmap_spec addr len a mem
  have hpriv := priv_iff_areas.mp h.priv
  have hcut := hcut fun _ x hx hshared => absurd hshared (hpriv x hx)
  have hno : ∀ o, VmEffect.shmemRefDec o ∉ effects := by
    intro o hmem
    have hcount := hcut.count o
    have hzero : mm.areas.countP (Vma.Points o) = 0 :=
      Multiset.countP_eq_zero.mpr fun x hx hpoints => hpriv x hx hpoints.1
    have hpos := List.count_pos_iff.mpr hmem
    omega
  have hrun : ∀ s', unmapEffects pgdir s effects = some s' →
      mmUnmapPages addr len a mem pgdir mm s = some (ret, mm', s') := by
    intro s' heff
    unfold mmUnmapPages
    simp only [hunmap, heff, Option.bind_eq_bind, Option.bind_some]
    rfl
  by_cases hacc : USER_ACCESS (rounddown addr) (roundup (wadd addr len))
  · obtain ⟨s', heff, hp', hview⟩ :=
      Sys.Paging.unmapEffects_total ⟨hacc.1, hacc.2.2⟩ effects s hp hbound hno
    refine ⟨ret, mm', s', hrun s' heff, hp', fun x hx => hview x ?_⟩
    rintro ⟨vpn, rfl, hvpn⟩
    refine hx ⟨vpn, rfl, (range_iff hwrap hacc).mp ?_⟩
    exact (Sys.inPages_iff (rounddown_aligned addr)).mp hvpn
  · simp only [mmUnmap, if_pos hacc] at hunmap
    cases hunmap
    exact ⟨_, mm, s, hrun s rfl, hp, fun _ _ => rfl⟩

/-- **`mm_map` and `mm_unmap` act on a page map.**  `mm_map` adds the pages of the range with the
flags, or fails and changes nothing, with `-E_INVAL` iff the range is empty, not in user space or
meets a page of the map.  `mm_unmap` takes the pages of the range out of the map and clears their
entries; pages and entries outside the range stay, and so does everything when it fails. -/
theorem mm_page_map (mm : Mm) (pgdir : ℕ) (s : Sys) (h : PageSpace mm pgdir s) (addr len : ℕ)
    (hwrap : addr + len < 2 ^ 32) :
    (∀ flags a mem, ∃ ret vma mm', mm.mmMap addr len flags a mem = some (ret, vma, mm') ∧
      (ret = 0 ∨ ret = -E_INVAL ∨ ret = -E_NO_MEM) ∧ PageSpace mm' pgdir s ∧
      (ret = -E_INVAL ↔ (¬ ∃ vpn, InPages addr (addr + len) vpn) ∨
        (∃ vpn, InPages addr (addr + len) vpn ∧
          ¬ (USERBASE ≤ vpn * PGSIZE ∧ (vpn + 1) * PGSIZE ≤ USERTOP)) ∨
        ∃ vpn, InPages addr (addr + len) vpn ∧ mm.pageMap vpn ≠ none) ∧
      (ret = 0 → ∀ vpn, mm'.pageMap vpn =
        if InPages addr (addr + len) vpn then some (flags &&& ~~~VM_SHARE) else mm.pageMap vpn) ∧
      (ret ≠ 0 → mm'.pageMap = mm.pageMap)) ∧
    (∀ a mem ret mm' s', mmUnmapPages addr len a mem pgdir mm s = some (ret, mm', s') →
      PageSpace mm' pgdir s' ∧
      (ret = 0 → (∀ vpn, mm'.pageMap vpn =
          if InPages addr (addr + len) vpn then none else mm.pageMap vpn) ∧
        (∀ vpn, InPages addr (addr + len) vpn → s'.pte (.user pgdir vpn) = .zero) ∧
        ∀ x, ¬ InSpan pgdir addr (addr + len) x → s'.pte x = s.pte x) ∧
      (ret ≠ 0 → mm'.pageMap = mm.pageMap ∧ s' = s)) ∧
    (s.Paging → ∀ a mem, ∃ ret mm' s',
      mmUnmapPages addr len a mem pgdir mm s = some (ret, mm', s') ∧ s'.Paging ∧
        ∀ x, ¬ InSpan pgdir addr (addr + len) x → s'.view x = s.view x) :=
  ⟨fun flags a mem => h.mmMap_spec hwrap flags a mem, fun _ _ _ _ _ hrun => h.mmUnmap_spec hwrap hrun,
    fun hp a mem => h.mmUnmap_total hwrap hp a mem⟩

/-- One page in the middle of the stack of a new process is unmapped. -/
theorem mm_page_map_stack : ∃ mm' s',
    mmUnmapPages (USERTOP - 3 * PGSIZE) PGSIZE (some 1) (fun _ => none) 0 stackMm Sys.boot =
      some (0, mm', s') ∧
    ∀ vpn, mm'.pageMap vpn =
      if InPages (USERTOP - 3 * PGSIZE) (USERTOP - 3 * PGSIZE + PGSIZE) vpn then none
      else stackMm.pageMap vpn := by
  have hspace : PageSpace stackMm 0 Sys.boot :=
    ⟨stackMm_inv, by decide, fun _ hne => absurd rfl hne, fun _ hne => absurd rfl hne⟩
  obtain ⟨-, hunmap, htotal⟩ :=
    mm_page_map stackMm 0 Sys.boot hspace (USERTOP - 3 * PGSIZE) PGSIZE (by decide)
  obtain ⟨ret, mm', s', hrun, -, -⟩ := htotal Sys.boot_init.paging (some 1) fun _ => none
  have hfst : (stackMm.mmUnmap (USERTOP - 3 * PGSIZE) PGSIZE (some 1) fun _ => none).map Prod.fst =
      some 0 := by decide
  cases hfst.symm.trans (mmUnmapPages_ret hrun)
  exact ⟨mm', s', hrun, ((hunmap _ _ _ _ _ hrun).2.1 rfl).1⟩

end Mm

end Ucore
