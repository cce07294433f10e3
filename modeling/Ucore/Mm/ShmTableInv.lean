import Ucore.Mm.PageMap
import Ucore.Mm.ShmTable

/-!
# The entry table: invariant

What holds of a shared memory object between two calls of `kern/mm/shmem.c`, when the rest of the kernel has `E f`
references to the page `f` and `G o` to the swap entry `o`.

* `dropPte_spec` — an entry gives up its reference; it depends on no table;
* `Inv` — the nodes are sorted and cover aligned ranges, the cache is one of them, and the counters are those of the
  rest of the kernel and of the slots;
* `Inv.setSlot` — the rule for a slot that gets another value.
-/

namespace Ucore

open Occurrence

/-- One more mapping of the frame `f`. -/
theorem Pte.maps_inc (R : ℕ → ℕ) (f : ℕ) (perm : Perm) (g : ℕ) :
    Function.update R f (R f + 1) g = R g + (Pte.page f perm).maps g := by
  by_cases hgf : g = f
  · subst hgf
    rw [Function.update_self, Pte.maps_self]
  · rw [Function.update_of_ne hgf, Pte.maps_ne perm (Ne.symm hgf)]
    rfl

/-- One more holder of the swap entry `o`. -/
theorem Pte.holds_inc (H : ℕ → ℕ) (o p : ℕ) : Function.update H o (H o + 1) p = H p + (Pte.swap o).holds p := by
  show _ = H p + if o = p then 1 else 0
  by_cases hpo : p = o
  · subst hpo
    rw [Function.update_self, if_pos rfl]
  · rw [Function.update_of_ne hpo, if_neg (Ne.symm hpo)]
    rfl

namespace Sys

variable {s s' : Sys} {R H : ℕ → ℕ} {f o : ℕ} {e : Pte} {env : Env}

/-- The same pages and swap entries beside other tables. -/
def withTables (s : Sys) (pte : Loc → Pte) (shmn : ℕ → ℕ → Option ℕ) : Sys := { s with pte := pte, shmn := shmn }

section withTables

variable (s) (pte : Loc → Pte) (shmn : ℕ → ℕ → Option ℕ)

@[simp]
theorem withTables_pageSwap : (s.withTables pte shmn).pageSwap = s.pageSwap := rfl

@[simp]
theorem withTables_pageRef : (s.withTables pte shmn).pageRef = s.pageRef := rfl

@[simp]
theorem withTables_memMap : (s.withTables pte shmn).memMap = s.memMap := rfl

@[simp]
theorem withTables_free : (s.withTables pte shmn).free = s.free := rfl

@[simp]
theorem withTables_swapOffset : (s.withTables pte shmn).swapOffset o = s.swapOffset o := rfl

@[simp]
theorem withTables_swapHashFind : (s.withTables pte shmn).swapHashFind o = s.swapHashFind o := rfl

@[simp]
theorem withTables_setMemMap (n : ℕ) :
    (s.withTables pte shmn).setMemMap o n = (s.setMemMap o n).withTables pte shmn := rfl

@[simp]
theorem withTables_pageRefDec : (s.withTables pte shmn).pageRefDec f = (s.pageRefDec f).withTables pte shmn := rfl

theorem swapListDel_withTables :
    (s.withTables pte shmn).swapListDel f = (s.swapListDel f).map (·.withTables pte shmn) := by
  unfold swapListDel
  rw [withTables_pageSwap]
  split
  · rfl
  · rfl

theorem swapPageDel_withTables :
    (s.withTables pte shmn).swapPageDel f = (s.swapPageDel f).map (·.withTables pte shmn) := by
  unfold swapPageDel
  rw [withTables_pageSwap]
  split
  · rfl
  · rfl

theorem swapFreePage_withTables :
    (s.withTables pte shmn).swapFreePage f = (s.swapFreePage f).map (·.withTables pte shmn) := by
  unfold swapFreePage
  rw [withTables_pageSwap, withTables_pageRef, swapPageDel_withTables]
  split
  · cases s.swapPageDel f with
    | none => rfl
    | some s₁ => rfl
  · rfl

theorem swapRemoveLast_withTables :
    (s.withTables pte shmn).swapRemoveLast o = (s.swapRemoveLast o).map (·.withTables pte shmn) := by
  unfold swapRemoveLast
  rw [withTables_swapHashFind]
  cases s.swapHashFind o with
  | none => rfl
  | some f =>
    simp only [withTables_pageRef, swapListDel_withTables]
    split
    · rfl
    · cases s.swapListDel f with
      | none => rfl
      | some s₁ =>
        simp only [Option.map_some, Option.bind_eq_bind, Option.bind_some, swapFreePage_withTables]
        cases s₁.swapFreePage f with
        | none => rfl
        | some s₂ => rfl

theorem swapRemoveEntry_withTables :
    (s.withTables pte shmn).swapRemoveEntry o = (s.swapRemoveEntry o).map (·.withTables pte shmn) := by
  unfold swapRemoveEntry
  rw [withTables_swapOffset]
  cases s.swapOffset o with
  | none => rfl
  | some p =>
    let s₁ := s.setMemMap p (s.memMap p - 1)
    show ((guard (0 < s.memMap p) : Option Unit).bind fun _ =>
        if s₁.memMap p = 0 then (s₁.withTables pte shmn).swapRemoveLast p else some (s₁.withTables pte shmn)) =
      ((guard (0 < s.memMap p) : Option Unit).bind fun _ =>
        if s₁.memMap p = 0 then s₁.swapRemoveLast p else some s₁).map (·.withTables pte shmn)
    cases (guard (0 < s.memMap p) : Option Unit) with
    | none => rfl
    | some _ =>
      simp only [Option.bind_some, swapRemoveLast_withTables]
      split
      · rfl
      · rfl

theorem dropPte_withTables :
    (s.withTables pte shmn).dropPte e = (s.dropPte e).map (·.withTables pte shmn) := by
  cases e with
  | zero => rfl
  | page f perm =>
    show (if ¬ s.pageSwap f = true then
        some (if (s.pageRefDec f).pageRef f = 0 then ((s.pageRefDec f).withTables pte shmn).freePage f
          else (s.pageRefDec f).withTables pte shmn)
      else some ((if perm.d then (s.withTables pte shmn).setPageDirty f true
        else s.withTables pte shmn).pageRefDec f)) = _
    simp only [dropPte]
    split
    · split
      · rfl
      · rfl
    · cases perm.d with
      | true => rfl
      | false => rfl
  | swap o => exact swapRemoveEntry_withTables s pte shmn

theorem takePte_withTables :
    (s.withTables pte shmn).takePte e = (s.takePte e).map (·.withTables pte shmn) := by
  cases e with
  | zero => rfl
  | page f perm => rfl
  | swap o =>
    simp only [takePte, swapDuplicate, withTables_swapOffset]
    cases s.swapOffset o with
    | none => rfl
    | some p =>
      show ((guard (s.memMap p < MAX_SWAP_REF) : Option Unit).bind fun _ =>
          some ((s.setMemMap p (s.memMap p + 1)).withTables pte shmn)) =
        ((guard (s.memMap p < MAX_SWAP_REF) : Option Unit).bind fun _ =>
          some (s.setMemMap p (s.memMap p + 1))).map (·.withTables pte shmn)
      cases (guard (s.memMap p < MAX_SWAP_REF) : Option Unit) with
      | none => rfl
      | some _ => rfl

theorem allocPage_withTables (site : AllocSite) : (s.withTables pte shmn).allocPage env site =
    ((s.allocPage env site).1, (s.allocPage env site).2.withTables pte shmn) := by
  unfold allocPage
  rw [withTables_free]
  cases (env.pick site).filter fun f => s.free f with
  | none => rfl
  | some f => rfl

end withTables

/-! ## One entry -/

theorem dropPte_tables (hrun : s.dropPte e = some s') : s'.pte = s.pte ∧ s'.shmn = s.shmn := by
  have h := dropPte_withTables (e := e) s s.pte s.shmn
  rw [show s.withTables s.pte s.shmn = s from rfl, hrun, Option.map_some] at h
  have h := Option.some.inj h
  exact ⟨(congrArg Sys.pte h).trans rfl, (congrArg Sys.shmn h).trans rfl⟩

theorem takePte_tables (hrun : s.takePte e = some s') : s'.pte = s.pte ∧ s'.shmn = s.shmn := by
  have h := takePte_withTables (e := e) s s.pte s.shmn
  rw [show s.withTables s.pte s.shmn = s from rfl, hrun, Option.map_some] at h
  have h := Option.some.inj h
  exact ⟨(congrArg Sys.pte h).trans rfl, (congrArg Sys.shmn h).trans rfl⟩

/-- The counters do not depend on the entries themselves. -/
theorem SwapInv.withPte (h : s.SwapInv R H) (pte : Loc → Pte) : (s.withTables pte s.shmn).SwapInv R H :=
  ⟨h.cache.congr rfl rfl rfl rfl rfl rfl rfl, h.counts.ref, h.counts.table, h.counts.free, h.counts.entry,
    h.counts.range, h.counts.next⟩

/-- Fresh frames become tables. -/
theorem SwapInv.retable (h : s.SwapInv R H) {shmn : ℕ → ℕ → Option ℕ}
    (hold : ∀ g, s.IsTable g → (s.withTables s.pte shmn).IsTable g)
    (hnew : ∀ g, (s.withTables s.pte shmn).IsTable g → s.IsTable g ∨ s.Fresh R g) :
    (s.withTables s.pte shmn).SwapInv R H := by
  refine ⟨h.cache.congr rfl rfl rfl rfl rfl rfl rfl, fun g hg => h.counts.ref g fun ht => hg (hold g ht),
    fun g hg => ?_, h.counts.free, h.counts.entry, h.counts.range, h.counts.next⟩
  rcases hnew g hg with ht | hf
  · exact h.counts.table g ht
  · exact ⟨hf.unmapped, hf.inUse, hf.uncached⟩

/-- **An entry gives up its reference.** -/
theorem SwapInv.dropPte_spec (h : s.SwapInv R H) (hR : ∀ f, e.maps f ≤ R f) (hH : ∀ o, e.holds o ≤ H o)
    (hrun : s.dropPte e = some s') :
    s'.SwapInv (without R e.maps) (without H e.holds) ∧ s'.pde = s.pde ∧ s'.maxSwapOffset = s.maxSwapOffset := by
  -- `page_remove_pte` at a place that holds `e`
  let x : Loc := .shm 0 0
  have hx : (s.withTables (Function.update s.pte x e) s.shmn).pte x = e := by
    show Function.update s.pte x e x = e
    exact Function.update_self ..
  have hdrop : (s.withTables (Function.update s.pte x e) s.shmn).pageRemovePte x =
      some ((s'.withTables (Function.update s.pte x e) s.shmn).setPte x .zero) := by
    rw [pageRemovePte_eq, hx, dropPte_withTables, hrun]
    rfl
  have hrem := (h.withPte _).pageRemovePte_spec (by rwa [hx]) (by rwa [hx]) hdrop
  rw [hx] at hrem
  have hinv := hrem.inv.withPte s'.pte
  rw [← (dropPte_tables hrun).2] at hinv
  exact ⟨hinv, hrem.edits.pde, hrem.edits.maxSwapOffset⟩

theorem SwapInv.dropPte_total (h : s.SwapInv R H) (hH : ∀ o, e.holds o ≤ H o) : ∃ s', s.dropPte e = some s' := by
  cases e with
  | zero => exact ⟨s, rfl⟩
  | page f perm =>
    simp only [dropPte]
    split
    · exact ⟨_, rfl⟩
    · exact ⟨_, rfl⟩
  | swap o =>
    have hheld : H o ≠ 0 := by
      have hle := hH o
      simp only [Pte.holds, if_true] at hle
      omega
    exact h.swapRemoveEntry_total hheld

theorem swapListDel_frees (hrun : s.swapListDel f = some s') : s'.free = s.free ∧ s'.memMap = s.memMap := by
  unfold swapListDel at hrun
  split at hrun
  · obtain rfl := Option.some.inj hrun
    exact ⟨rfl, rfl⟩
  · cases hrun

theorem swapFreePage_frees (hrun : s.swapFreePage f = some s') :
    s'.free = Function.update s.free f true ∧ s'.memMap = s.memMap := by
  unfold swapFreePage at hrun
  split at hrun
  · obtain ⟨s₁, hdel, rfl⟩ := Option.map_eq_some_iff.mp hrun
    unfold swapPageDel at hdel
    split at hdel
    · obtain rfl := Option.some.inj hdel
      exact ⟨rfl, rfl⟩
    · cases hdel
  · cases hrun

/-- `swap_remove_entry` frees at most the page of the entry, after the last count and without a reference to the
page, and counts no other entry. -/
theorem swapRemoveEntry_frees (hrun : s.swapRemoveEntry o = some s') :
    (s'.free = s.free ∨ ∃ g, s.swapHashFind o = some g ∧ s.pageRef g = 0 ∧ s.memMap o ≤ 1 ∧
        s'.free = Function.update s.free g true) ∧
      ∀ p, p ≠ o → s'.memMap p = s.memMap p := by
  unfold swapRemoveEntry at hrun
  obtain ⟨p, hp, hrest⟩ := Option.bind_eq_some_iff.mp hrun
  obtain ⟨_, -, hrest⟩ := Option.bind_eq_some_iff.mp hrest
  obtain ⟨rfl, -⟩ := swapOffset_eq_some hp
  have hset : ∀ (t : Sys) n q, q ≠ p → (t.setMemMap p n).memMap q = t.memMap q := fun t n q hq =>
    Function.update_of_ne hq ..
  dsimp only at hrest
  split at hrest
  · rename_i hlast
    have hle : s.memMap p ≤ 1 := Nat.sub_eq_zero_iff_le.mp ((Function.update_self ..).symm.trans hlast)
    unfold swapRemoveLast at hrest
    split at hrest
    · obtain rfl := Option.some.inj hrest
      exact ⟨.inl rfl, fun q hq => by rw [hset _ _ q hq, hset _ _ q hq]⟩
    · rename_i g hfind
      split at hrest
      · obtain rfl := Option.some.inj hrest
        exact ⟨.inl rfl, fun q hq => hset _ _ q hq⟩
      · rename_i href
        obtain ⟨s₁, hdel, hrest⟩ := Option.bind_eq_some_iff.mp hrest
        obtain ⟨s₂, hpage, hrest⟩ := Option.bind_eq_some_iff.mp hrest
        obtain rfl := Option.some.inj hrest
        obtain ⟨hfree₁, hmap₁⟩ := swapListDel_frees hdel
        obtain ⟨hfree₂, hmap₂⟩ := swapFreePage_frees hpage
        refine ⟨.inr ⟨g, hfind, not_not.mp href, hle, ?_⟩, fun q hq => ?_⟩
        · show s₂.free = _
          rw [hfree₂, hfree₁]
          rfl
        · rw [hset _ _ q hq, hmap₂, hmap₁, hset _ _ q hq]
  · obtain rfl := Option.some.inj hrest
    exact ⟨.inl rfl, fun q hq => hset _ _ q hq⟩

/-- A swap entry keeps its other counts, and its last one leaves it to a page with a reference. -/
theorem swapRemoveEntry_keeps (hrun : s.swapRemoveEntry o = some s')
    (hkeep : 1 < s.memMap o ∨ ∃ f, s.swapHashFind o = some f ∧ s.pageRef f ≠ 0) : s'.memMap o = s.memMap o - 1 := by
  unfold swapRemoveEntry at hrun
  obtain ⟨p, hp, hrest⟩ := Option.bind_eq_some_iff.mp hrun
  obtain ⟨_, -, hrest⟩ := Option.bind_eq_some_iff.mp hrest
  obtain ⟨rfl, -⟩ := swapOffset_eq_some hp
  let s₁ : Sys := s.setMemMap p (s.memMap p - 1)
  have hcount : s₁.memMap p = s.memMap p - 1 := Function.update_self ..
  have hrest : (if s₁.memMap p = 0 then s₁.swapRemoveLast p else some s₁) = some s' := hrest
  split at hrest
  · rename_i hlast
    rcases hkeep with hmany | ⟨f, hfind, href⟩
    · omega
    · have hrun : s₁.swapRemoveLast p = some s₁ := by
        rw [swapRemoveLast, show s₁.swapHashFind p = some f from hfind]
        exact if_pos href
      rw [Option.some.inj (hrest.symm.trans hrun), hcount]
  · rw [← Option.some.inj hrest, hcount]

/-- The page stays in use if the entry is not its last reference, and not the last count of its swap entry. -/
theorem dropPte_inUse (hc : s.CacheInv none) (hrun : s.dropPte e = some s') (hused : s.free f = false)
    (hmaps : e.Maps f → 1 < s.pageRef f ∨ s.pageSwap f = true)
    (hcaches : ∀ o, e = .swap o → s.Caches f o → 0 < s.pageRef f ∨ 1 < s.memMap o) : s'.free f = false := by
  cases e with
  | zero =>
    obtain rfl := Option.some.inj hrun
    exact hused
  | page g perm =>
    simp only [dropPte] at hrun
    split at hrun
    · rename_i hswap
      obtain rfl := Option.some.inj hrun
      split
      · rename_i hlast
        have hne : f ≠ g := fun heq => by
          subst heq
          have hlast : s.pageRef f - 1 = 0 := (Function.update_self ..).symm.trans hlast
          rcases hmaps ⟨perm, rfl⟩ with hmany | hcached
          · omega
          · exact hswap hcached
        show Function.update s.free g true f = false
        rw [Function.update_of_ne hne, hused]
      · exact hused
    · obtain rfl := Option.some.inj hrun
      split
      · exact hused
      · exact hused
  | swap o =>
    rcases (swapRemoveEntry_frees hrun).1 with hfree | ⟨g, hfind, href, hlast, hfree⟩
    · rw [hfree, hused]
    · have hne : f ≠ g := fun heq => by
        subst heq
        have := hcaches o rfl (hc.caches_of_find hfind)
        omega
      rw [hfree, Function.update_of_ne hne, hused]

/-- The count of another swap entry stays. -/
theorem dropPte_memMap (hrun : s.dropPte e = some s') (hne : e ≠ .swap o) : s'.memMap o = s.memMap o := by
  cases e with
  | zero =>
    obtain rfl := Option.some.inj hrun
    rfl
  | page f perm =>
    simp only [dropPte] at hrun
    split at hrun
    · obtain rfl := Option.some.inj hrun
      split
      · rfl
      · rfl
    · obtain rfl := Option.some.inj hrun
      split
      · rfl
      · rfl
  | swap p => exact (swapRemoveEntry_frees hrun).2 o fun heq => hne (by rw [heq])

end Sys

namespace Shmn

/-- A node covers one aligned range. -/
structure Node.Aligned (x : Node) : Prop where
  start_mod : x.start % NODESIZE = 0
  stop_eq : x.stop = x.start + NODESIZE

theorem Node.Aligned.lt {n : Node} (h : n.Aligned) : n.start < n.stop := by
  rw [h.stop_eq]
  exact Nat.lt_add_of_pos_right (by decide)

/-- An aligned range that starts later starts after the end. -/
theorem Node.Aligned.stop_le {n m : Node} (h : n.Aligned) (h' : m.Aligned) (hlt : n.start < m.start) :
    n.stop ≤ m.start := by
  have hn := h.start_mod
  have hm := h'.start_mod
  rw [h.stop_eq]
  unfold NODESIZE SHMN_NENTRY PGSIZE at *
  omega

def Node.Covers (x : Node) (addr : ℕ) : Prop := x.start ≤ addr ∧ addr < x.stop

namespace Shmem

/-- The node `x` of the list, at the address `p`. -/
structure At (s : Shmem) (p : ℕ) (x : Node) : Prop where
  mem : p ∈ s.shmnList
  shmn : s.shmn p = some x

/-- The frame of the entries of a node of the list. -/
def own (s : Shmem) (p : ℕ) : Option ℕ := if p ∈ s.shmnList then (s.shmn p).map (·.entry) else none

def IsNode (s : Shmem) (f : ℕ) : Prop := ∃ p, s.own p = some f

open Classical in
/-- The entries of the object. -/
noncomputable def slots (s : Shmem) (x : Slot) : Pte := if s.IsNode x.1 then s.mem x else .zero

/-- The number of entries that map the frame `f`. -/
noncomputable def slotRefs (s : Shmem) (f : ℕ) : ℕ := occ s.slots (Pte.Maps f)

/-- The number of entries that hold the swap entry `o`. -/
noncomputable def slotHolds (s : Shmem) (o : ℕ) : ℕ := occ s.slots (Pte.Holds o)

/-- The machine, with the frames of the nodes among its tables. -/
def marked (s : Shmem) : Sys :=
  s.sys.withTables s.sys.pte fun
    | 0 => s.own
    | h + 1 => s.sys.shmn h

/-- The invariant between two calls. -/
structure Inv (E G : ℕ → ℕ) (s : Shmem) : Prop where
  len_le : s.len ≤ USERTOP
  node : ∀ p ∈ s.shmnList, ∃ x, s.shmn p = some x ∧ x.Aligned ∧ x.start < s.len
  sorted : s.shmnList.Pairwise fun p q => ∀ x y, s.shmn p = some x → s.shmn q = some y → x.stop ≤ y.start
  cache : ∀ p, s.shmnCache = some p → p ∈ s.shmnList
  inj : ∀ p q x y, s.At p x → s.At q y → x.entry = y.entry → p = q
  finite : {x | s.slots x ≠ .zero}.Finite
  swap : s.marked.SwapInv (fun f => E f + s.slotRefs f) fun o => G o + s.slotHolds o

variable {s s' : Shmem} {E G : ℕ → ℕ} {p q f o addr : ℕ} {x : Slot} {e : Pte} {env : Env} {n m : Node}

theorem At.own (h : s.At p n) : s.own p = some n.entry := by
  rw [Shmem.own, if_pos h.mem, h.shmn]
  rfl

theorem At.isNode (h : s.At p n) : s.IsNode n.entry := ⟨p, h.own⟩

theorem exists_at (h : s.own p = some f) : ∃ n, s.At p n ∧ n.entry = f := by
  unfold own at h
  split at h
  · rename_i hmem
    obtain ⟨n, hn, rfl⟩ := Option.map_eq_some_iff.mp h
    exact ⟨n, ⟨hmem, hn⟩, rfl⟩
  · cases h

theorem marked_isTable : s.marked.IsTable f ↔ s.sys.IsTable f ∨ s.IsNode f := by
  constructor
  · rintro (⟨mm, idx, h⟩ | ⟨_ | h, i, hi⟩)
    · exact .inl (.inl ⟨mm, idx, h⟩)
    · exact .inr ⟨i, hi⟩
    · exact .inl (.inr ⟨h, i, hi⟩)
  · rintro ((⟨mm, idx, h⟩ | ⟨h, i, hi⟩) | ⟨p, hp⟩)
    · exact .inl ⟨mm, idx, h⟩
    · exact .inr ⟨h + 1, i, hi⟩
    · exact .inr ⟨0, p, hp⟩

theorem At.unique (h : s.At p n) (h' : s.At p m) : n = m := Option.some.inj (h.shmn.symm.trans h'.shmn)

theorem Inv.aligned (h : s.Inv E G) (hn : s.At p n) : n.Aligned ∧ n.start < s.len := by
  obtain ⟨y, hy, hal, hlt⟩ := h.node p hn.mem
  obtain rfl : y = n := Option.some.inj (hy.symm.trans hn.shmn)
  exact ⟨hal, hlt⟩

/-- The ranges of two nodes are apart. -/
theorem Inv.apart (h : s.Inv E G) (hn : s.At p n) (hm : s.At q m) (ha : n.Covers addr) (hb : m.Covers addr) :
    p = q := by
  by_contra hne
  let R : ℕ → ℕ → Prop := fun p q =>
    ∀ x y, s.shmn p = some x → s.shmn q = some y → ¬ (x.Covers addr ∧ y.Covers addr)
  have hdisjoint : s.shmnList.Pairwise R := by
    refine h.sorted.imp fun hpq x y hx hy hxy => ?_
    have := hpq x y hx hy
    have := hxy.1.2
    have := hxy.2.1
    omega
  have hsym : Std.Symm R := ⟨fun p q hpq x y hx hy hxy => hpq y x hy hx hxy.symm⟩
  exact hdisjoint.forall hn.mem hm.mem hne n m hn.shmn hm.shmn ⟨ha, hb⟩

/-! ## The slot of an address -/

/-- The slot of `addr`. -/
def SlotAt (s : Shmem) (addr : ℕ) (x : Slot) : Prop :=
  ∃ p n, s.At p n ∧ n.Covers (rounddown addr) ∧ x = (n.entry, (rounddown addr - n.start) / PGSIZE)

theorem SlotAt.isNode (h : s.SlotAt addr x) : s.IsNode x.1 := by
  obtain ⟨p, n, hn, -, rfl⟩ := h
  exact hn.isNode

/-- **Two addresses have the same slot iff they are in the same page.** -/
theorem Inv.slotAt_iff {addr' : ℕ} {x' : Slot} (h : s.Inv E G) (hx : s.SlotAt addr x) (hx' : s.SlotAt addr' x') :
    x = x' ↔ addr / PGSIZE = addr' / PGSIZE := by
  obtain ⟨p, n, hn, hc, rfl⟩ := hx
  obtain ⟨p', n', hn', hc', rfl⟩ := hx'
  constructor
  · intro heq
    obtain ⟨hentry, hidx⟩ := Prod.mk.inj heq
    obtain rfl := h.inj p p' n n' hn hn' hentry
    obtain rfl := hn.unique hn'
    have hal := (h.aligned hn).1.start_mod
    obtain ⟨hlo, -⟩ := hc
    obtain ⟨hlo', -⟩ := hc'
    unfold NODESIZE SHMN_NENTRY at hal
    unfold rounddown PGSIZE at *
    omega
  · intro heq
    have hround : rounddown addr = rounddown addr' := by
      unfold rounddown PGSIZE at *
      omega
    rw [← hround] at hc' ⊢
    obtain rfl := h.apart hn hn' hc hc'
    rw [hn.unique hn']

/-- The nodes stay what and where they are. -/
structure Grows (s s' : Shmem) : Prop where
  len : s'.len = s.len
  node : ∀ p x, s.At p x → s'.At p x

theorem Grows.refl (s : Shmem) : Grows s s := ⟨rfl, fun _ _ h => h⟩

theorem Grows.trans {s'' : Shmem} (h : Grows s s') (h' : Grows s' s'') : Grows s s'' :=
  ⟨h'.len.trans h.len, fun p x hx => h'.node p x (h.node p x hx)⟩

theorem SlotAt.mono (hx : s.SlotAt addr x) (h : Grows s s') : s'.SlotAt addr x := by
  obtain ⟨p, n, hn, hc, rfl⟩ := hx
  exact ⟨p, n, h.node p n hn, hc, rfl⟩

/-! ## The entries -/

theorem slots_of_isNode (hx : s.IsNode x.1) : s.slots x = s.mem x := if_pos hx

theorem slots_setMem (hx : s.IsNode x.1) (sys : Sys) :
    (Shmem.setMem { s with sys := sys } x e).slots = Function.update s.slots x e := by
  funext y
  by_cases hy : y = x
  · subst hy
    rw [Function.update_self]
    exact (slots_of_isNode (s := Shmem.setMem { s with sys := sys } y e) hx).trans (Function.update_self ..)
  · have hmem : (Shmem.setMem { s with sys := sys } x e).mem y = s.mem y := Function.update_of_ne hy ..
    rw [Function.update_of_ne hy, slots, slots, hmem]
    rfl

theorem Inv.finiteMaps (h : s.Inv E G) (f : ℕ) : {x | (s.slots x).Maps f}.Finite := by
  refine h.finite.subset fun x hx hzero => ?_
  obtain ⟨perm, hx⟩ := hx
  rw [hzero] at hx
  cases hx

theorem Inv.finiteHolds (h : s.Inv E G) (o : ℕ) : {x | (s.slots x).Holds o}.Finite := by
  refine h.finite.subset fun x (hx : s.slots x = .swap o) hzero => ?_
  rw [hzero] at hx
  cases hx

theorem Inv.slotRefs_update (h : s.Inv E G) (hx : s.IsNode x.1) (sys : Sys) (f : ℕ) :
    (Shmem.setMem { s with sys := sys } x e).slotRefs f + (s.mem x).maps f = s.slotRefs f + e.maps f := by
  rw [slotRefs, slots_setMem hx, ← slots_of_isNode hx, Pte.maps_eq, Pte.maps_eq]
  exact occ_update x e (h.finiteMaps f)

theorem Inv.slotHolds_update (h : s.Inv E G) (hx : s.IsNode x.1) (sys : Sys) (o : ℕ) :
    (Shmem.setMem { s with sys := sys } x e).slotHolds o + (s.mem x).holds o = s.slotHolds o + e.holds o := by
  rw [slotHolds, slots_setMem hx, ← slots_of_isNode hx, Pte.holds_eq, Pte.holds_eq]
  exact occ_update x e (h.finiteHolds o)

/-- **A slot gets another value**, and the counters follow. -/
theorem Inv.setSlot (h : s.Inv E G) (hx : s.IsNode x.1) {sys : Sys} {R H : ℕ → ℕ}
    (hswap : (marked { s with sys := sys }).SwapInv R H)
    (hR : ∀ f, R f + (s.mem x).maps f = E f + s.slotRefs f + e.maps f)
    (hH : ∀ o, H o + (s.mem x).holds o = G o + s.slotHolds o + e.holds o) :
    (Shmem.setMem { s with sys := sys } x e).Inv E G := by
  refine ⟨h.len_le, h.node, h.sorted, h.cache, fun p q n m hn hm => h.inj p q n m ⟨hn.1, hn.2⟩ ⟨hm.1, hm.2⟩, ?_, ?_⟩
  · rw [slots_setMem hx]
    refine (h.finite.insert x).subset fun y hy => ?_
    by_cases hyx : y = x
    · exact .inl hyx
    · right
      simpa [Function.update_of_ne hyx] using hy
  · have hrefs : (fun f => E f + (Shmem.setMem { s with sys := sys } x e).slotRefs f) = R := by
      funext f
      have := h.slotRefs_update (e := e) hx sys f
      have := hR f
      omega
    have hholds : (fun o => G o + (Shmem.setMem { s with sys := sys } x e).slotHolds o) = H := by
      funext o
      have := h.slotHolds_update (e := e) hx sys o
      have := hH o
      omega
    rw [hrefs, hholds]
    exact hswap

/-- The machine changes and no entry does. -/
theorem Inv.setSys (h : s.Inv E G) {sys : Sys}
    (hswap : (marked { s with sys := sys }).SwapInv (fun f => E f + s.slotRefs f) fun o => G o + s.slotHolds o) :
    Shmem.Inv E G { s with sys := sys } :=
  ⟨h.len_le, h.node, h.sorted, h.cache, fun p q n m hn hm => h.inj p q n m ⟨hn.1, hn.2⟩ ⟨hm.1, hm.2⟩, h.finite, hswap⟩

end Shmem

end Shmn

end Ucore
