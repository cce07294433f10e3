import Ucore.Mm.Pmm

/-!
# Which page table entries a call writes

What the functions of `kern/mm/swap.c` and `kern/mm/pmm.c` do to the entries of the page tables,
whatever becomes of frames and swap entries.

* `Unwritten` — no entry of an address space changes: the swap cache, its lists, shared objects;
* `Writes` — one entry is written;
* `Leaves` — what the swap daemon does to an address space: present pages become swap entries or lose
  their accessed bit.
-/

namespace Ucore.Sys

/-- The page directories, and the entries of all address spaces, stay. -/
structure Unwritten (s s' : Sys) : Prop where
  pde : s'.pde = s.pde
  pte : ∀ mm vpn, s'.pte (.user mm vpn) = s.pte (.user mm vpn)

/-- The entry `x` is written; a directory stays. -/
structure Writes (s s' : Sys) (x : Loc) (e : Pte) : Prop where
  pde : s'.pde = s.pde
  pte : ∀ mm vpn, s'.pte (.user mm vpn) = Function.update s.pte x e (.user mm vpn)

variable {s s' s'' : Sys} {env : Env} {x : Loc} {e : Pte} {f o mm la shmem : ℕ} {perm : Perm}

theorem Unwritten.refl (s : Sys) : Unwritten s s := ⟨rfl, fun _ _ => rfl⟩

theorem Unwritten.trans (h : Unwritten s s') (h' : Unwritten s' s'') : Unwritten s s'' :=
  ⟨h'.pde.trans h.pde, fun m n => (h'.pte m n).trans (h.pte m n)⟩

theorem Unwritten.writes (h : Unwritten s s') (h' : Writes s' s'' x e) : Writes s s'' x e := by
  refine ⟨h'.pde.trans h.pde, fun m n => (h'.pte m n).trans ?_⟩
  by_cases hx : Loc.user m n = x
  · rw [hx, Function.update_self, Function.update_self]
  · rw [Function.update_of_ne hx, Function.update_of_ne hx]
    exact h.pte m n

theorem Writes.unwritten (h : Writes s s' x e) (h' : Unwritten s' s'') : Writes s s'' x e :=
  ⟨h'.pde.trans h.pde, fun m n => (h'.pte m n).trans (h.pte m n)⟩

theorem Writes.writes {e' : Pte} (h : Writes s s' x e) (h' : Writes s' s'' x e') :
    Writes s s'' x e' := by
  refine ⟨h'.pde.trans h.pde, fun m n => (h'.pte m n).trans ?_⟩
  by_cases hx : Loc.user m n = x
  · rw [hx, Function.update_self, Function.update_self]
  · have hold := h.pte m n
    rw [Function.update_of_ne hx] at hold
    rw [Function.update_of_ne hx, Function.update_of_ne hx]
    exact hold

theorem writes_setPte (s : Sys) (x : Loc) (e : Pte) : Writes s (s.setPte x e) x e :=
  ⟨rfl, fun _ _ => rfl⟩

/-- An entry of a shared object is in no address space. -/
theorem Writes.shared {i : ℕ} (h : Writes s s' (.shm shmem i) e) : Unwritten s s' :=
  ⟨h.pde, fun m n => by
    have hne : Loc.user m n ≠ .shm shmem i := nofun
    rw [h.pte, Function.update_of_ne hne]⟩

/-! ## The swap cache and its lists -/

theorem allocPage_unwritten {site : AllocSite} {r : Option ℕ} (h : s.allocPage env site = (r, s')) :
    Unwritten s s' := by
  unfold allocPage at h
  split at h
  · cases h
    exact .refl s
  · cases h
    exact ⟨rfl, fun _ _ => rfl⟩

theorem freePage_unwritten (s : Sys) (f : ℕ) : Unwritten s (s.freePage f) := ⟨rfl, fun _ _ => rfl⟩

theorem freeNewpage_unwritten (s : Sys) (newpage : Option ℕ) : Unwritten s (freeNewpage newpage s) := by
  cases newpage with
  | none => exact .refl s
  | some f => exact freePage_unwritten s f

theorem swapActiveListAdd_unwritten (h : s.swapActiveListAdd f = some s') : Unwritten s s' := by
  unfold swapActiveListAdd at h
  split at h
  · cases h
    exact ⟨rfl, fun _ _ => rfl⟩
  · cases h

theorem swapListDel_unwritten (h : s.swapListDel f = some s') : Unwritten s s' := by
  unfold swapListDel at h
  split at h
  · cases h
    exact ⟨rfl, fun _ _ => rfl⟩
  · cases h

theorem swapPageDel_unwritten (h : s.swapPageDel f = some s') : Unwritten s s' := by
  unfold swapPageDel at h
  split at h
  · cases h
    exact ⟨rfl, fun _ _ => rfl⟩
  · cases h

theorem swapFreePage_unwritten (h : s.swapFreePage f = some s') : Unwritten s s' := by
  unfold swapFreePage at h
  split at h
  · obtain ⟨s₁, hdel, rfl⟩ := Option.map_eq_some_iff.mp h
    exact (swapPageDel_unwritten hdel).trans (freePage_unwritten s₁ f)
  · cases h

theorem swapPageAdd_unwritten (h : s.swapPageAdd f o = some s') : Unwritten s s' := by
  unfold swapPageAdd at h
  split at h
  · cases h
  · cases h
    exact ⟨rfl, fun _ _ => rfl⟩

theorem swapDuplicate_unwritten (h : s.swapDuplicate o = some s') : Unwritten s s' := by
  unfold swapDuplicate at h
  obtain ⟨o', -, h⟩ := Option.bind_eq_some_iff.mp h
  obtain ⟨-, -, h⟩ := Option.bind_eq_some_iff.mp h
  cases h
  exact ⟨rfl, fun _ _ => rfl⟩

theorem swapRemoveEntry_unwritten (h : s.swapRemoveEntry o = some s') : Unwritten s s' := by
  unfold swapRemoveEntry at h
  obtain ⟨o', -, h⟩ := Option.bind_eq_some_iff.mp h
  obtain ⟨-, -, h⟩ := Option.bind_eq_some_iff.mp h
  have hset : Unwritten s (s.setMemMap o' (s.memMap o' - 1)) := ⟨rfl, fun _ _ => rfl⟩
  dsimp only at h
  split at h
  · refine hset.trans ?_
    unfold swapRemoveLast at h
    split at h
    · cases h
      exact ⟨rfl, fun _ _ => rfl⟩
    · split at h
      · cases h
        exact .refl _
      · obtain ⟨s₁, hdel, h⟩ := Option.bind_eq_some_iff.mp h
        obtain ⟨s₂, hfree, h⟩ := Option.bind_eq_some_iff.mp h
        cases h
        exact ((swapListDel_unwritten hdel).trans (swapFreePage_unwritten hfree)).trans
          ⟨rfl, fun _ _ => rfl⟩
  · cases h
    exact hset

theorem swapInPage_unwritten {ret : Int} (h : s.swapInPage env o = some (ret, f, s')) :
    Unwritten s s' := by
  unfold swapInPage at h
  obtain ⟨o', -, h⟩ := Option.bind_eq_some_iff.mp h
  split at h
  · cases h
    exact .refl s
  · split at h
    · rename_i s₁ halloc
      cases h
      exact allocPage_unwritten halloc
    · rename_i g s₁ halloc
      refine (allocPage_unwritten halloc).trans ?_
      unfold swapRead at h
      split at h
      · obtain ⟨s₂, hadd, h⟩ := Option.bind_eq_some_iff.mp h
        obtain ⟨s₃, hlist, h⟩ := Option.bind_eq_some_iff.mp h
        have hdata : Unwritten s₁ { s₁ with data := Function.update s₁.data g (s₁.disk o') } :=
          ⟨rfl, fun _ _ => rfl⟩
        cases h
        exact (hdata.trans (swapPageAdd_unwritten hadd)).trans (swapActiveListAdd_unwritten hlist)
      · cases h
        exact freePage_unwritten s₁ _

/-! ## One entry -/

theorem pageRemovePte_writes (h : s.pageRemovePte x = some s') : Writes s s' x .zero := by
  unfold pageRemovePte at h
  split at h
  · rename_i f perm _
    split at h
    · cases h
      have hdec : Unwritten s (s.pageRefDec f) := ⟨rfl, fun _ _ => rfl⟩
      refine Unwritten.writes ?_ (writes_setPte _ _ _)
      split
      · exact hdec.trans (freePage_unwritten _ f)
      · exact hdec
    · cases h
      refine Unwritten.writes ?_ (writes_setPte _ _ _)
      split
      · exact ⟨rfl, fun _ _ => rfl⟩
      · exact ⟨rfl, fun _ _ => rfl⟩
  · obtain ⟨s₁, hrem, rfl⟩ := Option.map_eq_some_iff.mp h
    exact (swapRemoveEntry_unwritten hrem).writes (writes_setPte _ _ _)
  · rename_i hzero
    cases h
    refine ⟨rfl, fun m n => ?_⟩
    by_cases hx : Loc.user m n = x
    · rw [hx, Function.update_self, hzero]
    · rw [Function.update_of_ne hx]

theorem insertPte_writes (h : s.insertPte x f perm = some s') : Writes s s' x (.page f perm) := by
  have hinc : Unwritten s (s.pageRefInc f) := ⟨rfl, fun _ _ => rfl⟩
  have hremoved : ∀ s₁, (s.pageRefInc f).pageRemovePte x = some s₁ →
      Writes s (s₁.setPte x (.page f perm)) x (.page f perm) := fun s₁ hrem =>
    (hinc.writes (pageRemovePte_writes hrem)).writes (writes_setPte _ _ _)
  unfold insertPte at h
  dsimp only at h
  split at h
  · cases h
    exact hinc.writes (writes_setPte _ _ _)
  · split at h
    · cases h
      have hdec : Unwritten (s.pageRefInc f) ((s.pageRefInc f).pageRefDec f) := ⟨rfl, fun _ _ => rfl⟩
      exact (hinc.trans hdec).writes (writes_setPte _ _ _)
    · obtain ⟨s₁, hrem, rfl⟩ := Option.map_eq_some_iff.mp h
      exact hremoved s₁ hrem
  · obtain ⟨s₁, hrem, rfl⟩ := Option.map_eq_some_iff.mp h
    exact hremoved s₁ hrem

/-- `page_insert` where there is a page table. -/
theorem pageInsert_writes {ret : Int} (htable : s.pde mm (la / PTSIZE) ≠ none)
    (h : s.pageInsert env mm f la perm = some (ret, s')) :
    ret = 0 ∧ Writes s s' (ptep mm la) (.page f perm) := by
  obtain ⟨t, ht⟩ := Option.ne_none_iff_exists'.mp htable
  unfold pageInsert getPte at h
  rw [ht] at h
  obtain ⟨s₁, hins, heq⟩ := Option.map_eq_some_iff.mp h
  cases heq
  exact ⟨rfl, insertPte_writes hins⟩

/-! ## Shared objects -/

theorem shmemEntryPage_unwritten (s : Sys) (env : Env) (shmem idx : ℕ) (create : Bool) :
    Unwritten s (s.shmemEntryPage env shmem idx create) := by
  unfold shmemEntryPage
  split
  · split
    · rename_i s₁ halloc
      exact allocPage_unwritten halloc
    · rename_i f s₁ halloc
      have hset := (writes_setPte s₁ (.shm shmem idx) (.page f ⟨false, false, false, false⟩)).shared
      exact ((allocPage_unwritten halloc).trans hset).trans ⟨rfl, fun _ _ => rfl⟩
  · exact .refl s

theorem shmemGetEntry_unwritten {addr : ℕ} {create : Bool} {r : Option Loc}
    (h : s.shmemGetEntry env shmem addr create = some (r, s')) :
    Unwritten s s' ∧ ∀ y, r = some y → ∃ i, y = .shm shmem i := by
  unfold shmemGetEntry at h
  split at h
  · dsimp only at h
    split at h
    · cases h
      exact ⟨shmemEntryPage_unwritten s env shmem _ create, fun y hy => by cases hy; exact ⟨_, rfl⟩⟩
    · split at h
      · split at h
        · rename_i s₁ halloc
          cases h
          exact ⟨allocPage_unwritten halloc, nofun⟩
        · rename_i f s₁ halloc
          cases h
          have hnode : Unwritten s₁ (s₁.addShmn shmem (addr / PGSIZE / 1024) f) :=
            ⟨rfl, fun _ _ => rfl⟩
          exact ⟨((allocPage_unwritten halloc).trans hnode).trans
            (shmemEntryPage_unwritten _ env shmem _ create), fun y hy => by cases hy; exact ⟨_, rfl⟩⟩
      · cases h
        exact ⟨.refl s, nofun⟩
  · cases h

/-! ## Page faults -/

/-- The entry `x` is written by a page fault, if at all: with the rights `perm`, or a swap entry. -/
def Faulted (s s' : Sys) (x : Loc) (perm : Perm) : Prop :=
  Unwritten s s' ∨ (∃ f, Writes s s' x (.page f perm)) ∨ ∃ o, Writes s s' x (.swap o)

theorem Unwritten.table (h : Unwritten s s') (htable : s.pde mm (la / PTSIZE) ≠ none) :
    s'.pde mm (la / PTSIZE) ≠ none := by
  rw [h.pde]
  exact htable

theorem pgdirAllocPage_faulted {ok : Bool} (htable : s.pde mm (la / PTSIZE) ≠ none)
    (h : s.pgdirAllocPage env mm la perm = some (ok, s')) : Faulted s s' (ptep mm la) perm := by
  unfold pgdirAllocPage at h
  split at h
  · rename_i s₁ halloc
    cases h
    exact Or.inl (allocPage_unwritten halloc)
  · rename_i g s₁ halloc
    have hs₁ := allocPage_unwritten halloc
    obtain ⟨⟨ret, s₂⟩, hins, h⟩ := Option.bind_eq_some_iff.mp h
    obtain ⟨rfl, hw⟩ := pageInsert_writes (hs₁.table htable) hins
    cases h
    exact Or.inr (Or.inl ⟨g, hs₁.writes hw⟩)

theorem pgfaultShared_faulted {vma : Vma} {ret : Int} (htable : s.pde mm (la / PTSIZE) ≠ none)
    (h : s.pgfaultShared env mm vma la perm = some (ret, s')) : Faulted s s' (ptep mm la) perm := by
  unfold pgfaultShared at h
  obtain ⟨⟨r, s₁⟩, hget, h⟩ := Option.bind_eq_some_iff.mp h
  have hs₁ := (shmemGetEntry_unwritten hget).1
  dsimp only at h
  split at h
  · cases h
    exact Or.inl hs₁
  · split at h
    · cases h
      exact Or.inl hs₁
    · obtain ⟨⟨r', s₂⟩, hins, heq⟩ := Option.map_eq_some_iff.mp h
      cases heq
      exact Or.inr (Or.inl ⟨_, hs₁.writes (pageInsert_writes (hs₁.table htable) hins).2⟩)
    · obtain ⟨s₂, hdup, h⟩ := Option.bind_eq_some_iff.mp h
      cases h
      exact Or.inr (Or.inr ⟨_, (hs₁.trans (swapDuplicate_unwritten hdup)).writes (writes_setPte _ _ _)⟩)

theorem pgfaultEmpty_faulted {vma : Vma} {ret : Int} (htable : s.pde mm (la / PTSIZE) ≠ none)
    (h : s.pgfaultEmpty env mm vma la perm = some (ret, s')) : Faulted s s' (ptep mm la) perm := by
  unfold pgfaultEmpty at h
  split at h
  · obtain ⟨⟨ok, s₁⟩, halloc, h⟩ := Option.bind_eq_some_iff.mp h
    cases h
    exact pgdirAllocPage_faulted htable halloc
  · exact pgfaultShared_faulted htable h

theorem pgfaultMap_faulted {page : ℕ} {newpage : Option ℕ} {mayCopy : Bool} {ret ret' : Int}
    (htable : s.pde mm (la / PTSIZE) ≠ none)
    (h : s.pgfaultMap env mm la page newpage mayCopy ret perm = some (ret', s')) :
    Faulted s s' (ptep mm la) perm := by
  unfold pgfaultMap at h
  obtain ⟨copy, -, h⟩ := Option.bind_eq_some_iff.mp h
  split at h
  · cases newpage with
    | none =>
      cases h
      exact Or.inl (.refl s)
    | some f =>
      have hdata : Unwritten s { s with data := Function.update s.data f (s.data page) } :=
        ⟨rfl, fun _ _ => rfl⟩
      obtain ⟨⟨r, s₂⟩, hins, h⟩ := Option.bind_eq_some_iff.mp h
      cases h
      exact Or.inr (Or.inl ⟨f, hdata.writes (pageInsert_writes (hdata.table htable) hins).2⟩)
  · obtain ⟨⟨r, s₂⟩, hins, h⟩ := Option.bind_eq_some_iff.mp h
    cases h
    have hw := (pageInsert_writes htable hins).2
    exact Or.inr (Or.inl ⟨page, hw.unwritten (freeNewpage_unwritten s₂ newpage)⟩)

/-! ## Swapping out -/

/-- What becomes of an entry that no page fault writes: the processor sets bits of a present page, the
swap daemon clears them or swaps the page out. -/
inductive Demoted : Pte → Pte → Prop where
  | same (e : Pte) : Demoted e e
  | bits {f : ℕ} {p p' : Perm} (hu : p'.u = p.u) (hw : p'.w = p.w) : Demoted (.page f p) (.page f p')
  | out {f : ℕ} {p : Perm} (o : ℕ) : Demoted (.page f p) (.swap o)

/-- The page table of an address space, while its own page faults do nothing. -/
structure Leaves (mm : ℕ) (s s' : Sys) : Prop where
  pde : s'.pde mm = s.pde mm
  pte : ∀ vpn, Demoted (s.pte (.user mm vpn)) (s'.pte (.user mm vpn))

theorem Unwritten.leaves (h : Unwritten s s') (mm : ℕ) : Leaves mm s s' :=
  ⟨by rw [h.pde], fun vpn => by rw [h.pte]; exact .same _⟩

end Ucore.Sys
