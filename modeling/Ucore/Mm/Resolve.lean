import Ucore.Mm.PageMap

/-!
# What `do_pgfault` has done

* `Resolved` — the page is mapped for the access that faulted.
* `Restored` — nothing has changed but for new page tables.

`fault_resolved_iff` — when `do_pgfault` of an address in a private VMA tells which of the two
holds.  It does not for a write to a page on a slot that others hold, when there is no frame for
the copy: the return code of `swap_in_page` is left in `ret`, so the call returns `0` with nothing
mapped (`Starved`).

`shared_swap_never` — a fault on an empty entry of a shared VMA, whose page the object has as a swap
entry, never succeeds: `swap_duplicate` is called for the empty entry instead.
-/

namespace Ucore

namespace Sys

/-- The entry maps a page for the access that faulted. -/
def Resolved (s : Sys) (x : Loc) (write : Bool) : Prop :=
  ∃ f perm, s.pte x = .page f perm ∧ perm.u = true ∧ (write = true → perm.w = true)

/-- Entries, counts, slots and the frames in use are as before; new frames are page tables. -/
structure Restored (s s' : Sys) : Prop where
  pte : s'.pte = s.pte
  memMap : s'.memMap = s.memMap
  disk : s'.disk = s.disk
  hashList : s'.hashList = s.hashList
  activeList : s'.activeList = s.activeList
  inactiveList : s'.inactiveList = s.inactiveList
  inUse : ∀ f, s.free f = false → s'.free f = false
  pageRef : ∀ f, s.free f = false → s'.pageRef f = s.pageRef f
  pageSwap : ∀ f, s.free f = false → s'.pageSwap f = s.pageSwap f
  pageDirty : ∀ f, s.free f = false → s'.pageDirty f = s.pageDirty f
  data : ∀ f, s.free f = false → s'.data f = s.data f
  table : ∀ f, s.IsTable f → s'.IsTable f
  new : ∀ f, s.free f = true → s'.free f = true ∨ s'.IsTable f

/-- The page of the swap entry has other users: it is mapped, or held by another entry. -/
def SlotShared (s : Sys) (o : ℕ) : Prop :=
  match s.swapHashFind o with
  | some f => s.pageRef f + (s.memMap o : Int) > 1
  | none => s.memMap o > 1

/-- `swap_in_page` finds the page in the cache, or reads it into a new frame. -/
def SwapInOk (s : Sys) (env : Env) (o : ℕ) : Prop :=
  s.swapHashFind o ≠ none ∨ (s.allocPage env .swapIn).1 ≠ none ∧ env.readOk = true

/-- A write to a page on a slot that has other users, with no frame for the copy. -/
def Starved (s : Sys) (env : Env) (x : Loc) (code : ℕ) : Prop :=
  ∃ o, s.pte x = .swap o ∧ code / 2 % 2 = 1 ∧ (s.allocPage env .newpage).1 = none ∧
    s.SwapInOk env o ∧ s.SlotShared o

variable {s s' s₁ : Sys} {env : Env} {mm la f : ℕ} {perm : Perm} {x : Loc}

/-! ## Nothing has changed -/

theorem Restored.refl (s : Sys) : Restored s s :=
  ⟨rfl, rfl, rfl, rfl, rfl, rfl, fun _ h => h, fun _ _ => rfl, fun _ _ => rfl, fun _ _ => rfl,
    fun _ _ => rfl, fun _ h => h, fun _ h => Or.inl h⟩

/-- `alloc_page` without a frame does nothing. -/
theorem allocPage_none {site : AllocSite} (h : (s.allocPage env site).1 = none) :
    s.allocPage env site = (none, s) := by
  unfold allocPage at h ⊢
  split
  · rfl
  · rename_i f hpick
    rw [hpick] at h
    cases h

/-- A frame is allocated, and given back after calls that have changed nothing. -/
theorem Restored.allocFree {site : AllocSite} (halloc : s.allocPage env site = (some f, s₁))
    (h : Restored s₁ s') : Restored s (s'.freePage f) := by
  unfold allocPage at halloc
  split at halloc
  · cases halloc
  rename_i g hpick
  have hfree : s.free g = true := (Option.filter_eq_some_iff.mp hpick).2
  cases halloc
  -- a frame in use is another one
  have hne : ∀ k, s.free k = false → k ≠ f := by
    rintro k hk rfl
    rw [hfree] at hk
    cases hk
  have huse : ∀ k, s.free k = false → Function.update s.free f false k = false := fun k hk => by
    rw [Function.update_of_ne (hne k hk), hk]
  refine ⟨h.pte, h.memMap, h.disk, h.hashList, h.activeList, h.inactiveList, fun k hk => ?_,
    fun k hk => ?_, fun k hk => ?_, fun k hk => ?_, fun k hk => ?_, h.table, fun k hk => ?_⟩
  · exact (Function.update_of_ne (hne k hk) _ _).trans (h.inUse k (huse k hk))
  · exact (Function.update_of_ne (hne k hk) _ _).trans (h.pageRef k (huse k hk))
  · exact (Function.update_of_ne (hne k hk) _ _).trans (h.pageSwap k (huse k hk))
  · exact (Function.update_of_ne (hne k hk) _ _).trans (h.pageDirty k (huse k hk))
  · exact (h.data k (huse k hk)).trans (Function.update_of_ne (hne k hk) _ _)
  · by_cases hkf : k = f
    · subst hkf
      exact Or.inl (Function.update_self ..)
    · have hk' : Function.update s.free f false k = true := by rw [Function.update_of_ne hkf, hk]
      exact (h.new k hk').imp_left fun hk'' => (Function.update_of_ne hkf _ _).trans hk''

/-- `get_pte` may make a page table. -/
theorem Paging.getPte_restored {ok : Bool} (h : s.Paging)
    (hrun : s.getPte env mm la true = (ok, s')) : Restored s s' := by
  have hpte := (h.getPte_spec hrun).1.pte
  unfold getPte at hrun
  split at hrun
  · cases hrun
    exact .refl s
  rename_i hnone
  rw [if_pos rfl] at hrun
  split at hrun
  · rename_i s₁ halloc
    cases hrun
    rw [allocPage_none (by rw [halloc])] at halloc
    cases halloc
    exact .refl s
  · rename_i f s₁ halloc
    cases hrun
    unfold allocPage at halloc
    split at halloc
    · cases halloc
    rename_i g hpick
    have hfree : s.free g = true := (Option.filter_eq_some_iff.mp hpick).2
    cases halloc
    have hne : ∀ k, s.free k = false → k ≠ f := by
      rintro k hk rfl
      rw [hfree] at hk
      cases hk
    have hidx : ∀ m i k, s.pde m i = some k →
        Function.update s.pde mm (Function.update (s.pde mm) (la / PTSIZE) (some f)) m i = some k := by
      intro m i k hk
      by_cases hm : m = mm
      · subst hm
        have hi : i ≠ la / PTSIZE := by rintro rfl; rw [hnone] at hk; cases hk
        rw [Function.update_self, Function.update_of_ne hi, hk]
      · rw [Function.update_of_ne hm, hk]
    refine ⟨hpte, rfl, rfl, rfl, rfl, rfl, fun k hk => ?_, fun k hk => ?_, fun _ _ => rfl, fun _ _ => rfl,
      fun k hk => ?_, fun k hk => ?_, fun k hk => ?_⟩
    · exact (Function.update_of_ne (hne k hk) _ _).trans hk
    · exact Function.update_of_ne (hne k hk) _ _
    · exact Function.update_of_ne (hne k hk) _ _
    · refine hk.imp_left fun htable => ?_
      obtain ⟨m, i, hmi⟩ := htable
      exact ⟨m, i, hidx m i k hmi⟩
    · by_cases hkf : k = f
      · subst hkf
        refine Or.inr (Or.inl ⟨mm, la / PTSIZE, ?_⟩)
        show Function.update s.pde mm (Function.update (s.pde mm) (la / PTSIZE) (some k)) mm
          (la / PTSIZE) = some k
        rw [Function.update_self, Function.update_self]
      · exact Or.inl ((Function.update_of_ne hkf _ _).trans hk)

/-! ## The page is mapped -/

/-- `page_insert` into an existing table writes the entry. -/
theorem insertPte_pte (hrun : s.insertPte x f perm = some s') : s'.pte x = .page f perm := by
  unfold insertPte at hrun
  dsimp only at hrun
  split at hrun
  · cases hrun
    exact Function.update_self ..
  · split at hrun
    · cases hrun
      exact Function.update_self ..
    · obtain ⟨s₁, -, rfl⟩ := Option.map_eq_some_iff.mp hrun
      exact Function.update_self ..
  · obtain ⟨s₁, -, rfl⟩ := Option.map_eq_some_iff.mp hrun
    exact Function.update_self ..

theorem freeNewpage_pte (newpage : Option ℕ) : (freeNewpage newpage s).pte = s.pte := by
  cases newpage <;> rfl

/-- The end of `do_pgfault` maps a page, or fails for want of a frame for the copy. -/
theorem pgfaultMap_result {page : ℕ} {newpage : Option ℕ} {mayCopy : Bool} {fail r : Int}
    (hx : s.HasTable (ptep mm la))
    (hrun : s.pgfaultMap env mm la page newpage mayCopy fail perm = some (r, s')) :
    (r = 0 ∧ ∃ f, s'.pte (ptep mm la) = .page f perm) ∨
      (r = fail ∧ s' = s ∧ newpage = none ∧ s.mustCopy page mayCopy = some true) := by
  unfold pgfaultMap at hrun
  obtain ⟨copy, hcopy, hrest⟩ := Option.bind_eq_some_iff.mp hrun
  split at hrest
  · rename_i htrue
    subst htrue
    cases newpage with
    | none =>
      cases hrest
      exact Or.inr ⟨rfl, rfl, rfl, hcopy⟩
    | some f =>
      obtain ⟨⟨r', s₁⟩, hins, hend⟩ := Option.bind_eq_some_iff.mp hrest
      cases hend
      rw [pageInsert_existing (s := { s with data := Function.update s.data f (s.data page) }) hx] at hins
      obtain ⟨s₂, hins, hend⟩ := Option.map_eq_some_iff.mp hins
      cases hend
      exact Or.inl ⟨rfl, f, insertPte_pte hins⟩
  · obtain ⟨⟨r', s₁⟩, hins, hend⟩ := Option.bind_eq_some_iff.mp hrest
    cases hend
    rw [pageInsert_existing hx] at hins
    obtain ⟨s₂, hins, hend⟩ := Option.map_eq_some_iff.mp hins
    cases hend
    refine Or.inl ⟨rfl, page, ?_⟩
    rw [freeNewpage_pte]
    exact insertPte_pte hins

/-- A demanded page is mapped, or there was no frame for it. -/
theorem Paging.pgdirAllocPage_result {ok : Bool} (h : s.Paging) (hx : s.HasTable (ptep mm la))
    (hrun : s.pgdirAllocPage env mm la perm = some (ok, s')) :
    (ok = true ∧ ∃ f, s'.pte (ptep mm la) = .page f perm) ∨ (ok = false ∧ s' = s) := by
  unfold pgdirAllocPage at hrun
  split at hrun
  · rename_i s₁ halloc
    cases hrun
    rw [allocPage_none (by rw [halloc])] at halloc
    cases halloc
    exact Or.inr ⟨rfl, rfl⟩
  · rename_i f s₁ halloc
    rw [pageInsert_existing ((h.allocPage_spec halloc).1.hasTable hx)] at hrun
    obtain ⟨⟨r, s₂⟩, hins, hend⟩ := Option.bind_eq_some_iff.mp hrun
    obtain ⟨s₃, hins, hr⟩ := Option.map_eq_some_iff.mp hins
    cases hr
    cases hend
    exact Or.inl ⟨rfl, f, insertPte_pte hins⟩

/-- A failed `swap_in_page` changes nothing. -/
theorem swapInPage_failed {o : ℕ} {ret : Int} (hret : ret ≠ 0)
    (hrun : s.swapInPage env o = some (ret, f, s')) : Restored s s' := by
  obtain ⟨p, -, hrest⟩ := Option.bind_eq_some_iff.mp hrun
  split at hrest
  · cases hrest
    exact absurd rfl hret
  · split at hrest
    · rename_i s₁ halloc
      cases hrest
      rw [allocPage_none (by rw [halloc])] at halloc
      cases halloc
      exact .refl s
    · rename_i g s₁ halloc
      unfold swapRead at hrest
      split at hrest
      · obtain ⟨s₂, -, hrest⟩ := Option.bind_eq_some_iff.mp hrest
        obtain ⟨s₃, -, hrest⟩ := Option.bind_eq_some_iff.mp hrest
        cases hrest
        exact absurd rfl hret
      · cases hrest
        exact .allocFree halloc (.refl s₁)

/-! ## Swapping in -/

theorem Paging.swapOffset_held {o : ℕ} (h : s.Paging) (hx : s.pte x = .swap o) :
    s.swapOffset o = some o :=
  if_pos (h.swap.counts.range o (holders_pos h.finite hx))

/-- A cached page is to be copied iff its slot is shared. -/
theorem mustCopy_cached {o : ℕ} (hswap : s.pageSwap f = true) (hidx : s.pageIndex f = o)
    (hoff : s.swapOffset o = some o) :
    s.mustCopy f true = some (decide (s.pageRef f + (s.memMap o : Int) > 1)) := by
  unfold mustCopy swapPageCount
  rw [if_pos rfl, if_pos hswap, hidx, hoff]
  rfl

/-- A page that has been read is in the cache. -/
theorem swapRead_ok {o : ℕ} (hread : env.readOk = true) (hswap : s.pageSwap f = false) :
    ∃ s', s.swapRead env o f = some (0, f, s') ∧ s'.pte = s.pte ∧ s'.pageSwap f = true ∧
      s'.pageIndex f = o ∧ s'.pageRef = s.pageRef ∧ s'.memMap = s.memMap ∧
      s'.maxSwapOffset = s.maxSwapOffset := by
  unfold swapRead swapPageAdd
  rw [if_pos hread]
  simp only [hswap, Bool.false_eq_true, if_false, Option.bind_eq_bind, Option.bind_some]
  have hcached : ∀ s : Sys, (s.hashAdd f o).pageSwap f = true := fun s => Function.update_self ..
  unfold swapActiveListAdd
  rw [if_pos (hcached _)]
  exact ⟨_, rfl, rfl, hcached _, Function.update_self .., rfl, rfl, rfl⟩

/-- `swap_in_page` of an entry in use returns; it fails only without a frame or by the device. -/
theorem Paging.swapInPage_result {o : ℕ} (h : s.Paging) (hx : s.pte x = .swap o) (env : Env) :
    ∃ ret f s', s.swapInPage env o = some (ret, f, s') ∧ (ret = 0 ↔ s.SwapInOk env o) ∧
      (ret = 0 → s'.pte = s.pte ∧ (s'.mustCopy f true = some true ↔ s.SlotShared o)) := by
  have hoff := h.swapOffset_held hx
  unfold swapInPage
  rw [hoff]
  simp only [Option.bind_eq_bind, Option.bind_some]
  cases hfind : s.swapHashFind o with
  | some f =>
    obtain ⟨hswap, hidx⟩ := h.swap.cache.caches_of_find hfind
    have hok : s.SwapInOk env o := Or.inl (by rw [hfind]; exact Option.some_ne_none f)
    refine ⟨0, f, s, rfl, iff_of_true rfl hok, fun _ => ⟨rfl, ?_⟩⟩
    rw [mustCopy_cached hswap hidx hoff]
    unfold SlotShared
    rw [hfind]
    simp
  | none =>
    obtain ⟨r, s₁, halloc⟩ : ∃ r s₁, s.allocPage env .swapIn = (r, s₁) := ⟨_, _, rfl⟩
    have hok : s.SwapInOk env o ↔ r ≠ none ∧ env.readOk = true := by
      unfold SwapInOk
      rw [halloc, hfind]
      simp
    rw [halloc]
    cases r with
    | none =>
      exact ⟨_, _, _, rfl, iff_of_false (by decide) fun hs => (hok.mp hs).1 rfl, fun h0 => by cases h0⟩
    | some f =>
      obtain ⟨hf, hfree⟩ := (h.allocPage_spec halloc).2 f rfl
      obtain ⟨-, hkeeps, -, ⟨free, data, hs₁⟩, -⟩ := h.swap.allocPage_spec halloc
      cases hread : env.readOk with
      | false =>
        refine ⟨-E_SWAP_FAULT, 0, s₁.freePage f, ?_, iff_of_false (by decide) fun hs => ?_,
          fun h0 => absurd h0 (by decide)⟩
        · unfold swapRead
          rw [hread]
          rfl
        · have hread' := (hok.mp hs).2
          rw [hread] at hread'
          cases hread'
      | true =>
        -- a free frame has no mapping
        have href : s.pageRef f = 0 := by
          have htab : ¬ s.IsTable f := fun ht => by
            have huse := (h.swap.counts.table f ht).2.1
            rw [hfree] at huse
            cases huse
          rw [h.swap.counts.ref f htab, (h.swap.counts.free f hfree).1]
          rfl
        obtain ⟨s', hrun, hpte, hswap, hidx, hrefs, hmap, hmax⟩ :=
          s₁.swapRead_ok (o := o) hread hf.uncached
        have hoff' : s'.swapOffset o = some o := by
          unfold swapOffset at hoff ⊢
          rw [hmax, hkeeps.maxSwapOffset]
          exact hoff
        have hcount : s'.pageRef f = 0 ∧ s'.memMap o = s.memMap o := by
          rw [hrefs, hmap, hs₁]
          exact ⟨href, rfl⟩
        refine ⟨0, f, s', hrun, iff_of_true rfl (hok.mpr ⟨Option.some_ne_none f, hread⟩), fun _ =>
          ⟨hpte.trans hkeeps.pte, ?_⟩⟩
        rw [mustCopy_cached hswap hidx hoff', hcount.1, hcount.2]
        unfold SlotShared
        rw [hfind]
        simp

/-! ## The fault -/

theorem allowed_write {vma : Vma} {code addr : ℕ} (h : pgfaultAllowed vma code addr = true)
    (hwrite : code / 2 % 2 = 1) : vma.vmFlags &&& VM_WRITE ≠ 0 := by
  unfold pgfaultAllowed at h
  rw [Bool.and_eq_true] at h
  obtain ⟨-, h⟩ := h
  split at h
  · omega
  · omega
  · simpa using h

/-- The spare page for a copy, if the VMA is copied on write. -/
theorem allocNewpage_cases {cow : Bool} {newpage : Option ℕ}
    (hrun : s.allocNewpage env cow = (newpage, s₁)) :
    (newpage = none ∧ s₁ = s ∧ (cow = true → (s.allocPage env .newpage).1 = none)) ∨
      ∃ f, newpage = some f ∧ s.allocPage env .newpage = (some f, s₁) := by
  unfold allocNewpage at hrun
  split at hrun
  · cases newpage with
    | none =>
      have hnone : (s.allocPage env .newpage).1 = none := by rw [hrun]
      have hsame := allocPage_none hnone
      rw [hrun] at hsame
      cases hsame
      exact Or.inl ⟨rfl, rfl, fun _ => hnone⟩
    | some f => exact Or.inr ⟨f, rfl, hrun⟩
  · rename_i hcow
    cases hrun
    exact Or.inl ⟨rfl, rfl, fun htrue => absurd htrue hcow⟩

/-- A write to a present page: it becomes writable, or there was no frame for the copy. -/
theorem Paging.pgfaultEntry_page {vma : Vma} {code : ℕ} {ret : Int} {p : Perm} (h : s.Paging)
    (hx : s.HasTable (ptep mm la)) (hpte : s.pte (ptep mm la) = .page f p)
    (hrun : s.pgfaultEntry env mm vma code la perm = some (ret, s')) :
    (ret = 0 ∧ ∃ f, s'.pte (ptep mm la) = .page f perm) ∨ (ret ≠ 0 ∧ s' = s) := by
  unfold pgfaultEntry at hrun
  rw [hpte] at hrun
  dsimp only at hrun
  split at hrun
  · obtain ⟨newpage, s₁, hnew⟩ : ∃ newpage s₁, s.allocNewpage env (isCow vma) = (newpage, s₁) :=
      ⟨_, _, rfl⟩
    rw [hnew] at hrun
    have hx₁ := (h.allocNewpage_spec hnew).1.hasTable hx
    refine (pgfaultMap_result hx₁ hrun).imp_right fun hfail => ?_
    obtain ⟨rfl, rfl, rfl, -⟩ := hfail
    obtain ⟨-, hsame, -⟩ | ⟨f, hf, -⟩ := allocNewpage_cases hnew
    · exact ⟨by decide, hsame⟩
    · cases hf
  · cases hrun

/-- A fault on a swap entry: the page is mapped, or nothing has changed; or the call returns `0`
though there was no frame for the copy. -/
theorem Paging.pgfaultEntry_swap {vma : Vma} {code o : ℕ} {ret : Int} (h : s.Paging)
    (hx : s.HasTable (ptep mm la)) (hpte : s.pte (ptep mm la) = .swap o)
    (hrun : s.pgfaultEntry env mm vma code la perm = some (ret, s')) :
    (ret = 0 ∧ ∃ f, s'.pte (ptep mm la) =
        .page f { perm with w := perm.w && ! (! decide (code / 2 % 2 = 1) && isCow vma) }) ∨
      (ret ≠ 0 ∧ Restored s s') ∨ Starved s env (ptep mm la) code := by
  unfold pgfaultEntry at hrun
  rw [hpte] at hrun
  dsimp only at hrun
  obtain ⟨newpage, s₁, hnew⟩ : ∃ newpage s₁, s.allocNewpage env (isCow vma) = (newpage, s₁) :=
    ⟨_, _, rfl⟩
  rw [hnew] at hrun
  obtain ⟨hq₁, -⟩ := h.allocNewpage_spec hnew
  have h₁ := hq₁.paged.paging
  have hpte₁ : s₁.pte (ptep mm la) = .swap o := by rw [hq₁.pte, hpte]
  obtain ⟨r, f, s₂, hin, hok, hcopy⟩ := h₁.swapInPage_result hpte₁ env
  simp only [hin, Option.bind_eq_bind, Option.bind_some] at hrun
  split at hrun
  · rename_i hne
    cases hrun
    refine Or.inr (Or.inl ⟨hne, ?_⟩)
    have hfailed := swapInPage_failed hne hin
    obtain ⟨rfl, rfl, -⟩ | ⟨g, rfl, halloc⟩ := allocNewpage_cases hnew
    · exact hfailed
    · exact hfailed.allocFree halloc
  · rename_i hzero
    have hzero : r = 0 := not_not.mp hzero
    obtain ⟨hpte₂, hmust⟩ := hcopy hzero
    have hx₂ : s₂.HasTable (ptep mm la) :=
      (h₁.swapInPage_spec (by
        have hheld := h₁.swap.counts.memMap_held (holders_pos h₁.finite hpte₁)
        omega) hin).1.hasTable (hq₁.hasTable hx)
    refine (pgfaultMap_result hx₂ hrun).imp_right fun hfail => Or.inr ?_
    obtain ⟨rfl, rfl, rfl, hcopies⟩ := hfail
    obtain ⟨-, rfl, hnone⟩ | ⟨g, hg, -⟩ := allocNewpage_cases hnew
    · -- only a write to a page that is copied asks for a copy
      cases hmay : isCow vma && ! (! decide (code / 2 % 2 = 1) && isCow vma) with
      | false =>
        rw [hmay] at hcopies
        cases hcopies
      | true =>
        rw [hmay] at hcopies
        simp only [Bool.and_eq_true, Bool.not_and, Bool.not_not, Bool.or_eq_true, decide_eq_true_eq,
          Bool.not_eq_true'] at hmay
        obtain ⟨hcow, hwrite | hno⟩ := hmay
        · exact ⟨o, hpte, hwrite, hnone hcow, hok.mp hzero, hmust.mp hcopies⟩
        · rw [hcow] at hno
          cases hno
    · cases hg

/-- `do_pgfault` in a private area: the page is mapped for the access, or the call failed and
nothing has changed, or there was no frame for a copy. -/
theorem Paging.doPgfault_result {vma : Vma} {code addr : ℕ} {ret : Int} (h : s.Paging)
    (hpriv : vma.vmFlags &&& VM_SHARE = 0)
    (hrun : s.doPgfault env mm (some vma) code addr = some (ret, s')) :
    (ret = 0 ∧ s'.Resolved (ptep mm (rounddown addr)) (decide (code / 2 % 2 = 1))) ∨
      (ret ≠ 0 ∧ Restored s s') ∨
      pgfaultAllowed vma code addr = true ∧ Starved s env (ptep mm (rounddown addr)) code := by
  unfold doPgfault at hrun
  dsimp only at hrun
  split at hrun
  · rename_i hallow
    have hwrite : code / 2 % 2 = 1 → decide (vma.vmFlags &&& VM_WRITE ≠ 0) = true :=
      fun hw => decide_eq_true (allowed_write hallow hw)
    split at hrun
    · rename_i s₁ hget
      cases hrun
      exact Or.inr (Or.inl ⟨by decide, h.getPte_restored hget⟩)
    · rename_i s₁ hget
      obtain ⟨hq, htable⟩ := h.getPte_spec hget
      have hx := htable rfl
      have h₁ := hq.paged.paging
      have hrest := h.getPte_restored hget
      split at hrun
      · rename_i hzero
        unfold pgfaultEmpty at hrun
        rw [if_pos hpriv] at hrun
        obtain ⟨⟨ok, s₂⟩, hnew, hend⟩ := Option.bind_eq_some_iff.mp hrun
        cases hend
        rcases h₁.pgdirAllocPage_result hx hnew with ⟨rfl, f, hf⟩ | ⟨rfl, rfl⟩
        · exact Or.inl ⟨rfl, f, _, hf, rfl, fun hw => hwrite (of_decide_eq_true hw)⟩
        · exact Or.inr (Or.inl ⟨by decide, hrest⟩)
      · cases hpte : s₁.pte (ptep mm (rounddown addr)) with
        | zero =>
          rename_i hne
          exact absurd hpte hne
        | page f p =>
          rcases h₁.pgfaultEntry_page hx hpte hrun with ⟨rfl, g, hg⟩ | ⟨hne, rfl⟩
          · exact Or.inl ⟨rfl, g, _, hg, rfl, fun hw => hwrite (of_decide_eq_true hw)⟩
          · exact Or.inr (Or.inl ⟨hne, hrest⟩)
        | swap o =>
          -- the table of a swap entry exists, so `get_pte` has done nothing
          have hpte₀ : s.pte (ptep mm (rounddown addr)) = .swap o := by rw [← hq.pte, hpte]
          have hsame : s.getPte env mm (rounddown addr) true = (true, s) :=
            getPte_existing (h.table _ (by rw [hpte₀]; exact nofun))
          rw [hget] at hsame
          cases hsame
          rcases h.pgfaultEntry_swap hx hpte hrun with ⟨rfl, g, hg⟩ | hfail | hstarved
          · refine Or.inl ⟨rfl, g, _, hg, rfl, fun hw => ?_⟩
            simp only [hw, Bool.not_true, Bool.false_and, Bool.not_false, Bool.and_true]
            exact hwrite (of_decide_eq_true hw)
          · exact Or.inr (Or.inl hfail)
          · exact Or.inr (Or.inr ⟨hallow, hstarved⟩)
  · cases hrun
    exact Or.inr (Or.inl ⟨by decide, .refl s⟩)

/-- Without a frame for the copy `do_pgfault` returns `0` and leaves the swap entry. -/
theorem Paging.doPgfault_starved {vma : Vma} {code addr : ℕ} (h : s.Paging)
    (hpriv : vma.vmFlags &&& VM_SHARE = 0) (hallow : pgfaultAllowed vma code addr = true)
    (hstarved : Starved s env (ptep mm (rounddown addr)) code) :
    ∃ o s', s.doPgfault env mm (some vma) code addr = some (0, s') ∧
      s'.pte (ptep mm (rounddown addr)) = .swap o := by
  obtain ⟨o, hpte, hwrite, hnone, hok, hshared⟩ := hstarved
  have hx := h.table _ (show s.pte (ptep mm (rounddown addr)) ≠ .zero by rw [hpte]; exact nofun)
  have hcow := isCow_of_private hpriv (allowed_write hallow hwrite)
  obtain ⟨r, f, s', hin, hret, hcopy⟩ := h.swapInPage_result hpte env
  cases hret.mpr hok
  obtain ⟨hpte', hmust⟩ := hcopy rfl
  refine ⟨o, s', ?_, by rw [hpte', hpte]⟩
  unfold doPgfault
  dsimp only
  rw [if_pos hallow, getPte_existing hx]
  dsimp only
  rw [if_neg (by rw [hpte]; exact nofun)]
  unfold pgfaultEntry
  rw [hpte]
  have hnew : s.allocNewpage env (isCow vma) = (none, s) := by
    unfold allocNewpage
    rw [if_pos hcow, allocPage_none hnone]
  dsimp only
  rw [hnew]
  dsimp only
  rw [hin]
  have hcopies := hmust.mpr hshared
  simp [pgfaultMap, hcow, hwrite, hcopies]

/-! ## A shared page that was swapped out -/

/-- The place of the page of an address in the shared memory of its VMA. -/
def shmPlace (vma : Vma) (addr : ℕ) : Loc :=
  .shm vma.shmem ((rounddown addr - vma.vmStart + vma.shmemOff) / PGSIZE)

/-- What a fault on a shared page should do whose shared entry is the swap entry `e`: the entry is
copied, and has one holder more. -/
def SharesSwap (s : Sys) (env : Env) (mm : ℕ) (vma : Vma) (code addr e : ℕ) : Prop :=
  ∃ s', s.doPgfault env mm (some vma) code addr = some (0, s') ∧
    s'.pte (ptep mm (rounddown addr)) = .swap e ∧
    s'.memMap = Function.update s.memMap e (s.memMap e + 1) ∧
    ∀ f, s.free f = false → s'.pageRef f = s.pageRef f

/-- What `alloc_page` leaves alone. -/
theorem allocPage_tables {site : AllocSite} {r : Option ℕ} (hrun : s.allocPage env site = (r, s')) :
    s'.pte = s.pte ∧ s'.shmn = s.shmn ∧ s'.shmLen = s.shmLen := by
  unfold allocPage at hrun
  split at hrun
  · cases hrun
    exact ⟨rfl, rfl, rfl⟩
  · cases hrun
    exact ⟨rfl, rfl, rfl⟩

/-- `get_pte` leaves shared memory alone, and an empty entry empty. -/
theorem getPte_shared {ok : Bool} (hzero : s.pte (ptep mm la) = .zero)
    (hrun : s.getPte env mm la true = (ok, s')) : s'.pte (ptep mm la) = .zero ∧
      s'.shmn = s.shmn ∧ s'.shmLen = s.shmLen ∧ ∀ h i, s'.pte (.shm h i) = s.pte (.shm h i) := by
  unfold getPte at hrun
  split at hrun
  · cases hrun
    exact ⟨hzero, rfl, rfl, fun _ _ => rfl⟩
  rw [if_pos rfl] at hrun
  split at hrun
  · rename_i s₁ halloc
    cases hrun
    obtain ⟨hpte, hshmn, hlen⟩ := allocPage_tables halloc
    exact ⟨by rw [hpte, hzero], hshmn, hlen, fun h i => by rw [hpte]⟩
  · rename_i f s₁ halloc
    cases hrun
    obtain ⟨hpte, hshmn, hlen⟩ := allocPage_tables halloc
    refine ⟨?_, hshmn, hlen, fun h i => congrFun hpte _⟩
    show (if _ then Pte.zero else s₁.pte (ptep mm la)) = .zero
    split
    · rfl
    · rw [hpte, hzero]

/-- The swap entry of the object is never copied: `swap_duplicate` is called for the empty entry. -/
theorem pgfaultShared_swap {vma : Vma} {e : ℕ} (hnode : s.HasTable (shmPlace vma la))
    (hentry : s.pte (shmPlace vma la) = .swap e) (hal : rounddown la = la) :
    s.pgfaultShared env mm vma la perm = none := by
  unfold pgfaultShared shmemGetEntry
  unfold shmPlace at hnode hentry
  rw [hal] at hnode hentry
  split
  · obtain ⟨k, hk⟩ := Option.ne_none_iff_exists'.mp hnode
    dsimp only
    rw [hk]
    have hpage : ∀ create, s.shmemEntryPage env vma.shmem
        ((la - vma.vmStart + vma.shmemOff) / PGSIZE) create = s := by
      intro create
      unfold shmemEntryPage
      rw [if_neg (by rw [hentry]; exact fun h => nomatch h.1)]
    simp only [Option.bind_eq_bind, Option.bind_some, hpage, hentry]
    rfl
  · rfl

theorem rounddown_idem (a : ℕ) : rounddown (rounddown a) = rounddown a :=
  rounddown_of_aligned (rounddown_aligned a)

/-- **A shared page that was swapped out cannot be mapped.**  Whatever the state and the outcome of
the allocations, the call does not return `0`; where the checks pass and the page table exists or
can be made, it panics. -/
theorem shared_swap_never (s : Sys) (env : Env) (mm : ℕ) (vma : Vma) (code addr e : ℕ)
    (hshare : vma.vmFlags &&& VM_SHARE ≠ 0) (hzero : s.pte (ptep mm (rounddown addr)) = .zero)
    (hnode : s.HasTable (shmPlace vma addr)) (hentry : s.pte (shmPlace vma addr) = .swap e) :
    ¬ s.SharesSwap env mm vma code addr e ∧
      (pgfaultAllowed vma code addr = true → (s.getPte env mm (rounddown addr) true).1 = true →
        s.doPgfault env mm (some vma) code addr = none) := by
  obtain ⟨ok, s₁, hget⟩ : ∃ ok s₁, s.getPte env mm (rounddown addr) true = (ok, s₁) := ⟨_, _, rfl⟩
  obtain ⟨hzero₁, hshmn, -, hpte⟩ := getPte_shared hzero hget
  have hplace : shmPlace vma (rounddown addr) = shmPlace vma addr := by
    unfold shmPlace
    rw [rounddown_idem]
  have hpanic : ∀ perm, s₁.pgfaultShared env mm vma (rounddown addr) perm = none := by
    intro perm
    refine pgfaultShared_swap (e := e) ?_ ?_ (rounddown_idem addr)
    · rw [hplace]
      show s₁.shmn _ _ ≠ none
      rw [hshmn]
      exact hnode
    · rw [hplace]
      exact (hpte _ _).trans hentry
  have hcases : s.doPgfault env mm (some vma) code addr =
      if pgfaultAllowed vma code addr = true then (if ok then none else some (-E_NO_MEM, s₁))
      else some (-E_INVAL, s) := by
    unfold doPgfault
    dsimp only
    rw [hget]
    cases ok with
    | false => rfl
    | true =>
      dsimp only
      rw [if_pos hzero₁]
      unfold pgfaultEmpty
      rw [if_neg hshare, hpanic]
      rfl
  constructor
  · rintro ⟨s', hrun, -⟩
    rw [hcases] at hrun
    split at hrun
    · split at hrun
      · cases hrun
      · cases hrun
    · cases hrun
  · intro hallow hok
    rw [hcases, if_pos hallow, if_pos]
    rw [hget] at hok
    exact hok

/-- One round of the loop of `swap_out_vma`. -/
theorem swapOutLoop_step {vma : Vma} {t stop addr require : ℕ} (hreq : require ≠ 0)
    (hlt : addr < stop) (hpde : s.pde mm (addr / PTSIZE) = some t) :
    swapOutLoop env mm vma stop addr require s = (s.swapOutPte env mm vma addr).bind fun r =>
      swapOutLoop env mm vma stop (addr + PGSIZE) (if r.1 then require - 1 else require) r.2 := by
  rw [swapOutLoop, if_pos ⟨hlt, hreq⟩, hpde]
  rfl

theorem swapOutLoop_done {vma : Vma} {stop addr require : ℕ} (hreq : require = 0) :
    swapOutLoop env mm vma stop addr require s = some s := by
  rw [swapOutLoop, if_neg fun hcond => hcond.2 hreq]

/-- `swap_out_vma` of one page. -/
theorem swapOutVma_one {vma : Vma} {t : ℕ} (hrange : vma.vmStart ≤ la ∧ la < vma.vmEnd)
    (hlt : rounddown la < roundup vma.vmEnd) (hpde : s.pde mm (rounddown la / PTSIZE) = some t)
    (hout : s.swapOutPte env mm vma (rounddown la) = some (true, s')) :
    s.swapOutVma env mm vma la 1 = some s' := by
  unfold swapOutVma
  rw [if_neg (by omega), swapOutLoop_step Nat.one_ne_zero hlt hpde, hout, Option.bind_some,
    swapOutLoop_done]
  rw [if_pos rfl]

/-- A machine with one shared memory object of one page, the object 7. -/
def shmBoot : Sys := { boot with shmLen := fun h => if h = 7 then PGSIZE else 0 }

/-- The VMA of the object in the address space `mm`. -/
def shmVma (mm : ℕ) : Vma :=
  ⟨some mm, USERBASE, USERBASE + PGSIZE, VM_READ ||| VM_WRITE ||| VM_SHARE, 7, 0⟩

/-- Frames for the page table of the address space `mm` and for the object. -/
def shmEnv (mm : ℕ) : Env where
  pick
    | .table _ => some mm
    | .shmn => some 5
    | .shmPage => some 6
    | _ => none
  junk _ _ := 0
  readOk := true
  write _ := none

/-- One process touches the shared page, which is then swapped out of its address space and of the
object; another process has not touched it. -/
theorem shm_swapped_out : ∃ s₁ s₂,
    shmBoot.doPgfault (shmEnv 0) 0 (some (shmVma 0)) 6 USERBASE = some (0, s₁) ∧
    s₁.swapOutVma (shmEnv 0) 0 (shmVma 0) USERBASE 1 = some s₂ ∧
    s₂.pte (ptep 1 USERBASE) = .zero ∧ s₂.pte (shmPlace (shmVma 1) USERBASE) = .swap 1 ∧
    s₂.HasTable (shmPlace (shmVma 1) USERBASE) ∧
    s₂.doPgfault (shmEnv 1) 1 (some (shmVma 1)) 6 USERBASE = none := by
  have hrun : ∃ s₁ s₂, shmBoot.doPgfault (shmEnv 0) 0 (some (shmVma 0)) 6 USERBASE = some (0, s₁) ∧
      s₁.pde 0 0 = some 0 ∧ s₁.swapOutPte (shmEnv 0) 0 (shmVma 0) USERBASE = some (true, s₂) ∧
      s₂.pte (ptep 1 USERBASE) = .zero ∧ s₂.pte (shmPlace (shmVma 1) USERBASE) = .swap 1 ∧
      s₂.shmn 7 0 = some 5 ∧ s₂.doPgfault (shmEnv 1) 1 (some (shmVma 1)) 6 USERBASE = none :=
    ⟨_, _, rfl, rfl, rfl, rfl, rfl, rfl, rfl⟩
  obtain ⟨s₁, s₂, hfault, hpde, hout, hzero, hentry, hnode, hpanic⟩ := hrun
  have hround : rounddown USERBASE = USERBASE := by decide
  have hswap : s₁.swapOutVma (shmEnv 0) 0 (shmVma 0) USERBASE 1 = some s₂ :=
    swapOutVma_one ⟨by decide, by decide⟩ (by decide) (by rw [hround]; exact hpde)
      (by rw [hround]; exact hout)
  have hidx : rounddown USERBASE - (shmVma 1).vmStart + (shmVma 1).shmemOff = 0 := by decide
  have hplace : shmPlace (shmVma 1) USERBASE = .shm 7 0 := by
    unfold shmPlace
    rw [hidx]
    rfl
  refine ⟨s₁, s₂, hfault, hswap, hzero, hentry, ?_, hpanic⟩
  rw [hplace]
  show s₂.shmn 7 0 ≠ none
  rw [hnode]
  exact Option.some_ne_none 5

/-- The fault of the other process on the page panics. -/
theorem shared_swap_panics : ∃ s₁ s₂,
    shmBoot.doPgfault (shmEnv 0) 0 (some (shmVma 0)) 6 USERBASE = some (0, s₁) ∧
    s₁.swapOutVma (shmEnv 0) 0 (shmVma 0) USERBASE 1 = some s₂ ∧
    s₂.pte (ptep 1 USERBASE) = .zero ∧ s₂.pte (shmPlace (shmVma 1) USERBASE) = .swap 1 ∧
    s₂.doPgfault (shmEnv 1) 1 (some (shmVma 1)) 6 USERBASE = none ∧
    ¬ s₂.SharesSwap (shmEnv 1) 1 (shmVma 1) 6 USERBASE 1 := by
  obtain ⟨s₁, s₂, hfault, hswap, hzero, hentry, -, hpanic⟩ := shm_swapped_out
  refine ⟨s₁, s₂, hfault, hswap, hzero, hentry, hpanic, ?_⟩
  rintro ⟨s', hret, -⟩
  rw [hpanic] at hret
  cases hret

/-- The same fault, by the general result. -/
theorem shared_swap_never_forked : ∃ s₂ : Sys, s₂.pte (shmPlace (shmVma 1) USERBASE) = .swap 1 ∧
    ¬ s₂.SharesSwap (shmEnv 1) 1 (shmVma 1) 6 USERBASE 1 := by
  obtain ⟨s₁, s₂, -, -, hzero, hentry, htable, -⟩ := shm_swapped_out
  have hround : rounddown USERBASE = USERBASE := by decide
  exact ⟨s₂, hentry, (shared_swap_never s₂ (shmEnv 1) 1 (shmVma 1) 6 USERBASE 1 (by decide)
    (by rw [hround]; exact hzero) htable hentry).1⟩

end Sys

namespace Mm

open Sys

/-- **When a resolved fault is resolved.**  After `do_pgfault` in a private VMA the page is mapped
for the access, if the result is `0`, and nothing has changed otherwise; this holds iff the fault is
no write to a shared page on a slot without a frame for its copy. -/
theorem fault_resolved_iff (mm : Mm) (h : Inv mm) (s : Sys) (hs : s.Paging) (env : Env) (v : ℕ)
    (hv : v ∈ mm.mmapList) (hpriv : ¬ (mm.vma v).Shared) (addr : ℕ) (hhas : (mm.vma v).Has addr)
    (code : ℕ) :
    (∀ ret s' mm', mm.doPgfault env s code addr = some (ret, s', mm') →
      (ret = 0 → s'.Resolved (ptep mm.self (rounddown addr)) (decide (code / 2 % 2 = 1))) ∧
      (ret ≠ 0 → Restored s s')) ↔
    ¬ (pgfaultAllowed (mm.vma v) code addr = true ∧
      s.Starved env (ptep mm.self (rounddown addr)) code) := by
  have hpriv : (mm.vma v).vmFlags &&& VM_SHARE = 0 := not_not.mp hpriv
  rw [h.doPgfault_eq hv hhas]
  constructor
  · rintro hall ⟨hallow, hstarved⟩
    obtain ⟨o, s', hrun, hpte⟩ := hs.doPgfault_starved hpriv hallow hstarved
    obtain ⟨f, perm, hpage, -⟩ := (hall 0 s' _ (by rw [hrun]; rfl)).1 rfl
    rw [hpte] at hpage
    cases hpage
  · intro hno ret s' mm' hrun
    obtain ⟨r, hfault, hres⟩ := Option.map_eq_some_iff.mp hrun
    cases hres
    rcases hs.doPgfault_result hpriv hfault with ⟨hzero, hok⟩ | ⟨hne, hsame⟩ | hstarved
    · exact ⟨fun _ => hok, fun hne => absurd hzero hne⟩
    · exact ⟨fun hzero => absurd hzero hne, fun _ => hsame⟩
    · exact absurd hstarved hno

/-- An address space of one private page. -/
def pageMm : Mm := single USERBASE (USERBASE + PGSIZE) (VM_READ ||| VM_WRITE)

theorem pageMm_inv : pageMm.Inv :=
  single_inv ⟨by decide, by decide, by decide, by decide, by decide⟩

/-- There is a frame for one more page table, and none for a page. -/
def noPageEnv : Env where
  pick
    | .table _ => some 2
    | _ => none
  junk _ _ := 0
  readOk := true
  write _ := none

/-- A process touches its page, forks, and the page is swapped out of both address spaces. -/
theorem forked_swapped : ∃ s : Sys, s.Paging ∧ s.pte (.user 0 512) = .swap 1 ∧
    s.doPgfault noPageEnv 0 (some bootVma) 6 USERBASE = some (0, s) := by
  have hrun : ∃ s₁ s₂ s₃ s, boot.doPgfault bootEnv 0 (some bootVma) 6 USERBASE = some (0, s₁) ∧
      s₁.copyPage noPageEnv 1 0 USERBASE false = some (0, s₂) ∧
      s₂.swapOutPte noPageEnv 0 bootVma USERBASE = some (true, s₃) ∧
      s₃.swapOutPte noPageEnv 1 bootVma USERBASE = some (true, s) ∧
      s₁.pte (ptep 0 USERBASE) ≠ .zero ∧ s.pte (.user 0 512) = .swap 1 ∧
      s.doPgfault noPageEnv 0 (some bootVma) 6 USERBASE = some (0, s) :=
    ⟨_, _, _, _, rfl, rfl, rfl, rfl, nofun, rfl, rfl⟩
  obtain ⟨s₁, s₂, s₃, s, hfault, hcopy, hout₀, hout₁, hne, hpte, hwrite⟩ := hrun
  have h₁ := (boot_init.paging.doPgfault_spec (fun v hv => by cases hv; decide) hfault).paged.paging
  have h₂ : s₂.Paging := by
    rcases h₁.copyPage_spec hcopy with ⟨hret, -⟩ | ⟨-, -, hzero⟩ | ⟨-, s', -, -, hcopied⟩
    · exact absurd rfl hret
    · exact absurd hzero hne
    · exact hcopied.paged.paging
  have h₃ := (h₂.swapOutPte_spec (by decide) hout₀).paged.paging
  exact ⟨s, (h₃.swapOutPte_spec (by decide) hout₁).paged.paging, hpte, hwrite⟩

/-- A write to the page by one of them, with no frame for a copy: `do_pgfault` returns `0`, and the
entry is still the swap entry. -/
theorem fault_unresolved : ∃ s s' mm', s.Paging ∧
    pageMm.doPgfault noPageEnv s 6 USERBASE = some (0, s', mm') ∧
    s'.pte (ptep 0 USERBASE) = .swap 1 ∧ ¬ s'.Resolved (ptep 0 USERBASE) true := by
  obtain ⟨s, hs, hpte, hrun⟩ := forked_swapped
  have hhas : (pageMm.vma 0).Has USERBASE := ⟨by decide, by decide⟩
  refine ⟨s, s, pageMm.touched USERBASE, hs, ?_, hpte, ?_⟩
  · rw [pageMm_inv.doPgfault_eq (List.mem_singleton.mpr rfl) hhas]
    show (s.doPgfault noPageEnv 0 (some bootVma) 6 USERBASE).map _ = _
    rw [hrun]
    rfl
  · rintro ⟨f, perm, hpage, -⟩
    rw [show s.pte (ptep 0 USERBASE) = .swap 1 from hpte] at hpage
    cases hpage

/-- The first fault of a process on its page. -/
theorem fault_resolved_first : boot.pte (ptep 0 USERBASE) = .zero ∧
    ∀ ret s' mm', pageMm.doPgfault bootEnv boot 6 USERBASE = some (ret, s', mm') →
      (ret = 0 → s'.Resolved (ptep 0 USERBASE) true) ∧ (ret ≠ 0 → Restored boot s') := by
  refine ⟨rfl, (fault_resolved_iff pageMm pageMm_inv boot boot_init.paging bootEnv 0
    (List.mem_singleton.mpr rfl) (by decide) USERBASE ⟨by decide, by decide⟩ 6).mpr ?_⟩
  rintro ⟨-, o, hpte, -⟩
  cases hpte

end Mm

end Ucore
