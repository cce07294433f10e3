import Ucore.Mm.PmmRange

/-!
# Swap reference accounting

Every state that paging can reach from a machine that has just initialised swapping, by page faults
in private areas, by the page table functions and by the functions of the swap daemon, in any order
and with any outcome of allocations and of swap I/O:

* `page->ref` of a user frame is the number of page table entries that map it;
* `mem_map` is the number of page table entries that hold a swap entry, or `SWAP_UNUSED`;
* the swap cache, its two lists and the flags of the pages agree.
-/

namespace Ucore.Sys

/-- The state after `swap_init`, with nothing mapped. -/
structure Init (s : Sys) : Prop where
  maxSwapOffset : 1024 ≤ s.maxSwapOffset
  pageRef : ∀ f, s.pageRef f = 0
  pageSwap : ∀ f, s.pageSwap f = false
  memMap : ∀ o, o < s.maxSwapOffset → s.memMap o = SWAP_UNUSED
  hashList : ∀ b, s.hashList b = []
  activeList : s.activeList = ⟨[], 0⟩
  inactiveList : s.inactiveList = ⟨[], 0⟩
  next : s.next = 1
  pde : ∀ mm idx, s.pde mm idx = none
  shmn : ∀ shmem idx, s.shmn shmem idx = none
  pte : ∀ x, s.pte x = .zero

/-- One call, run to its end.  The frame of a `page_insert` is in use and holds no page table, the
entry of a `swap_in_page` has been allocated, and areas are private. -/
inductive Step (s : Sys) : Sys → Prop
  | doPgfault {s' : Sys} (env : Env) (mm : ℕ) (vma : Option Vma) (errorCode addr : ℕ) (ret : Int)
      (hpriv : ∀ v, vma = some v → v.vmFlags &&& VM_SHARE = 0)
      (hrun : s.doPgfault env mm vma errorCode addr = some (ret, s')) : Step s s'
  | pageInsert {s' : Sys} (env : Env) (mm f la : ℕ) (perm : Perm) (ret : Int)
      (hfree : s.free f = false) (htab : ¬ s.IsTable f)
      (hrun : s.pageInsert env mm f la perm = some (ret, s')) : Step s s'
  | pgdirAllocPage {s' : Sys} (env : Env) (mm la : ℕ) (perm : Perm) (ok : Bool)
      (hrun : s.pgdirAllocPage env mm la perm = some (ok, s')) : Step s s'
  | pageRemove {s' : Sys} (mm la : ℕ) (hrun : s.pageRemove mm la = some s') : Step s s'
  | unmapRange {s' : Sys} (mm start stop : ℕ) (hrun : s.unmapRange mm start stop = some s') :
      Step s s'
  | copyRange {s' : Sys} (env : Env) (dst src start stop : ℕ) (share : Bool) (ret : Int)
      (hrun : s.copyRange env dst src start stop share = some (ret, s')) : Step s s'
  | swapOutVma {s' : Sys} (env : Env) (mm : ℕ) (vma : Vma) (addr require : ℕ)
      (hpriv : vma.vmFlags &&& VM_SHARE = 0)
      (hrun : s.swapOutVma env mm vma addr require = some s') : Step s s'
  | pageLaunder {s' : Sys} (env : Env) (hrun : s.pageLaunder env = some s') : Step s s'
  | refillInactiveScan {s' : Sys} (hrun : s.refillInactiveScan = some s') : Step s s'
  | swapInPage {s' : Sys} (env : Env) (o : ℕ) (ret : Int) (f : ℕ)
      (hused : s.memMap o ≠ SWAP_UNUSED) (hrun : s.swapInPage env o = some (ret, f, s')) :
      Step s s'
  | tryAllocSwapEntry {s' : Sys} (o : ℕ) (hrun : s.tryAllocSwapEntry = some (o, s')) : Step s s'

/-- Any number of calls. -/
def Steps : Sys → Sys → Prop := Relation.ReflTransGen Step

variable {s s' : Sys}

theorem Init.isTable (h : s.Init) (f : ℕ) : ¬ s.IsTable f := by
  rintro (⟨mm, idx, hpde⟩ | ⟨shmem, idx, hshmn⟩)
  · rw [h.pde] at hpde
    cases hpde
  · rw [h.shmn] at hshmn
    cases hshmn

theorem refs_of_zero {P : Loc → Pte} (h : ∀ x, P x = .zero) (f : ℕ) : refs P f = 0 := by
  have hempty : {x | (P x).Maps f} = ∅ := by
    ext x
    simp [h x, Pte.Maps]
  unfold refs Occurrence.occ
  rw [hempty, Set.ncard_empty]

theorem holders_of_zero {P : Loc → Pte} (h : ∀ x, P x = .zero) (o : ℕ) : holders P o = 0 := by
  have hempty : {x | (P x).Holds o} = ∅ := by
    ext x
    simp [h x, Pte.Holds]
  unfold holders Occurrence.occ
  rw [hempty, Set.ncard_empty]

theorem Init.paging (h : s.Init) : s.Paging := by
  have hmax := h.maxSwapOffset
  refine ⟨?_, ⟨⟨fun b f => ?_, fun b => ?_, fun f hf => ?_, fun f g o hf => ?_, fun f => ?_,
    fun f => ?_, ?_, ?_, ?_, ?_⟩, ⟨fun f _ => ?_, fun f hf => ?_, fun f _ => ?_, fun o ho => ?_,
    fun o ho => ?_, ?_⟩⟩, fun x hx => ?_, fun mm idx mm' idx' f hf => ?_, fun mm idx sh i f hf => ?_,
    fun sh i sh' i' f hf => ?_⟩
  · simp [h.pte]
  · simp [h.hashList, h.pageSwap]
  · simp [h.hashList]
  · simp [h.pageSwap] at hf
  · have hswap := hf.1
    simp [h.pageSwap] at hswap
  · simp [h.activeList, h.pageSwap]
  · simp [h.inactiveList, h.pageSwap]
  · simp [h.activeList]
  · simp [h.inactiveList]
  · simp [h.activeList]
  · simp [h.inactiveList]
  · rw [h.pageRef, refs_of_zero h.pte]
    rfl
  · exact absurd hf (h.isTable f)
  · exact ⟨refs_of_zero h.pte f, h.pageSwap f⟩
  · refine Or.inl ⟨h.memMap o ho.2, holders_of_zero h.pte o, fun f hf => ?_⟩
    have hswap := hf.1
    simp [h.pageSwap] at hswap
  · exact absurd (holders_of_zero h.pte o) ho
  · rw [h.next]
    exact ⟨by omega, by omega⟩
  · exact absurd (h.pte x) hx
  · rw [h.pde] at hf
    cases hf
  · rw [h.pde] at hf
    cases hf
  · rw [h.shmn] at hf
    cases hf

/-- `pgdir_alloc_page` over any entry. -/
theorem Paging.pgdirAllocPage_paging {env : Env} {mm la : ℕ} {perm : Perm} {ok : Bool}
    (h : s.Paging) (hrun : s.pgdirAllocPage env mm la perm = some (ok, s')) : s'.Paging := by
  unfold pgdirAllocPage at hrun
  split at hrun
  · rename_i s₁ halloc
    cases hrun
    exact (h.allocPage_spec halloc).1.paged.paging
  · rename_i f s₁ halloc
    obtain ⟨hq, hfresh⟩ := h.allocPage_spec halloc
    have hf := (hfresh f rfl).1
    obtain ⟨⟨r, s₂⟩, hins, hend⟩ := Option.bind_eq_some_iff.mp hrun
    obtain ⟨hpaged, hcase⟩ := hq.paged.paging.pageInsert_spec hf.inUse hf.noTable hins
    dsimp only at hend
    split at hend
    · rename_i hr
      cases hend
      rcases hcase with ⟨-, hq'⟩ | ⟨h0, -⟩
      · have hf' := hq'.fresh f hf
        exact (hpaged.paging.freeFresh hf'.uncached hf'.unmapped hf'.noTable).1.paging
      · exact absurd h0 hr
    · cases hend
      exact hpaged.paging

/-- **One call keeps the invariant of paging.** -/
theorem Paging.step (h : s.Paging) (hstep : Step s s') : s'.Paging := by
  cases hstep with
  | doPgfault env mm vma errorCode addr ret hpriv hrun =>
    exact (h.doPgfault_spec hpriv hrun).paged.paging
  | pageInsert env mm f la perm ret hfree htab hrun =>
    exact (h.pageInsert_spec hfree htab hrun).1.paging
  | pgdirAllocPage env mm la perm ok hrun => exact h.pgdirAllocPage_paging hrun
  | pageRemove mm la hrun => exact (h.pageRemove_spec hrun).1.paging
  | unmapRange mm start stop hrun => exact (h.unmapRange_spec hrun).1.paging
  | copyRange env dst src start stop share ret hrun => exact (h.copyRange_spec hrun).paging
  | swapOutVma env mm vma addr require hpriv hrun =>
    exact (h.swapOutVma_spec hpriv hrun).paging h
  | pageLaunder env hrun =>
    have hl := h.swap.pageLaunder_spec hrun
    exact h.same hl.inv hl.tables
  | refillInactiveScan hrun =>
    obtain ⟨hinv, ac, al, il, rfl⟩ := h.swap.refillInactiveScan_spec hrun
    exact h.same hinv ⟨rfl, rfl, rfl, rfl, rfl, fun _ _ _ hc => Or.inl hc⟩
  | swapInPage env o ret f hused hrun => exact (h.swapInPage_spec hused hrun).1.paged.paging
  | tryAllocSwapEntry o hrun =>
    obtain ⟨o', s₁, hrun', hinv, hkeeps, -⟩ := h.swap.tryAllocSwapEntry_spec
    rw [hrun] at hrun'
    cases hrun'
    exact h.same hinv hkeeps.toSameTables

theorem Paging.steps (h : s.Paging) (hsteps : Steps s s') : s'.Paging := by
  induction hsteps with
  | refl => exact h
  | tail _ hstep ih => exact ih.step hstep

/-- The page is in the hash of the swap cache. -/
def InHash (s : Sys) (f : ℕ) : Prop := ∃ b, f ∈ s.hashList b

/-- The accounting of references to frames and to swap entries. -/
structure Accounted (s : Sys) : Prop where
  finite : {x | s.pte x ≠ .zero}.Finite
  ref : ∀ f, ¬ s.IsTable f → s.pageRef f = refs s.pte f
  unused : ∀ o, 1 ≤ o → o < s.maxSwapOffset → (s.memMap o = SWAP_UNUSED ↔
    (∀ x, s.pte x ≠ .swap o) ∧ ∀ f, s.InHash f → s.pageIndex f ≠ o)
  count : ∀ o, 1 ≤ o → o < s.maxSwapOffset → s.memMap o ≠ SWAP_UNUSED →
    s.memMap o = holders s.pte o
  oneEach : ∀ f g, s.InHash f → s.InHash g → s.pageIndex f = s.pageIndex g → f = g
  noneLost : ∀ o, 1 ≤ o → o < s.maxSwapOffset → s.memMap o = 0 →
    ∃ f, s.InHash f ∧ s.pageIndex f = o
  hash : ∀ f, s.pageSwap f = true ↔ s.InHash f
  listed : ∀ f, s.InHash f ↔ Xor (f ∈ s.activeList.pages) (f ∈ s.inactiveList.pages)
  active : ∀ f, f ∈ s.activeList.pages ↔ s.InHash f ∧ s.pageActive f = true
  inactive : ∀ f, f ∈ s.inactiveList.pages ↔ s.InHash f ∧ s.pageActive f = false
  nodup : (∀ b, (s.hashList b).Nodup) ∧ s.activeList.pages.Nodup ∧ s.inactiveList.pages.Nodup
  nrPages : s.activeList.nrPages = s.activeList.pages.length ∧
    s.inactiveList.nrPages = s.inactiveList.pages.length

theorem CacheInv.inHash {off : Option ℕ} (h : s.CacheInv off) (f : ℕ) :
    s.pageSwap f = true ↔ s.InHash f := by
  refine ⟨fun hf => ⟨_, (h.hash _ f).mpr ⟨hf, rfl⟩⟩, ?_⟩
  rintro ⟨b, hb⟩
  exact ((h.hash b f).mp hb).1

theorem Paging.accounted (h : s.Paging) : s.Accounted := by
  have hc := h.swap.cache
  have hn := h.swap.counts
  refine ⟨h.finite, hn.ref, fun o hlo hhi => ⟨fun hun => ?_, fun hno => ?_⟩,
    fun o hlo hhi hne => (hn.entry_of_ne ⟨hlo, hhi⟩ hne).1, fun f g hf hg hidx => ?_,
    fun o hlo hhi h0 => ?_, hc.inHash, fun f => ?_, fun f => ?_, fun f => ?_,
    ⟨hc.hashNodup, hc.activeNodup, hc.inactiveNodup⟩, hc.nrActive, hc.nrInactive⟩
  · rcases hn.entry o ⟨hlo, hhi⟩ with ⟨-, h0, hno⟩ | ⟨hmap, hlt, -⟩
    · refine ⟨fun x hx => holders_pos h.finite hx h0, fun f hf hidx => hno f ⟨?_, hidx⟩⟩
      exact (hc.inHash f).mpr hf
    · omega
  · rcases hn.entry o ⟨hlo, hhi⟩ with ⟨hun, -, -⟩ | ⟨-, -, hcached⟩
    · exact hun
    · have h0 : holders s.pte o = 0 :=
        (Occurrence.occ_eq_zero (finite_holds h.finite o)).mpr fun x hx => hno.1 x hx
      obtain ⟨f, hf, hidx⟩ := hcached h0
      exact absurd hidx (hno.2 f ((hc.inHash f).mp hf))
  · exact hc.unique f g (s.pageIndex g) ⟨(hc.inHash f).mpr hf, hidx⟩ ⟨(hc.inHash g).mpr hg, rfl⟩
  · have hne : s.memMap o ≠ SWAP_UNUSED := by rw [h0]; decide
    obtain ⟨hcount, -, hcached⟩ := hn.entry_of_ne ⟨hlo, hhi⟩ hne
    obtain ⟨f, hf, hidx⟩ := hcached (by omega)
    exact ⟨f, (hc.inHash f).mp hf, hidx⟩
  · rw [hc.active f, hc.inactive f, ← hc.inHash f]
    cases s.pageSwap f <;> cases s.pageActive f <;> simp [Xor]
  · rw [hc.active f, hc.inHash f]
    simp
  · rw [hc.inactive f, hc.inHash f]
    simp

/-- **Swap reference accounting.**  In every state reached by any sequence of calls, the counters of
frames and of swap entries are the numbers of their references, and the swap cache is in order. -/
theorem swap_accounting {s₀ s : Sys} (h₀ : s₀.Init) (h : Steps s₀ s) : s.Accounted :=
  (h₀.paging.steps h).accounted

/-- A machine with 1024 swap slots, after `swap_init`. -/
def boot : Sys where
  maxSwapOffset := 1024
  pageRef _ := 0
  pageReserved _ := false
  pageSwap _ := false
  pageActive _ := false
  pageDirty _ := false
  pageIndex _ := 0
  data _ _ := 0
  free _ := true
  memMap _ := SWAP_UNUSED
  hashList _ := []
  activeList := ⟨[], 0⟩
  inactiveList := ⟨[], 0⟩
  next := 1
  disk _ _ := 0
  pde _ _ := none
  shmn _ _ := none
  shmLen _ := 0
  pte _ := .zero

theorem boot_init : boot.Init :=
  ⟨le_rfl, fun _ => rfl, fun _ => rfl, fun _ _ => rfl, fun _ => rfl, rfl, rfl, rfl, fun _ _ => rfl,
    fun _ _ => rfl, fun _ => rfl⟩

/-- Page tables come from the frame `0`, user pages from the frame `1`. -/
def bootEnv : Env where
  pick
    | .table _ => some 0
    | _ => some 1
  junk _ _ := 0
  readOk := true
  write _ := none

/-- A private area of one page. -/
def bootVma : Vma := ⟨some 0, USERBASE, USERBASE + PGSIZE, VM_READ ||| VM_WRITE, 0, 0⟩

/-- The accounting after the first page fault of a process. -/
theorem swap_accounting_first_fault : ∃ s, Steps boot s ∧
    s.pte (.user 0 512) = .page 1 ⟨true, true, false, false⟩ ∧ s.Accounted := by
  have hstep : ∃ s, boot.doPgfault bootEnv 0 (some bootVma) 6 USERBASE = some (0, s) ∧
      s.pte (.user 0 512) = .page 1 ⟨true, true, false, false⟩ := ⟨_, rfl, rfl⟩
  obtain ⟨s, hrun, hpte⟩ := hstep
  have hsteps : Steps boot s := .single (.doPgfault bootEnv 0 (some bootVma) 6 USERBASE 0
    (fun v hv => by cases hv; decide) hrun)
  exact ⟨s, hsteps, hpte, swap_accounting boot_init hsteps⟩

end Ucore.Sys
