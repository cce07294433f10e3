import Ucore.Fork.CopyVmas
import Ucore.Fork.ReturnPages

/-!
# `copy_mm`

`dup_mmap` can stop anywhere, and `exit_mmap`, `put_pgdir` and `mm_destroy` undo what it has done so far:
the VMAs that have been inserted cover every copy and every page table.
-/

namespace Ucore.Fork

open Lease
open Sys (Borrowed Emptied Reverted InPages InTables Grows)

/-- The VMAs cover the entries and the page tables of the address space. -/
structure Covered (vm : Mm) (s : Sys) (mm : ℕ) : Prop where
  entries : ∀ vpn, s.pte (.user mm vpn) ≠ .zero → ∃ v ∈ vm.mmapList, InPages (vm.vma v).vmStart (vm.vma v).vmEnd vpn
  tables : ∀ idx, s.pde mm idx ≠ none → ∃ v ∈ vm.mmapList, InTables (vm.vma v).vmStart (vm.vma v).vmEnd idx

/-- The entry is in a private VMA. -/
def Private (src : ℕ) (vm : Mm) (x : Loc) : Prop :=
  ∃ v ∈ vm.mmapList, ¬ (vm.vma v).Shared ∧ ∃ vpn, x = .user src vpn ∧ InPages (vm.vma v).vmStart (vm.vma v).vmEnd vpn

/-- The new address space at `mm`, with the structure in its place. -/
def MmNew (base : Heap) (taken : ℕ → Counters) (mm : ℕ) (c : Counters) (b : MmStruct) (x : MmStruct)
    (h : Heap) : Prop :=
  Mapped base (Function.update (fun _ => none) mm (some ⟨c, .mm b⟩)) taken x h

section dup

variable {base new h h' : Heap} {taken : ℕ → Counters} {mm src : ℕ} {x x' : MmStruct} {s₀ s s' : Sys} {vm : Mm}
  {o : Oracle} {ret : Int} {c : Counters}

/-- **The loop of `dup_mmap`**, from any place in the list on and wherever it stops. -/
theorem dupMmapLoop_spec (hvm : Mm.Inv vm) (hlive : ∀ v ∈ vm.mmapList, (vm.vma v).Shared →
    ShmemLive base (vm.vma v).shmem)
    (hsrc : src ≠ mm) : ∀ (vs : List ℕ) (x : MmStruct) (h : Heap) (s : Sys), (∀ v ∈ vs, v ∈ vm.mmapList) →
    vs.Pairwise (fun v w => (vm.vma v).Apart (vm.vma w)) →
    (∀ v ∈ vs, ∀ u ∈ x.vm.mmapList, (x.vm.vma u).Apart (vm.vma v)) → Mapped base new taken x h →
    Borrowed s₀ s mm (Private src vm) → Covered x.vm s mm →
    dupMmapLoop o mm src vm vs x h s = some (ret, x', h', s') →
    Mapped base new taken x' h' ∧ Borrowed s₀ s' mm (Private src vm) ∧ Covered x'.vm s' mm ∧ x'.pgdir = x.pgdir
  | [], x, h, s, _, _, _, hm, hb, hcov, hrun => by
    cases hrun
    exact ⟨hm, hb, hcov, rfl⟩
  | v :: vs, x, h, s, hmem, hpw, hapart, hm, hb, hcov, hrun => by
    obtain ⟨hv, hvs⟩ := List.pairwise_cons.mp hpw
    have hmember := hvm.member v (hmem v List.mem_cons_self)
    unfold dupMmapLoop at hrun
    obtain ⟨z, hz, hrest⟩ := Option.bind_eq_some_iff.mp hrun
    cases hmember.live.symm.trans hz
    obtain ⟨⟨r, h₁⟩, hdup, hnext⟩ := Option.bind_eq_some_iff.mp hrest
    rcases hm.dupVma hmember.ok (hapart v List.mem_cons_self) (hlive v (hmem v List.mem_cons_self)) hdup with
      ⟨rfl, rfl⟩ | ⟨y, n, rfl, hm', hpgdir, hlist, hstart, hstop, hsame⟩
    · cases hnext
      exact ⟨hm, hb, hcov, rfl⟩
    · obtain ⟨⟨r, s₁⟩, hcopy, hnext⟩ := Option.bind_eq_some_iff.mp hnext
      obtain ⟨hb', hgrow⟩ := hb.copyRange hsrc (fun hshare vpn hvpn => by
        have hplain : ¬ (vm.vma v).Shared := by
          unfold Vma.Shared
          simpa using hshare
        exact ⟨v, hmem v List.mem_cons_self, hplain, vpn, rfl, hvpn⟩) hcopy
      have hcov' : Covered y.vm s₁ mm := by
        refine ⟨fun vpn hvpn => ?_, fun idx hidx => ?_⟩
        · rcases hgrow.entries vpn hvpn with hold | hnew
          · obtain ⟨u, hu, hin⟩ := hcov.entries vpn hold
            exact ⟨u, (hlist u).mpr (Or.inr hu), by rwa [hsame u hu]⟩
          · exact ⟨n, (hlist n).mpr (Or.inl rfl), by rwa [hstart, hstop]⟩
        · rcases hgrow.tables idx hidx with hold | hnew
          · obtain ⟨u, hu, hin⟩ := hcov.tables idx hold
            exact ⟨u, (hlist u).mpr (Or.inr hu), by rwa [hsame u hu]⟩
          · exact ⟨n, (hlist n).mpr (Or.inl rfl), by rwa [hstart, hstop]⟩
      dsimp only at hnext
      split at hnext
      · cases hnext
        exact ⟨hm', hb', hcov', hpgdir⟩
      · -- the others keep clear of the new one, too
        have hapart' : ∀ w ∈ vs, ∀ u ∈ y.vm.mmapList, (y.vm.vma u).Apart (vm.vma w) := by
          intro w hw u hu
          rcases (hlist u).mp hu with rfl | hu
          · unfold Vma.Apart
            rw [hstart, hstop]
            exact hv w hw
          · rw [hsame u hu]
            exact hapart w (List.mem_cons_of_mem v hw) u hu
        obtain ⟨hm'', hb'', hcov'', hpgdir'⟩ := dupMmapLoop_spec hvm hlive hsrc vs y h₁ s₁
          (fun w hw => hmem w (List.mem_cons_of_mem v hw)) hvs hapart' hm' hb' hcov' hnext
        exact ⟨hm'', hb'', hcov'', hpgdir'.trans hpgdir⟩

theorem Mapped.new_notMem {a : ℕ} {b : Obj} (hm : Mapped base new taken x h) (ha : new a = some b) :
    a ∉ treeObjs x.tree ++ x.vm.mmapList := by
  obtain ⟨obj, -, -, hfresh⟩ := hm.owned
  intro hmem
  rw [hfresh a hmem] at ha
  cases ha

/-- The structure is in its place. -/
theorem MmNew.get {b : MmStruct} (hm : MmNew base taken mm c b x h) : h mm = some ⟨c, .mm b⟩ := by
  have hnot := hm.new_notMem (a := mm) (Function.update_self ..)
  obtain ⟨obj, hl, -⟩ := hm.owned
  exact hl.get_new ((withNew_of_notMem hnot).trans (Function.update_self ..))

/-- The structure is written back. -/
theorem MmNew.setBody {b b' : MmStruct} (hm : MmNew base taken mm c b x h) (hrun : h.setBody mm (.mm b') = some h') :
    MmNew base taken mm c b' x h' := by
  have hnot := hm.new_notMem (a := mm) (Function.update_self ..)
  obtain ⟨obj, hl, hnd, hfresh⟩ := hm.owned
  have hl' := Leased.setBody_new hl ((withNew_of_notMem hnot).trans (Function.update_self ..)) hrun
  rw [update_withNew hnot, Function.update_idem] at hl'
  refine ⟨hm.inv, ⟨obj, hl', hnd, fun a ha => ?_⟩, hm.tree, hm.live⟩
  have hne : a ≠ mm := fun heq => hnot (heq ▸ ha)
  rw [Function.update_of_ne hne]

/-- The lock of the old address space is taken. -/
theorem MmNew.down {b : MmStruct} {q : ℕ} {z : Obj} (hm : MmNew base taken mm c b x h) (hz : base q = some z)
    (hrun : h.down q = some h') : MmNew base (Pi.single q (-anUp) + taken) mm c b x h' := by
  obtain ⟨obj, hl, hnd, hfresh⟩ := hm.owned
  have hl' := Leased.down_old hl hz hrun
  rw [add_left_comm] at hl'
  exact ⟨hm.inv, ⟨obj, hl', hnd, hfresh⟩, hm.tree, hm.live⟩

/-- The lock of the old address space is given back. -/
theorem MmNew.up {b : MmStruct} {q : ℕ} {z : Obj} (hm : MmNew base (Pi.single q (-anUp) + 0) mm c b x h)
    (hz : base q = some z) (hrun : h.up q = some h') : MmNew base 0 mm c b x h' := by
  obtain ⟨obj, hl, hnd, hfresh⟩ := hm.owned
  have hl' := Leased.up_old hl hz hrun
  rw [up_down] at hl'
  exact ⟨hm.inv, ⟨obj, hl', hnd, hfresh⟩, hm.tree, hm.live⟩

/-- **`dup_mmap`** into an empty address space. -/
theorem dupMmap_spec {d : Counters} {y : MmStruct} (hy : base src = some ⟨d, .mm y⟩) (hvm : Mm.Inv y.vm)
    (hlive : ∀ v ∈ y.vm.mmapList, (y.vm.vma v).Shared → ShmemLive base (y.vm.vma v).shmem) (hsrc : src ≠ mm)
    (hm : MmNew base taken mm c x x h) (hempty : x.vm.mmapList = []) (hb : Borrowed s₀ s mm (Private src y.vm))
    (hcov : Covered x.vm s mm) (hrun : dupMmap o mm src h s = some (ret, h', s')) :
    ∃ x', MmNew base taken mm c x' x' h' ∧ Borrowed s₀ s' mm (Private src y.vm) ∧ Covered x'.vm s' mm ∧
      x'.pgdir = x.pgdir := by
  unfold dupMmap at hrun
  obtain ⟨dst, hdst, hrest⟩ := Option.bind_eq_some_iff.mp hrun
  obtain ⟨y', hy', hrest⟩ := Option.bind_eq_some_iff.mp hrest
  unfold Heap.mmAt at hdst hy'
  rw [hm.get] at hdst
  cases hdst
  obtain ⟨obj, hl, -⟩ := hm.owned
  rw [hl.get_old hy] at hy'
  cases hy'
  obtain ⟨⟨r, x', h₁, s₁⟩, hloop, hrest⟩ := Option.bind_eq_some_iff.mp hrest
  obtain ⟨h₂, hset, hend⟩ := Option.bind_eq_some_iff.mp hrest
  cases hend
  have hpw : y.vm.mmapList.reverse.Pairwise fun v w => (y.vm.vma v).Apart (y.vm.vma w) := by
    rw [List.pairwise_reverse]
    exact hvm.ordered.imp fun hle => Or.inr hle
  obtain ⟨hm', hb', hcov', hpgdir⟩ := dupMmapLoop_spec hvm hlive hsrc _ x h s (fun v hv => List.mem_reverse.mp hv) hpw
    (by rw [hempty]; exact fun _ _ _ hu => absurd hu List.not_mem_nil) hm hb hcov hloop
  exact ⟨x', MmNew.setBody hm' hset, hb', hcov', hpgdir⟩

end dup

/-! ## Teardown -/

section teardown

variable {base h h' : Heap} {mm src : ℕ} {x : MmStruct} {s₀ s s' : Sys} {vm : Mm} {c : Counters} {weak : Loc → Prop}

/-- **The first loop of `exit_mmap`** clears the copies. -/
theorem unmapAll_spec : ∀ (l : List ℕ) (s : Sys), (∀ v ∈ l, vm.vmas v = some (vm.vma v)) → Borrowed s₀ s mm weak →
    eachVma vm (fun start stop s => s.unmapRange mm start stop) l s = some s' →
    Borrowed s₀ s' mm weak ∧ s'.pde = s.pde ∧
      (∀ v ∈ l, ∀ vpn, InPages (vm.vma v).vmStart (vm.vma v).vmEnd vpn → s'.pte (.user mm vpn) = .zero) ∧
      ∀ vpn, s.pte (.user mm vpn) = .zero → s'.pte (.user mm vpn) = .zero
  | [], s, _, hb, hrun => by
    cases hrun
    exact ⟨hb, rfl, nofun, fun _ hv => hv⟩
  | v :: l, s, hvmas, hb, hrun => by
    unfold eachVma at hrun
    obtain ⟨z, hz, hrest⟩ := Option.bind_eq_some_iff.mp hrun
    cases (hvmas v List.mem_cons_self).symm.trans hz
    obtain ⟨s₁, hunmap, hrest⟩ := Option.bind_eq_some_iff.mp hrest
    obtain ⟨hb₁, hpde₁, hin, hkeep⟩ := hb.unmapRange hunmap
    obtain ⟨hb', hpde', hin', hkeep'⟩ := unmapAll_spec l s₁
      (fun u hu => hvmas u (List.mem_cons_of_mem v hu)) hb₁ hrest
    refine ⟨hb', hpde'.trans hpde₁, fun u hu vpn hvpn => ?_, fun vpn hv => hkeep' vpn (hkeep vpn hv)⟩
    rcases List.mem_cons.mp hu with rfl | hu
    · exact hkeep' vpn (hin vpn hvpn)
    · exact hin' u hu vpn hvpn

/-- **The second loop of `exit_mmap`** frees the page tables. -/
theorem exitAll_spec : ∀ (l : List ℕ) (s : Sys), (∀ v ∈ l, vm.vmas v = some (vm.vma v)) → Emptied s₀ s mm weak →
    eachVma vm (fun start stop s => s.exitRange mm start stop) l s = some s' →
    Emptied s₀ s' mm weak ∧
      (∀ v ∈ l, ∀ idx, InTables (vm.vma v).vmStart (vm.vma v).vmEnd idx → s'.pde mm idx = none) ∧
      ∀ idx, s.pde mm idx = none → s'.pde mm idx = none
  | [], s, _, he, hrun => by
    cases hrun
    exact ⟨he, nofun, fun _ hi => hi⟩
  | v :: l, s, hvmas, he, hrun => by
    unfold eachVma at hrun
    obtain ⟨z, hz, hrest⟩ := Option.bind_eq_some_iff.mp hrun
    cases (hvmas v List.mem_cons_self).symm.trans hz
    obtain ⟨s₁, hexit, hrest⟩ := Option.bind_eq_some_iff.mp hrest
    obtain ⟨he₁, hin, hkeep⟩ := he.exitRange hexit
    obtain ⟨he', hin', hkeep'⟩ := exitAll_spec l s₁ (fun u hu => hvmas u (List.mem_cons_of_mem v hu)) he₁ hrest
    refine ⟨he', fun u hu idx hidx => ?_, fun idx hi => hkeep' idx (hkeep idx hi)⟩
    rcases List.mem_cons.mp hu with rfl | hu
    · exact hkeep' idx (hin idx hidx)
    · exact hin' u hu idx hidx

/-- **`exit_mmap`**: everything that the VMAs cover is given back. -/
theorem exitMmap_spec (hm : MmNew base 0 mm c x x h) (hb : Borrowed s₀ s mm weak) (hcov : Covered x.vm s mm)
    (hrun : exitMmap mm h s = some s') : Reverted s₀ s' weak := by
  have hvmas : ∀ v ∈ x.vm.mmapList, x.vm.vmas v = some (x.vm.vma v) := fun v hv => (hm.inv.member v hv).live
  unfold exitMmap at hrun
  obtain ⟨_, -, hrest⟩ := Option.bind_eq_some_iff.mp hrun
  obtain ⟨_, -, hrest⟩ := Option.bind_eq_some_iff.mp hrest
  obtain ⟨y, hy, hrest⟩ := Option.bind_eq_some_iff.mp hrest
  unfold Heap.mmAt at hy
  rw [hm.get] at hy
  cases hy
  obtain ⟨s₁, hunmap, hexit⟩ := Option.bind_eq_some_iff.mp hrest
  obtain ⟨hb₁, hpde, hin, hkeep⟩ := unmapAll_spec _ s hvmas hb hunmap
  have hzero : ∀ vpn, s₁.pte (.user mm vpn) = .zero := by
    intro vpn
    by_cases hz : s.pte (.user mm vpn) = .zero
    · exact hkeep vpn hz
    · obtain ⟨v, hv, hvpn⟩ := hcov.entries vpn hz
      exact hin v hv vpn hvpn
  obtain ⟨he, htables, hgone⟩ := exitAll_spec _ s₁ hvmas (hb₁.emptied hzero) hexit
  refine he.reverted fun idx => ?_
  by_cases hnone : s.pde mm idx = none
  · exact hgone idx (by rw [hpde, hnone])
  · obtain ⟨v, hv, hidx⟩ := hcov.tables idx hnone
    exact htables v hv idx hidx

/-- **`mm_destroy`** of a new address space. -/
theorem mmDestroy_spec (hm : MmNew base 0 mm c x x h) (hrun : h.mmDestroy mm = some h') : h' = base := by
  have hvmas : ∀ v ∈ x.vm.mmapList, x.vm.vmas v = some (x.vm.vma v) := fun v hv => (hm.inv.member v hv).live
  unfold Heap.mmDestroy at hrun
  obtain ⟨_, -, hrest⟩ := Option.bind_eq_some_iff.mp hrun
  obtain ⟨_, -, hrest⟩ := Option.bind_eq_some_iff.mp hrest
  obtain ⟨y, hy, hrest⟩ := Option.bind_eq_some_iff.mp hrest
  unfold Heap.mmAt at hy
  rw [hm.get] at hy
  cases hy
  obtain ⟨h₁, htree, hrest⟩ := Option.bind_eq_some_iff.mp hrest
  obtain ⟨h₂, hloop, hfree⟩ := Option.bind_eq_some_iff.mp hrest
  have ho := rbTreeDestroy_spec hm.owned htree
  have hl := mmDestroyLoop_spec _ h₁ hvmas (fun _ => le_rfl) hm.live ho hloop
  have hl' := Leased.kfree_new hl (Function.update_self ..) hfree
  rw [Function.update_idem, Function.update_eq_self] at hl'
  exact hl'.eq

end teardown

/-! ## The call -/

section call

variable {h h' : Heap} {mm oldmm : ℕ} {s s' : Sys} {o : Oracle} {ret : Int} {c : Counters} {f : ℕ}

/-- A new, empty address space. -/
theorem mmNew_create (hfree : h mm = none) (pgdir : Option ℕ) :
    let x : MmStruct := ⟨Mm.mmCreate mm fun _ => none, none, pgdir, 0, 0⟩
    MmNew h 0 mm c x x (Function.update h mm (some ⟨c, .mm x⟩)) := by
  intro x
  have hl := (Leased.refl (M := Counters) h).alloc hfree ⟨c, .mm x⟩
  refine ⟨Mm.mmCreate_inv .., ?_, fun hne => absurd rfl hne, nofun⟩
  exact (Leased.owned hl ⟨0, .vma⟩)

/-- `setup_pgdir` takes a frame, or nothing. -/
theorem setupPgdir_cases (hs : s.Paging) (hnone : ∀ idx, s.pde mm idx = none) (env : Env) (r : Option ℕ) :
    s.setupPgdir env r mm = (none, s) ∨
      ∃ f, s.free f = true ∧ s.setupPgdir env r mm = (some f, s.withPages env f 1) := by
  unfold Sys.setupPgdir
  rcases s.allocPages_cases env r 1 with hfail | ⟨f, hfree, hsome⟩
  · rw [hfail]
    exact Or.inl rfl
  · rw [hsome]
    refine Or.inr ⟨f, hfree 0 one_pos, ?_⟩
    have hsame : ∀ (t : Sys) (pde : ℕ → ℕ → Option ℕ) (pte : Loc → Pte), pde = t.pde → pte = t.pte →
        { t with pde := pde, pte := pte } = t := by
      rintro t _ _ rfl rfl
      rfl
    refine congrArg (Prod.mk (some f)) (hsame (s.withPages env f 1) _ _ ?_ ?_)
    · rw [Function.update_eq_iff]
      exact ⟨(funext hnone).symm, fun _ _ => rfl⟩
    · funext x
      cases x with
      | user m vpn =>
        by_cases hm : m = mm
        · subst hm
          exact (if_pos rfl).trans (hs.zero_of_pde (hnone _)).symm
        · exact if_neg hm
      | shm _ _ => rfl

/-- **`copy_mm` with a page directory**: when `dup_mmap` fails, all is given back. -/
theorem copyMmap_spec {d : Counters} {x y : MmStruct} {base : Heap} (hs : s.Paging)
    (hnone : ∀ idx, s.pde mm idx = none) (hf : s.free f = true) (hy : base oldmm = some ⟨d, .mm y⟩)
    (hok : MmOk base oldmm) (hm : MmNew base 0 mm c x x h) (hempty : x.vm.mmapList = []) (hpgdir : x.pgdir = some f)
    (hrun : copyMmap o mm oldmm h (s.withPages o.env f 1) = some (ret, h', s')) (hret : ret ≠ 0) :
    h' = base ∧ Reverted s s' (Private oldmm y.vm) := by
  obtain ⟨_, y', hy', -, hinv, hlive⟩ := hok
  cases hy.symm.trans hy'
  have hsrc : oldmm ≠ mm := by
    rintro rfl
    obtain ⟨obj, hl, -⟩ := hm.owned
    have hfresh := hl.fresh oldmm _ ((withNew_of_notMem (hm.new_notMem (Function.update_self ..))).trans
      (Function.update_self ..))
    rw [hy] at hfresh
    cases hfresh
  unfold copyMmap at hrun
  obtain ⟨h₁, hdown, hrest⟩ := Option.bind_eq_some_iff.mp hrun
  obtain ⟨⟨r, h₂, s₁⟩, hdup, hrest⟩ := Option.bind_eq_some_iff.mp hrest
  obtain ⟨h₃, hup, hrest⟩ := Option.bind_eq_some_iff.mp hrest
  have hb : Borrowed (s.withPages o.env f 1) (s.withPages o.env f 1) mm (Private oldmm y.vm) :=
    Borrowed.refl (hs.withPages o.env f 1) hnone _
  have hcov : Covered x.vm (s.withPages o.env f 1) mm :=
    ⟨fun vpn hvpn => absurd (hs.zero_of_pde (hnone _)) hvpn, fun idx hidx => absurd (hnone idx) hidx⟩
  obtain ⟨x', hm', hb', hcov', hpgdir'⟩ := dupMmap_spec hy hinv hlive hsrc (hm.down hy hdown) hempty hb hcov hdup
  have hm'' := hm'.up hy hup
  split at hrest
  · obtain ⟨s₂, hexit, hrest⟩ := Option.bind_eq_some_iff.mp hrest
    obtain ⟨s₃, hput, hrest⟩ := Option.bind_eq_some_iff.mp hrest
    obtain ⟨h₄, hdestroy, hend⟩ := Option.bind_eq_some_iff.mp hrest
    cases hend
    have hrev := exitMmap_spec hm'' hb' hcov' hexit
    unfold putPgdir Heap.mmAt at hput
    rw [hm''.get] at hput
    obtain ⟨z, hz, hput⟩ := Option.bind_eq_some_iff.mp hput
    cases hz
    obtain ⟨g, hg, hput⟩ := Option.bind_eq_some_iff.mp hput
    cases (hpgdir'.trans hpgdir).symm.trans hg
    cases hput
    exact ⟨mmDestroy_spec hm'' hdestroy, Reverted.freePages (n := 1) hs (by simpa using hf) hrev⟩
  · cases hrest
    exact absurd rfl hret

/-- The entry is a private one of the address space, if there is one. -/
def PrivateOf (h : Heap) (old : Option ℕ) (x : Loc) : Prop :=
  ∃ oldmm c y, old = some oldmm ∧ h oldmm = some ⟨c, .mm y⟩ ∧ Private oldmm y.vm x

/-- **`copy_mm`**: a failure leaves nothing behind. -/
theorem copyMm_spec {k k' : Kernel} {cloneFlags : UInt32} {old new : Option ℕ} (hs : k.mem.Paging)
    (hdir : ∀ m idx, k.mem.pde m idx ≠ none → k.kobj m ≠ none) (hok : ∀ oldmm, old = some oldmm → MmOk k.kobj oldmm)
    (hrun : k.copyMm o cloneFlags old = some (ret, new, k')) (hret : ret ≠ 0) :
    ∃ s, k' = { k with mem := s } ∧ Reverted k.mem s (PrivateOf k.kobj old) := by
  unfold Kernel.copyMm at hrun
  cases old with
  | none =>
    cases hrun
    exact absurd rfl hret
  | some oldmm =>
    dsimp only at hrun
    split at hrun
    · obtain ⟨_, -, heq⟩ := Option.map_eq_some_iff.mp hrun
      cases heq
      exact absurd rfl hret
    · obtain ⟨d, y, hy, -⟩ := id (hok oldmm rfl)
      unfold Heap.mmCreate at hrun
      rcases kmalloc_cases k.kobj (o.kmalloc .mm)
        fun a => ⟨anUp, .mm ⟨Mm.mmCreate a fun _ => none, none, none, 0, 0⟩⟩ with hfail | ⟨mm, hfree, hsome⟩
      · rw [hfail] at hrun
        cases hrun
        exact ⟨k.mem, rfl, .refl ..⟩
      · rw [hsome] at hrun
        have hnone : ∀ idx, k.mem.pde mm idx = none := by
          intro idx
          by_contra hne
          exact hdir mm idx hne hfree
        have hm := mmNew_create (c := anUp) hfree none
        dsimp only at hrun
        rcases setupPgdir_cases hs hnone o.env o.pgdir with hfail | ⟨f, hf, hsome⟩
        · rw [hfail] at hrun
          obtain ⟨h₁, hdestroy, hend⟩ := Option.bind_eq_some_iff.mp hrun
          cases hend
          refine ⟨k.mem, ?_, .refl ..⟩
          rw [mmDestroy_spec hm hdestroy]
        · rw [hsome] at hrun
          obtain ⟨x, hx, hrest⟩ := Option.bind_eq_some_iff.mp hrun
          unfold Heap.mmAt at hx
          rw [hm.get] at hx
          cases hx
          obtain ⟨h₁, hset, hrest⟩ := Option.bind_eq_some_iff.mp hrest
          obtain ⟨⟨r, h₂, s₁⟩, hcopy, hrest⟩ := Option.bind_eq_some_iff.mp hrest
          have hm' : MmNew k.kobj 0 mm anUp ⟨Mm.mmCreate mm fun _ => none, none, some f, 0, 0⟩
              ⟨Mm.mmCreate mm fun _ => none, none, some f, 0, 0⟩ h₁ := by
            have hm₁ := hm.setBody hset
            exact ⟨hm₁.inv, hm₁.owned, hm₁.tree, hm₁.live⟩
          dsimp only at hrest
          split at hrest
          · rename_i hr
            cases hrest
            obtain ⟨rfl, hrev⟩ := copyMmap_spec hs hnone hf hy (hok oldmm rfl) hm' rfl rfl hcopy hr
            exact ⟨s₁, rfl, hrev.mono fun x hx => ⟨oldmm, d, y, rfl, hy, hx⟩⟩
          · obtain ⟨_, -, hend⟩ := Option.bind_eq_some_iff.mp hrest
            cases hend
            exact absurd rfl hret

/-- `copy_mm` has nothing to do with the process table. -/
theorem copyMm_table {k k' : Kernel} {cloneFlags : UInt32} {old new : Option ℕ}
    (hrun : k.copyMm o cloneFlags old = some (ret, new, k')) : k'.table = k.table := by
  unfold Kernel.copyMm at hrun
  cases old with
  | none =>
    cases hrun
    rfl
  | some oldmm =>
    dsimp only at hrun
    split at hrun
    · obtain ⟨_, -, heq⟩ := Option.map_eq_some_iff.mp hrun
      cases heq
      rfl
    · split at hrun
      · cases hrun
        rfl
      split at hrun
      · obtain ⟨_, -, hend⟩ := Option.bind_eq_some_iff.mp hrun
        cases hend
        rfl
      · obtain ⟨_, -, hrest⟩ := Option.bind_eq_some_iff.mp hrun
        obtain ⟨_, -, hrest⟩ := Option.bind_eq_some_iff.mp hrest
        obtain ⟨⟨r, h₁, s₁⟩, -, hrest⟩ := Option.bind_eq_some_iff.mp hrest
        dsimp only at hrest
        split at hrest
        · cases hrest
          rfl
        · obtain ⟨k₁, hgood, hend⟩ := Option.bind_eq_some_iff.mp hrest
          cases hend
          obtain ⟨_, -, hgood⟩ := Option.bind_eq_some_iff.mp hgood
          obtain ⟨_, -, hgood⟩ := Option.bind_eq_some_iff.mp hgood
          obtain ⟨_, -, hgood⟩ := Option.bind_eq_some_iff.mp hgood
          obtain ⟨_, -, hgood⟩ := Option.bind_eq_some_iff.mp hgood
          cases hgood
          rfl

end call

end Ucore.Fork
