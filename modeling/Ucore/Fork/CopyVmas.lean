import Ucore.Fork.CopySem
import Ucore.Fork.DoFork
import Ucore.Mm.ShmemRun

/-!
# The VMAs of a new address space

`dup_mmap` inserts copies of VMAs into a new `mm_struct`, which may get a red-black tree on the way, and
takes references to shared memory.  `Mapped` says what is on lease meanwhile, and `mm_destroy` gives it
back.
-/

namespace Ucore.Fork

open Lease

/-- A shared memory object with references. -/
def ShmemLive (h : Heap) (o : ℕ) : Prop := ∃ c, h o = some ⟨c, .shmem⟩ ∧ 0 < c.1

/-- An address space whose VMAs are well formed and whose shared VMAs have live objects. -/
def MmOk (h : Heap) (mm : ℕ) : Prop :=
  ∃ c x, h mm = some ⟨c, .mm x⟩ ∧ 0 < c.1 ∧ Mm.Inv x.vm ∧
    ∀ v ∈ x.vm.mmapList, (x.vm.vma v).Shared → ShmemLive h (x.vm.vma v).shmem

/-- The objects of a red-black tree. -/
def treeObjs : Option (ℕ × ℕ × ℕ) → List ℕ
  | none => []
  | some (tree, nil, root) => [root, nil, tree]

open Classical in
/-- The shared memory objects of the VMAs. -/
noncomputable def shmems (vm : Mm) (l : List ℕ) : List ℕ :=
  l.filterMap fun v => if (vm.vma v).Shared then some (vm.vma v).shmem else none

/-- The address space `x` is under construction: its VMAs and its tree are new objects, and it has
references to shared memory. -/
structure Mapped (base new : Heap) (taken : ℕ → Counters) (x : MmStruct) (h : Heap) : Prop where
  inv : Mm.Inv x.vm
  owned : Owned base new (total aRef (shmems x.vm x.vm.mmapList) + taken) (treeObjs x.tree ++ x.vm.mmapList) h
  tree : x.tree ≠ none → x.vm.mmapTree ≠ none
  live : ∀ v ∈ x.vm.mmapList, (x.vm.vma v).Shared → ShmemLive base (x.vm.vma v).shmem

section grown

variable {h h' : Heap} {n mm : ℕ}

theorem ShmemLive.grown (hn : ShmemLive h n) (hg : Grown h h') : ShmemLive h' n := by
  obtain ⟨c, hx, hpos⟩ := hn
  obtain ⟨d, hd, hx'⟩ := hg _ _ hx nofun
  have hd1 : 0 ≤ d.1 := hd.1
  refine ⟨d + c, hx', ?_⟩
  show 0 < d.1 + c.1
  omega

theorem MmOk.grown (hm : MmOk h mm) (hg : Grown h h') : MmOk h' mm := by
  obtain ⟨c, x, hx, hpos, hinv, hlive⟩ := hm
  obtain ⟨d, hd, hx'⟩ := hg _ _ hx nofun
  have hd1 : 0 ≤ d.1 := hd.1
  refine ⟨d + c, x, hx', ?_, hinv, fun v hv hs => (hlive v hv hs).grown hg⟩
  show 0 < d.1 + c.1
  omega

end grown

section vmas

variable {base new h h' : Heap} {taken : ℕ → Counters} {l : List ℕ} {a v n : ℕ} {x y : MmStruct} {z w : Vma}
  {o : Oracle} {vm vm' : Mm} {tree : Option (ℕ × ℕ × ℕ)}

/-- `kfree` of a new object. -/
theorem Owned.kfree (ho : Owned base new taken (a :: l) h) (hrun : h.kfree a = some h') :
    Owned base new taken l h' := by
  obtain ⟨_, -, rfl⟩ := Option.map_eq_some_iff.mp hrun
  exact ho.free

/-- A reference to an old object. -/
theorem Owned.add {x y : Obj} {c : Counters} (ho : Owned base new taken l h) (ha : base a = some x)
    (hrun : h.add a c = some (y, h')) : y = c +ᵥ (taken a +ᵥ x) ∧ Owned base new (Pi.single a c + taken) l h' := by
  obtain ⟨obj, hl, hnd, hfresh⟩ := ho
  obtain ⟨hy, hl'⟩ := Leased.add_old hl ha hrun
  exact ⟨hy, obj, hl', hnd, hfresh⟩

/-- **`rb_tree_create`**: three objects, or none. -/
theorem rbTreeCreate_spec (ho : Owned base new taken l h) (hrun : h.rbTreeCreate o v = some (tree, h')) :
    Owned base new taken (treeObjs tree ++ l) h' := by
  unfold Heap.rbTreeCreate at hrun
  rcases kmalloc_cases h (o.kmalloc (.rbTree v)) fun _ => ⟨0, .rbTree⟩ with hnone | ⟨a, ha, hsome⟩
  · rw [hnone] at hrun
    cases hrun
    exact ho
  · rw [hsome] at hrun
    have ho₁ := ho.alloc ha ⟨0, .rbTree⟩
    set h₁ := Function.update h a (some (⟨0, .rbTree⟩ : Obj))
    dsimp only at hrun
    rcases kmalloc_cases h₁ (o.kmalloc (.rbNil v)) fun _ => ⟨0, .rbNode⟩ with hnone | ⟨b, hb, hsome⟩
    · rw [hnone] at hrun
      obtain ⟨h₂, hfree, heq⟩ := Option.map_eq_some_iff.mp hrun
      cases heq
      exact Owned.kfree ho₁ hfree
    · rw [hsome] at hrun
      have ho₂ := ho₁.alloc hb ⟨0, .rbNode⟩
      set h₂ := Function.update h₁ b (some (⟨0, .rbNode⟩ : Obj))
      dsimp only at hrun
      rcases kmalloc_cases h₂ (o.kmalloc (.rbRoot v)) fun _ => ⟨0, .rbNode⟩ with hnone | ⟨c, hc, hsome⟩
      · rw [hnone] at hrun
        obtain ⟨h₃, hfree, hrest⟩ := Option.bind_eq_some_iff.mp hrun
        obtain ⟨h₄, hfree', hend⟩ := Option.bind_eq_some_iff.mp hrest
        cases hend
        exact Owned.kfree (Owned.kfree ho₂ hfree) hfree'
      · rw [hsome] at hrun
        cases hrun
        exact ho₂.alloc hc ⟨0, .rbNode⟩

/-- **`rb_tree_destroy`.** -/
theorem rbTreeDestroy_spec (ho : Owned base new taken (treeObjs tree ++ l) h)
    (hrun : h.rbTreeDestroy tree = some h') :
    Owned base new taken l h' := by
  cases tree with
  | none =>
    cases hrun
    exact ho
  | some t =>
    obtain ⟨t, nil, root⟩ := t
    obtain ⟨h₁, hfree, hrest⟩ := Option.bind_eq_some_iff.mp hrun
    obtain ⟨h₂, hfree', hrest⟩ := Option.bind_eq_some_iff.mp hrest
    exact Owned.kfree (Owned.kfree (Owned.kfree ho hfree) hfree') hrest

/-- A tree that is there stays, and one is built when there are enough VMAs and there is memory. -/
theorem buildTree_tree {mem : Option (RbTree ℕ)} (hrun : Mm.buildTree mem vm = some vm')
    (htree : vm.mmapTree ≠ none ∨ mem ≠ none ∧ RB_MIN_MAP_COUNT ≤ vm.mapCount) : vm'.mmapTree ≠ none := by
  unfold Mm.buildTree at hrun
  split at hrun
  · rename_i m hnone
    split at hrun
    · obtain ⟨t, -, heq⟩ := Option.bind_eq_some_iff.mp hrun
      cases heq
      nofun
    · rename_i hmin
      rcases htree with hsome | ⟨-, hcount⟩
      · exact absurd hnone hsome
      · exact absurd hcount hmin
  · rename_i hne
    cases hrun
    rcases htree with hsome | ⟨hmem, -⟩
    · exact hsome
    · intro hnone
      obtain ⟨m, hm⟩ := Option.ne_none_iff_exists'.mp hmem
      exact hne m hnone hm

theorem insertVmaStruct_tree {mem : Option (RbTree ℕ)} (hrun : vm.insertVmaStruct mem n = some vm')
    (htree : vm.mmapTree ≠ none ∨ mem ≠ none ∧ RB_MIN_MAP_COUNT ≤ vm.mapCount + 1) : vm'.mmapTree ≠ none := by
  unfold Mm.insertVmaStruct at hrun
  obtain ⟨_, -, hrest⟩ := Option.bind_eq_some_iff.mp hrun
  obtain ⟨_, -, hrest⟩ := Option.bind_eq_some_iff.mp hrest
  obtain ⟨⟨prev, vm₁⟩, hplace, hrest⟩ := Option.bind_eq_some_iff.mp hrest
  obtain ⟨_, -, hrest⟩ := Option.bind_eq_some_iff.mp hrest
  obtain ⟨_, -, hbuild⟩ := Option.bind_eq_some_iff.mp hrest
  have hplaced : (vm.mmapTree ≠ none → vm₁.mmapTree ≠ none) ∧ vm₁.mapCount = vm.mapCount := by
    unfold Mm.insertPlace at hplace
    split at hplace
    · obtain ⟨⟨t, p⟩, -, heq⟩ := Option.bind_eq_some_iff.mp hplace
      cases heq
      exact ⟨fun _ => nofun, rfl⟩
    · obtain ⟨p, -, heq⟩ := Option.bind_eq_some_iff.mp hplace
      cases heq
      exact ⟨id, rfl⟩
  refine buildTree_tree hbuild (htree.imp hplaced.1 fun hboth => ⟨hboth.1, ?_⟩)
  show RB_MIN_MAP_COUNT ≤ vm₁.mapCount + 1
  rw [hplaced.2]
  exact hboth.2

theorem shmems_congr (hsame : ∀ u ∈ l, vm'.vma u = vm.vma u) : shmems vm' l = shmems vm l := by
  unfold shmems
  refine List.filterMap_congr fun u hu => ?_
  rw [hsame u hu]

theorem shmems_cons_shared (hs : (vm.vma n).Shared) : shmems vm (n :: l) = (vm.vma n).shmem :: shmems vm l := by
  simp [shmems, hs]

theorem shmems_cons_plain (hs : ¬ (vm.vma n).Shared) : shmems vm (n :: l) = shmems vm l := by
  simp [shmems, hs]

/-- `dup_mmap` makes the copy of a VMA, with a reference to its shared memory. -/
theorem dupShare_spec (ho : Owned base new taken l h) (hlive : z.Shared → ShmemLive base z.shmem)
    (hrun : h.dupShare z ⟨none, z.vmStart, z.vmEnd, z.vmFlags, 0, 0⟩ = some (w, h')) :
    w = Shm.copyOf z ∧
      Owned base new ((if (Shm.copyOf z).Shared then Pi.single (Shm.copyOf z).shmem aRef else 0) + taken) l h' := by
  unfold Heap.dupShare at hrun
  by_cases hs : z.Shared
  · rw [if_pos (by exact hs)] at hrun
    obtain ⟨⟨y, h₁⟩, hadd, heq⟩ := Option.map_eq_some_iff.mp hrun
    cases heq
    obtain ⟨c, hc, -⟩ := hlive hs
    rw [Shm.copyOf_shared hs, if_pos (by exact hs)]
    exact ⟨rfl, (Owned.add ho hc hadd).2⟩
  · rw [if_neg (by exact hs)] at hrun
    cases hrun
    rw [Shm.copyOf_plain hs, if_neg (by exact hs), zero_add]
    exact ⟨rfl, ho⟩

/-- **`insert_vma_struct`** of a new VMA, with what it may allocate. -/
theorem Mapped.insert (hm : Mapped base new taken x h) {h₁ : Heap} (hn : n ∉ x.vm.mmapList) (hok : VmaOk w)
    (hapart : ∀ u ∈ x.vm.mmapList, (x.vm.vma u).Apart w) (hlive : w.Shared → ShmemLive base w.shmem)
    (ho : Owned base new ((if w.Shared then Pi.single w.shmem aRef else 0) +
      (total aRef (shmems x.vm x.vm.mmapList) + taken)) (n :: (treeObjs x.tree ++ x.vm.mmapList)) h₁)
    (hrun : h₁.insertVmaStruct o v n { x with vm := x.vm.setVma n w } = some (y, h')) :
    Mapped base new taken y h' ∧ y.pgdir = x.pgdir ∧ (∀ u, u ∈ y.vm.mmapList ↔ u = n ∨ u ∈ x.vm.mmapList) ∧
      (y.vm.vma n = { w with vmMm := some x.vm.self }) ∧ ∀ u ∈ x.vm.mmapList, y.vm.vma u = x.vm.vma u := by
  unfold Heap.insertVmaStruct at hrun
  obtain ⟨⟨tree, h₂⟩, hgrow, hrest⟩ := Option.bind_eq_some_iff.mp hrun
  obtain ⟨vm, hins, hend⟩ := Option.bind_eq_some_iff.mp hrest
  cases hend
  have hinv₁ := hm.inv.setVma_other hn w
  have hother : ∀ u ∈ x.vm.mmapList, (x.vm.setVma n w).vma u = x.vm.vma u := by
    intro u hu
    have hne : u ≠ n := fun heq => hn (heq ▸ hu)
    rw [Mm.setVma_vma, if_neg hne]
  obtain ⟨vm', hins', hpost⟩ := hinv₁.insertVmaStruct_spec (by simp) hok hn
    (fun u hu => by rw [hother u hu]; exact hapart u hu) (tree.map fun _ => o.rbMem v)
  cases hins.symm.trans hins'
  have hnew : vm.vma n = { w with vmMm := some x.vm.self } := Mm.vma_of_some (by rw [hpost.vmas]; simp)
  have hsame : ∀ u ∈ x.vm.mmapList, vm.vma u = x.vm.vma u := by
    intro u hu
    have hne : u ≠ n := fun heq => hn (heq ▸ hu)
    rw [← hother u hu]
    exact Mm.vma_congr (by rw [hpost.vmas, Function.update_of_ne hne])
  have hperm : (n :: x.vm.mmapList).Perm vm.mmapList := by
    refine (List.perm_ext_iff_of_nodup (List.nodup_cons.mpr ⟨hn, hm.inv.nodup⟩) hpost.inv.nodup).mpr fun u => ?_
    rw [List.mem_cons, hpost.mem]
    rfl
  have htaken : total aRef (shmems vm vm.mmapList) + taken =
      (if w.Shared then Pi.single w.shmem aRef else 0) + (total aRef (shmems x.vm x.vm.mmapList) + taken) := by
    have hsum : total aRef (shmems vm vm.mmapList) = total aRef (shmems vm (n :: x.vm.mmapList)) :=
      (total_perm aRef (hperm.filterMap _)).symm
    rw [hsum]
    by_cases hs : w.Shared
    · have hs' : (vm.vma n).Shared := by rw [hnew]; exact hs
      rw [shmems_cons_shared hs', shmems_congr hsame, total_cons, add_assoc, if_pos hs, hnew]
    · have hs' : ¬ (vm.vma n).Shared := by rw [hnew]; exact hs
      rw [shmems_cons_plain hs', shmems_congr hsame, if_neg hs, zero_add]
  -- the objects of the tree, which may be new, too
  obtain ⟨ho₂, htree⟩ : Owned base new ((if w.Shared then Pi.single w.shmem aRef else 0) +
      (total aRef (shmems x.vm x.vm.mmapList) + taken)) (treeObjs (tree.or x.tree) ++ n :: x.vm.mmapList) h' ∧
      (tree.or x.tree ≠ none → vm.mmapTree ≠ none) := by
    unfold Heap.growTree at hgrow
    split at hgrow
    · rename_i hcond
      have hnone : x.vm.mmapTree = none := Option.isNone_iff_eq_none.mp hcond.1
      have hx : x.tree = none := by
        by_contra hne
        exact hm.tree hne hnone
      have ho' := rbTreeCreate_spec ho hgrow
      rw [hx] at ho' ⊢
      rw [Option.or_none]
      refine ⟨ho', fun hne => insertVmaStruct_tree hins (Or.inr ⟨?_, hcond.2⟩)⟩
      simpa using hne
    · cases hgrow
      refine ⟨ho.perm List.perm_middle.symm, fun hne => insertVmaStruct_tree hins (Or.inl (hm.tree hne))⟩
  refine ⟨⟨hpost.inv, ?_, htree, fun u hu hs => ?_⟩, rfl, fun u => hpost.mem u, hnew, hsame⟩
  · show Owned base new (total aRef (shmems vm vm.mmapList) + taken) _ _
    rw [htaken]
    exact ho₂.perm (hperm.append_left _)
  · rcases (hpost.mem u).mp hu with rfl | hu
    · rw [hnew] at hs ⊢
      exact hlive hs
    · rw [hsame u hu] at hs ⊢
      exact hm.live u hu hs

/-- **`dup_mmap` for one VMA**, up to `copy_range`. -/
theorem Mapped.dupVma {r : Option MmStruct} (hm : Mapped base new taken x h) (hok : VmaOk z)
    (hapart : ∀ u ∈ x.vm.mmapList, (x.vm.vma u).Apart z) (hlive : z.Shared → ShmemLive base z.shmem)
    (hrun : h.dupVma o v z x = some (r, h')) :
    (r = none ∧ h' = h) ∨ ∃ y n, r = some y ∧ Mapped base new taken y h' ∧ y.pgdir = x.pgdir ∧
      (∀ u, u ∈ y.vm.mmapList ↔ u = n ∨ u ∈ x.vm.mmapList) ∧ (y.vm.vma n).vmStart = z.vmStart ∧
      (y.vm.vma n).vmEnd = z.vmEnd ∧ ∀ u ∈ x.vm.mmapList, y.vm.vma u = x.vm.vma u := by
  unfold Heap.dupVma at hrun
  rcases kmalloc_cases h (o.kmalloc (.vma v)) fun _ => ⟨0, .vma⟩ with hnone | ⟨n, hn, hsome⟩
  · rw [hnone] at hrun
    cases hrun
    exact Or.inl ⟨rfl, rfl⟩
  · rw [hsome] at hrun
    obtain ⟨⟨w, h₁⟩, hshare, hrest⟩ := Option.bind_eq_some_iff.mp hrun
    obtain ⟨⟨y, h₂⟩, hins, hend⟩ := Option.bind_eq_some_iff.mp hrest
    cases hend
    have hfresh : n ∉ x.vm.mmapList := by
      intro hmem
      obtain ⟨obj, hl, -⟩ := hm.owned
      have hget := hl.get_new (withNew_of_mem (List.mem_append_right (treeObjs x.tree) hmem))
      rw [hn] at hget
      cases hget
    obtain ⟨rfl, ho⟩ := dupShare_spec (hm.owned.alloc hn ⟨0, .vma⟩) hlive hshare
    obtain ⟨-, hstart, hend⟩ := Shm.copyOf_area z
    have hokw : VmaOk (Shm.copyOf z) := ⟨hstart ▸ hok.base, hstart ▸ hend ▸ hok.nonempty, hend ▸ hok.top,
      hstart ▸ hok.startAligned, hend ▸ hok.endAligned⟩
    have hlivew : (Shm.copyOf z).Shared → ShmemLive base (Shm.copyOf z).shmem := by
      by_cases hs : z.Shared
      · rw [Shm.copyOf_shared hs]
        exact fun _ => hlive hs
      · rw [Shm.copyOf_plain hs]
        exact fun hs' => absurd hs' hs
    have hapartw : ∀ u ∈ x.vm.mmapList, (x.vm.vma u).Apart (Shm.copyOf z) := by
      intro u hu
      have hap := hapart u hu
      unfold Vma.Apart at hap ⊢
      rwa [hstart, hend]
    obtain ⟨hm', hpgdir, hmem, hnew, hsame⟩ := hm.insert hfresh hokw hapartw hlivew ho hins
    refine Or.inr ⟨y, n, rfl, hm', hpgdir, hmem, ?_, ?_, hsame⟩
    · rw [hnew]
      exact hstart
    · rw [hnew]
      exact hend

/-- **The loop of `mm_destroy`** frees the VMAs, and the shared memory keeps what it had. -/
theorem mmDestroyLoop_spec : ∀ (l : List ℕ) (h : Heap), (∀ v ∈ l, vm.vmas v = some (vm.vma v)) →
    (∀ a, 0 ≤ taken a) → (∀ v ∈ l, (vm.vma v).Shared → ShmemLive base (vm.vma v).shmem) →
    Owned base new (total aRef (shmems vm l) + taken) l h → Heap.mmDestroyLoop vm l h = some h' →
    Lent base new taken h'
  | [], h, _, _, _, ho, hrun => by
    cases hrun
    simpa [shmems] using ho.leased
  | v :: l, h, hvmas, hpos, hlive, ho, hrun => by
    have hrec := fun h₁ => mmDestroyLoop_spec l h₁ (fun u hu => hvmas u (List.mem_cons_of_mem v hu)) hpos
      fun u hu => hlive u (List.mem_cons_of_mem v hu)
    unfold Heap.mmDestroyLoop at hrun
    obtain ⟨z, hz, hrest⟩ := Option.bind_eq_some_iff.mp hrun
    cases (hvmas v List.mem_cons_self).symm.trans hz
    obtain ⟨h₁, hdestroy, hrest⟩ := Option.bind_eq_some_iff.mp hrest
    unfold Heap.vmaDestroy at hdestroy
    by_cases hs : (vm.vma v).Shared
    · rw [if_pos (by exact hs)] at hdestroy
      obtain ⟨h₂, hput, hfree⟩ := Option.bind_eq_some_iff.mp hdestroy
      rw [shmems_cons_shared hs, total_cons, add_assoc] at ho
      obtain ⟨c, hc, hcpos⟩ := hlive v List.mem_cons_self hs
      obtain ⟨⟨y, h₃⟩, hdec, hkeep⟩ := Option.bind_eq_some_iff.mp hput
      obtain ⟨hy, ho'⟩ := Owned.add ho hc hdec
      have hne : y.count ≠ 0 := by
        rw [hy, ← add_vadd, vadd_count]
        have hnonneg : 0 ≤ (total aRef (shmems vm l) (vm.vma v).shmem + taken (vm.vma v).shmem).1 :=
          (add_nonneg (total_nonneg aRef_nonneg _ _) (hpos _)).1
        rw [Pi.add_apply, Pi.single_eq_same, neg_add_cancel_left]
        show (total aRef (shmems vm l) (vm.vma v).shmem + taken (vm.vma v).shmem).1 + c.1 ≠ 0
        omega
      dsimp only at hkeep
      rw [if_neg hne] at hkeep
      cases hkeep
      rw [give] at ho'
      exact hrec h₁ (Owned.kfree ho' hfree) hrest
    · rw [if_neg (by exact hs)] at hdestroy
      obtain ⟨h₂, heq, hfree⟩ := Option.bind_eq_some_iff.mp hdestroy
      cases heq
      rw [shmems_cons_plain hs] at ho
      exact hrec h₁ (Owned.kfree ho hfree) hrest

end vmas

end Ucore.Fork
