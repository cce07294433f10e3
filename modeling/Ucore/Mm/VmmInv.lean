import Ucore.Mm.Vmm
import Ucore.Rb.Walk

/-!
# The invariant of the VMA set

`Mm.Inv` — the three indexes of an address space agree: the list is sorted and its areas are
disjoint, aligned and in user space, the tree (if there is one) is a red-black tree with exactly
these nodes in this order, and the cache is one of them.  Live objects outside the list, as the
VMAs that `mm_unmap` has taken out for a while, are not restricted.

Principal results: `findVma_spec` (the three ways to look up an address agree),
`insertVmaStruct_spec` and `removeVmaStruct_spec`.
-/

namespace Ucore

open RedBlack CTree RbTree

/-- A non-empty, page aligned area of user space. -/
structure VmaOk (x : Vma) : Prop where
  base : USERBASE ≤ x.vmStart
  nonempty : x.vmStart < x.vmEnd
  top : x.vmEnd ≤ USERTOP
  startAligned : PGSIZE ∣ x.vmStart
  endAligned : PGSIZE ∣ x.vmEnd

/-- The two areas do not meet. -/
def Vma.Apart (x y : Vma) : Prop := x.vmEnd ≤ y.vmStart ∨ y.vmEnd ≤ x.vmStart

/-- The address is in the area. -/
def Vma.Has (x : Vma) (addr : ℕ) : Prop := x.vmStart ≤ addr ∧ addr < x.vmEnd

/-- Some of the calls unmaps the address. -/
def Unmaps (effects : List VmEffect) (addr : ℕ) : Prop :=
  ∃ lo hi, VmEffect.unmapRange lo hi ∈ effects ∧ lo ≤ addr ∧ addr < hi

namespace Mm

/-- A VMA with these flags has the address. -/
def Covers (mm : Mm) (addr : ℕ) (flags : UInt32) : Prop :=
  ∃ v ∈ mm.mmapList, (mm.vma v).Has addr ∧ (mm.vma v).vmFlags = flags

/-- The areas of the list `l` follow one another. -/
def Ordered (mm : Mm) (l : List ℕ) : Prop :=
  l.Pairwise fun u v => (mm.vma u).vmEnd ≤ (mm.vma v).vmStart

/-- The object `v` is live and may be in the list. -/
structure Member (mm : Mm) (v : ℕ) : Prop where
  live : mm.vmas v = some (mm.vma v)
  ok : VmaOk (mm.vma v)
  owner : (mm.vma v).vmMm = some mm.self

/-- **The invariant of the VMA set.** -/
structure Inv (mm : Mm) : Prop where
  member : ∀ v ∈ mm.mmapList, mm.Member v
  ordered : mm.Ordered mm.mmapList
  count : mm.mapCount = mm.mmapList.length
  tree : ∀ t, mm.mmapTree = some t → t.IsRb mm.mmapList
  cache : ∀ v, mm.mmapCache = some v → v ∈ mm.mmapList

section Basic

variable {mm : Mm} {v : ℕ} {x : Vma} {addr : ℕ}

theorem vma_of_some (h : mm.vmas v = some x) : mm.vma v = x := by
  unfold vma
  rw [h]
  rfl

@[simp] theorem setVma_vma (w : ℕ) : (mm.setVma v x).vma w = if w = v then x else mm.vma w := by
  unfold vma setVma
  by_cases h : w = v
  · simp [h]
  · simp [h]

@[simp] theorem setVma_vmas (w : ℕ) :
    (mm.setVma v x).vmas w = if w = v then some x else mm.vmas w := by
  simp [setVma, Function.update_apply]

@[simp] theorem setVma_mmapList : (mm.setVma v x).mmapList = mm.mmapList := rfl

@[simp] theorem setVma_mmapTree : (mm.setVma v x).mmapTree = mm.mmapTree := rfl

@[simp] theorem setVma_mmapCache : (mm.setVma v x).mmapCache = mm.mmapCache := rfl

@[simp] theorem setVma_mapCount : (mm.setVma v x).mapCount = mm.mapCount := rfl

@[simp] theorem setVma_self : (mm.setVma v x).self = mm.self := rfl

theorem vma_congr {mm' : Mm} (h : mm'.vmas v = mm.vmas v) : mm'.vma v = mm.vma v := by
  unfold vma
  rw [h]

theorem Member.congr {mm' : Mm} (h : mm.Member v) (hs : mm'.self = mm.self)
    (hv : mm'.vmas v = mm.vmas v) : mm'.Member v := by
  have heq := vma_congr hv
  exact ⟨by rw [hv, heq]; exact h.live, by rw [heq]; exact h.ok, by rw [heq, hs]; exact h.owner⟩

theorem Ordered.congr {mm' : Mm} {l : List ℕ} (h : mm.Ordered l)
    (hv : ∀ v ∈ l, mm'.vmas v = mm.vmas v) : mm'.Ordered l := by
  refine List.Pairwise.imp_of_mem (fun {u w} hu hw huw => ?_) h
  rw [vma_congr (hv u hu), vma_congr (hv w hw)]
  exact huw

/-- A list of members in order has no node twice. -/
theorem Ordered.nodup {l : List ℕ} (h : mm.Ordered l) (hm : ∀ v ∈ l, VmaOk (mm.vma v)) :
    l.Nodup := by
  refine List.Pairwise.imp_of_mem (fun {u v} hu _ huv heq => ?_) h
  subst heq
  have := (hm u hu).nonempty
  omega

theorem Inv.ok (h : Inv mm) (hv : v ∈ mm.mmapList) : VmaOk (mm.vma v) := (h.member v hv).ok

theorem Inv.nodup (h : Inv mm) : mm.mmapList.Nodup := h.ordered.nodup fun _ hv => h.ok hv

end Basic

/-! ## Looking up an address -/

section Find

variable {mm : Mm} {addr : ℕ}

/-- The first VMA of the list that ends behind the address. -/
def firstAbove (mm : Mm) (addr : ℕ) (l : List ℕ) : Option ℕ :=
  l.find? fun v => decide (addr < (mm.vma v).vmEnd)

theorem findVmaList_spec : ∀ l : List ℕ, (∀ v ∈ l, mm.Member v) →
    mm.findVmaList addr l = some (mm.firstAbove addr l)
  | [], _ => rfl
  | v :: vs, h => by
    unfold findVmaList
    rw [(h v (by simp)).live]
    show (if addr < (mm.vma v).vmEnd then _ else _) = _
    rw [findVmaList_spec vs fun w hw => h w (by simp [hw])]
    unfold firstAbove
    by_cases hlt : addr < (mm.vma v).vmEnd
    · rw [if_pos hlt, List.find?_cons_of_pos (by simpa using hlt)]
    · rw [if_neg hlt, List.find?_cons_of_neg (by simpa using hlt)]

/-- No VMA before one that starts at or below the address ends behind it. -/
theorem firstAbove_eq_none {A : List ℕ} {b : ℕ} (h : ∀ u ∈ A, (mm.vma u).vmEnd ≤ b)
    (hb : b ≤ addr) : mm.firstAbove addr A = none := by
  refine List.find?_eq_none.mpr fun u hu => ?_
  have := h u hu
  simp only [decide_eq_true_eq]
  omega

theorem firstAbove_append (A B : List ℕ) :
    mm.firstAbove addr (A ++ B) = (mm.firstAbove addr A).or (mm.firstAbove addr B) :=
  List.find?_append

theorem firstAbove_cons_pos {v : ℕ} {B : List ℕ} (h : addr < (mm.vma v).vmEnd) :
    mm.firstAbove addr (v :: B) = some v :=
  List.find?_cons_of_pos (by simpa using h)

theorem firstAbove_cons_neg {v : ℕ} {B : List ℕ} (h : ¬ addr < (mm.vma v).vmEnd) :
    mm.firstAbove addr (v :: B) = mm.firstAbove addr B :=
  List.find?_cons_of_neg (by simpa using h)

/-- The descent of `find_vma_rb` through one subtree. -/
theorem findVmaRb_spec {tree : RbTree ℕ} : ∀ (fuel : ℕ) (c : List (Frame ℕ)) (S : CTree ℕ)
    (best : Option ℕ), Rep tree (plug c S) → (∀ v ∈ S.inorder, mm.Member v) →
    mm.Ordered S.inorder → S.height ≤ fuel →
    mm.findVmaRb tree addr fuel (toNode (ptr S)) best =
      some ((mm.firstAbove addr S.inorder).or best) := by
  intro fuel
  induction fuel with
  | zero =>
    intro c S best _ _ _ hlt
    cases S with
    | nil => rfl
    | node red l i r => simp [height] at hlt
  | succ fuel ih =>
    intro c S best h hmem hord hlt
    cases S with
    | nil => rfl
    | node red l i r =>
      simp only [height] at hlt
      have hat : NodeAt tree .left i red _ (ptr l) (ptr r) := Rep.nodeAt (s := .left) h
      simp only [inorder_node, List.mem_append, List.mem_cons] at hmem
      have hi := hmem i (Or.inr (Or.inl rfl))
      have hne := hi.ok.nonempty
      unfold Ordered at hord
      rw [inorder_node, List.pairwise_append, List.pairwise_cons] at hord
      obtain ⟨hol, ⟨-, hor⟩, hlow⟩ := hord
      -- everything on the left ends before `i` starts
      have hleft : ∀ u ∈ l.inorder, (mm.vma u).vmEnd ≤ (mm.vma i).vmStart :=
        fun u hu => hlow u hu i (by simp)
      have hll := ih (⟨.left, red, i, r⟩ :: c) l (some i) h (fun v hv => hmem v (Or.inl hv)) hol
        (by omega)
      have hrr := ih (⟨.right, red, i, l⟩ :: c) r best h
        (fun v hv => hmem v (Or.inr (Or.inr hv))) hor (by omega)
      rw [inorder_node, firstAbove_append]
      show mm.findVmaRb tree addr (fuel + 1) (some i) best = _
      unfold findVmaRb
      rw [hi.live, show tree.rbNodeLeft i = toNode (ptr l) by rw [rbNodeLeft, hat.near],
        show tree.rbNodeRight i = toNode (ptr r) by
          rw [rbNodeRight, show tree.child .right (.node i) = ptr r from hat.far], hll, hrr]
      show (if (mm.vma i).vmEnd > addr then
        (if (mm.vma i).vmStart ≤ addr then some (some i) else _) else _) = _
      by_cases hend : (mm.vma i).vmEnd > addr
      · rw [if_pos hend, firstAbove_cons_pos hend]
        by_cases hstart : (mm.vma i).vmStart ≤ addr
        · rw [if_pos hstart, firstAbove_eq_none hleft hstart]
          rfl
        · rw [if_neg hstart]
          cases mm.firstAbove addr l.inorder <;> rfl
      · rw [if_neg hend, firstAbove_cons_neg (by omega), firstAbove_eq_none hleft (by omega)]
        rfl

theorem Inv.findVmaMiss_eq (h : Inv mm) :
    mm.findVmaMiss addr = some (mm.firstAbove addr mm.mmapList) := by
  unfold findVmaMiss
  cases ht : mm.mmapTree with
  | none => exact findVmaList_spec _ h.member
  | some tree =>
    obtain ⟨T, N, hrep, -, hord⟩ := h.tree tree ht
    have hheight := height_le_length T
    have hcount := h.count
    have htop : tree.rbNodeRoot = toNode (ptr T) := by
      rw [rbNodeRoot, show tree.child .left .root = ptr T from hrep.path]
    show mm.findVmaRb tree addr mm.treeFuel tree.rbNodeRoot none = _
    rw [htop, findVmaRb_spec mm.treeFuel [] T none hrep (by rw [hord]; exact h.member)
      (by rw [hord]; exact h.ordered) (by rw [hord] at hheight; unfold treeFuel; omega), hord]
    simp

/-- A VMA of the list that contains the address is the first that ends behind it. -/
theorem Inv.firstAbove_of_mem (h : Inv mm) {v : ℕ} (hv : v ∈ mm.mmapList)
    (hstart : (mm.vma v).vmStart ≤ addr) (hend : addr < (mm.vma v).vmEnd) :
    mm.firstAbove addr mm.mmapList = some v := by
  obtain ⟨A, B, hAB⟩ := List.append_of_mem hv
  have hord := h.ordered
  unfold Ordered at hord
  rw [hAB, List.pairwise_append] at hord
  rw [hAB, firstAbove_append, firstAbove_cons_pos hend,
    firstAbove_eq_none (fun u hu => hord.2.2 u hu v (by simp)) hstart]
  rfl

/-- The address space after `find_vma`: only the cache may have changed. -/
def touched (mm : Mm) (addr : ℕ) : Mm :=
  if mm.firstAbove addr mm.mmapList ≠ none then
    { mm with mmapCache := mm.firstAbove addr mm.mmapList }
  else mm

theorem touched_vmas : (mm.touched addr).vmas = mm.vmas := by unfold touched; split <;> rfl

theorem touched_mmapList : (mm.touched addr).mmapList = mm.mmapList := by
  unfold touched; split <;> rfl

theorem touched_vma : (mm.touched addr).vma = mm.vma := by
  funext v
  unfold vma
  rw [touched_vmas]

/-- **`find_vma`**, through the cache, the tree or the list: the first VMA of the list that ends
behind the address. -/
theorem Inv.findVma_spec (h : Inv mm) (addr : ℕ) :
    mm.findVma addr = some (mm.firstAbove addr mm.mmapList, mm.touched addr) := by
  have hhit : ∃ hit, mm.cacheHit addr = some hit ∧
      (hit = true → mm.firstAbove addr mm.mmapList = mm.mmapCache) := by
    unfold cacheHit
    cases hc : mm.mmapCache with
    | none => exact ⟨false, rfl, nofun⟩
    | some v =>
      have hv := h.cache v hc
      show ∃ hit, (mm.vmas v).map _ = _ ∧ _
      rw [(h.member v hv).live]
      refine ⟨_, rfl, fun hit => ?_⟩
      have hit := of_decide_eq_true hit
      exact h.firstAbove_of_mem hv hit.1 hit.2
  obtain ⟨hit, hcache, heq⟩ := hhit
  unfold findVma
  rw [hcache]
  cases hit with
  | true =>
    show some (mm.mmapCache, if mm.mmapCache ≠ none then _ else _) = _
    rw [← heq rfl]
    rfl
  | false =>
    show (mm.findVmaMiss addr).bind _ = _
    rw [h.findVmaMiss_eq]
    rfl

theorem Inv.touched (h : Inv mm) (addr : ℕ) : Inv (mm.touched addr) := by
  unfold Mm.touched
  split
  · refine ⟨fun v hv => (h.member v hv).congr rfl rfl, h.ordered.congr fun _ _ => rfl, h.count,
      h.tree, fun v hv => ?_⟩
    exact List.mem_of_find?_eq_some hv
  · exact h

end Find

/-! ## Inserting and removing a VMA -/

section Insert

variable {mm : Mm} {vma : ℕ} {x : Vma} {A B : List ℕ}

/-- The new area `x` fits between the areas of `A` and those of `B`. -/
structure Fits (mm : Mm) (x : Vma) (A B : List ℕ) : Prop where
  before : ∀ u ∈ A, (mm.vma u).vmEnd ≤ x.vmStart
  after : ∀ u ∈ B, x.vmEnd ≤ (mm.vma u).vmStart

/-- An area that meets no area of an ordered list fits somewhere. -/
theorem exists_fits {l : List ℕ} (hord : mm.Ordered l) (hok : ∀ u ∈ l, VmaOk (mm.vma u))
    (hdisj : ∀ u ∈ l, (mm.vma u).Apart x) :
    ∃ A B, l = A ++ B ∧ mm.Fits x A B := by
  induction l with
  | nil => exact ⟨[], [], rfl, nofun, nofun⟩
  | cons v vs ih =>
    obtain ⟨hv, hvs⟩ := List.pairwise_cons.mp hord
    rcases hdisj v (by simp) with hlow | hhigh
    · obtain ⟨A, B, rfl, hfit⟩ := ih hvs (fun u hu => hok u (by simp [hu])) fun u hu =>
        hdisj u (by simp [hu])
      refine ⟨v :: A, B, rfl, ?_, hfit.after⟩
      intro u hu
      rcases List.mem_cons.mp hu with rfl | hu
      · exact hlow
      · exact hfit.before u hu
    · refine ⟨[], v :: vs, rfl, nofun, ?_⟩
      intro u hu
      rcases List.mem_cons.mp hu with rfl | hu
      · exact hhigh
      · have := hv u hu
        have := (hok v (by simp)).nonempty
        omega

theorem listNext_append : ∀ {A : List ℕ}, (A ++ B).Nodup →
    listNext (A ++ B) A.getLast? = B.head?
  | [], _ => by cases B <;> rfl
  | [a], _ => by simp [listNext]
  | a :: b :: A, h => by
    have hab : a ≠ (b :: A).getLast (by simp) := by
      intro heq
      have := (List.nodup_cons.mp h).1
      exact this (List.mem_append_left _ (heq ▸ List.getLast_mem _))
    have ih := listNext_append (A := b :: A) (List.nodup_cons.mp h).2
    rw [List.getLast?_cons_cons, List.getLast?_eq_some_getLast (by simp)] at *
    show listNext (a :: (b :: A ++ B)) _ = _
    rw [listNext, if_neg hab]
    exact ih

theorem listAddAfter_append : ∀ {A : List ℕ}, (A ++ B).Nodup →
    listAddAfter vma (A ++ B) A.getLast? = A ++ vma :: B
  | [], _ => by cases B <;> rfl
  | [a], _ => by simp [listAddAfter]
  | a :: b :: A, h => by
    have hab : a ≠ (b :: A).getLast (by simp) := by
      intro heq
      have := (List.nodup_cons.mp h).1
      exact this (List.mem_append_left _ (heq ▸ List.getLast_mem _))
    have ih := listAddAfter_append (A := b :: A) (List.nodup_cons.mp h).2
    rw [List.getLast?_cons_cons, List.getLast?_eq_some_getLast (by simp)] at *
    show listAddAfter vma (a :: (b :: A ++ B)) _ = _
    rw [listAddAfter, if_neg hab, ih]
    rfl

theorem walkPrev_spec {start : ℕ} : ∀ (A : List ℕ) (prev : Option ℕ),
    (∀ u ∈ A ++ B, mm.Member u) → (∀ u ∈ A, (mm.vma u).vmStart ≤ start) →
    (∀ u ∈ B, start < (mm.vma u).vmStart) →
    mm.walkPrev start (A ++ B) prev = some (A.getLast?.or prev)
  | [], prev, hm, _, hB => by
    cases B with
    | nil => rfl
    | cons v vs =>
      show mm.walkPrev start (v :: vs) prev = _
      unfold walkPrev
      rw [(hm v (by simp)).live]
      show (if start < (mm.vma v).vmStart then _ else _) = _
      rw [if_pos (hB v (by simp))]
      rfl
  | a :: A, prev, hm, hA, hB => by
    have ha : ¬ (mm.vma a).vmStart > start := by
      have := hA a (by simp)
      omega
    show mm.walkPrev start (a :: (A ++ B)) prev = _
    unfold walkPrev
    rw [(hm a (by simp)).live]
    show (if (mm.vma a).vmStart > start then _ else _) = _
    rw [if_neg ha, walkPrev_spec A (some a) (fun u hu => hm u (by simp_all))
      (fun u hu => hA u (by simp [hu])) hB]
    cases A with
    | nil => rfl
    | cons b A => simp [List.getLast?_eq_some_getLast]

theorem vmaCompare_pos {v w : ℕ} :
    mm.vmaCompare v w > 0 ↔ (mm.vma w).vmStart < (mm.vma v).vmStart := by
  simp only [vmaCompare]
  split
  · omega
  · split <;> omega

/-- An ordered list is in the order of `vma_compare`. -/
theorem Ordered.compare_mono {l : List ℕ} (hord : mm.Ordered l)
    (hok : ∀ u ∈ l, VmaOk (mm.vma u)) (z : ℕ) :
    l.Pairwise fun i j => mm.vmaCompare i z > 0 → mm.vmaCompare j z > 0 := by
  refine List.Pairwise.imp_of_mem (fun {u w} hu _ huw => ?_) hord
  have := (hok u hu).nonempty
  rw [vmaCompare_pos, vmaCompare_pos]
  omega

/-- A list splits in one way only into a part without and a part with a property. -/
theorem append_unique {P : ℕ → Prop} {L₁ L₂ : List ℕ} (h : L₁ ++ L₂ = A ++ B)
    (h₁ : ∀ j ∈ L₁, ¬ P j) (h₂ : ∀ j ∈ L₂, P j) (hA : ∀ j ∈ A, ¬ P j) (hB : ∀ j ∈ B, P j) :
    L₁ = A ∧ L₂ = B := by
  rcases List.append_eq_append_iff.mp h with ⟨C, rfl, rfl⟩ | ⟨C, rfl, rfl⟩
  · cases C with
    | nil => simp
    | cons c C => exact absurd (h₂ c (by simp)) (hA c (by simp))
  · cases C with
    | nil => simp
    | cons c C => exact absurd (hB c (by simp)) (h₁ c (by simp))

/-- The tree or the list tell the VMA before the new one. -/
theorem Inv.insertPlace_spec (h : Inv mm) (hx : mm.vmas vma = some x) (hok : VmaOk x)
    (hnew : vma ∉ mm.mmapList) (hAB : mm.mmapList = A ++ B) (hfit : mm.Fits x A B) :
    ∃ tree, mm.insertPlace vma x = some (A.getLast?, { mm with mmapTree := tree }) ∧
      (∀ t, tree = some t → t.IsRb (A ++ vma :: B)) ∧ (mm.mmapTree = none → tree = none) := by
  have hokl : ∀ u ∈ A ++ B, VmaOk (mm.vma u) := fun u hu => h.ok (hAB ▸ hu)
  have hlow : ∀ u ∈ A, (mm.vma u).vmStart ≤ x.vmStart := by
    intro u hu
    have := (hokl u (by simp [hu])).nonempty
    have := hfit.before u hu
    omega
  have hhigh : ∀ u ∈ B, x.vmStart < (mm.vma u).vmStart := by
    intro u hu
    have := hfit.after u hu
    have := hok.nonempty
    omega
  have hvma := vma_of_some hx
  unfold insertPlace
  cases ht : mm.mmapTree with
  | none =>
    refine ⟨none, ?_, nofun, fun _ => rfl⟩
    have hm := h.member
    have hwalk := walkPrev_spec (B := B) A none (by rw [← hAB]; exact hm) hlow hhigh
    rw [← hAB, Option.or_none] at hwalk
    show (mm.walkPrev x.vmStart mm.mmapList none).bind _ = _
    rw [hwalk]
    cases mm
    cases ht
    rfl
  | some t =>
    have hrb := h.tree t ht
    have hcount := h.count
    obtain ⟨t', L₁, L₂, hrun, hrb', hL, hL₁, hL₂⟩ := rbInsert_isRb hrb hnew
      (h.ordered.compare_mono (fun u hu => h.ok hu) vma)
      (show _ < mm.treeFuel by unfold treeFuel; omega)
    simp only [vmaCompare_pos, hvma] at hL₁ hL₂
    rw [hAB] at hL
    obtain ⟨rfl, rfl⟩ := append_unique (P := fun j => x.vmStart < (mm.vma j).vmStart) hL.symm hL₁
      hL₂ (fun j hj => by have := hlow j hj; omega) hhigh
    have hlen : (L₁ ++ vma :: L₂).length < mm.treeFuel := by
      rw [hAB] at hcount
      simp only [List.length_append, List.length_cons] at hcount ⊢
      unfold treeFuel
      omega
    refine ⟨some t', ?_, fun t ht => by cases ht; exact hrb', nofun⟩
    have hprev := rbNodePrev_isRb hrb' hlen
    show (mm.insertVmaRb vma t).bind _ = _
    unfold insertVmaRb
    rw [hrun]
    show ((t'.rbNodePrev mm.treeFuel vma).bind _).bind _ = _
    rw [hprev]
    rfl

/-- Inserting an ordered list of VMAs one after the other builds the tree. -/
theorem buildTree_fold : ∀ (l P : List ℕ) (t : RbTree ℕ), t.IsRb P →
    mm.Ordered (P ++ l) → (∀ u ∈ P ++ l, VmaOk (mm.vma u)) → (P ++ l).length < mm.treeFuel →
    ∃ t', l.foldlM (fun tree v => tree.rbInsert mm.vmaCompare mm.treeFuel v) t = some t' ∧
      t'.IsRb (P ++ l) := by
  intro l
  induction l with
  | nil =>
    intro P t ht _ _ _
    exact ⟨t, rfl, by rwa [List.append_nil]⟩
  | cons v vs ih =>
    intro P t ht hord hok hlen
    have hnd := hord.nodup hok
    have hv : v ∉ P := fun hmem =>
      (List.nodup_append.mp hnd).2.2 v hmem v (by simp) rfl
    have hordP := (List.pairwise_append.mp hord)
    obtain ⟨t', L₁, L₂, hrun, hrb, hP, hL₁, hL₂⟩ := rbInsert_isRb ht hv
      (Ordered.compare_mono hordP.1 (fun u hu => hok u (by simp [hu])) v)
      (show _ < mm.treeFuel by simp only [List.length_append, List.length_cons] at hlen; omega)
    -- every node of the tree starts before `v`
    have hL₂nil : L₂ = [] := by
      cases L₂ with
      | nil => rfl
      | cons w L₂ =>
        have hw : w ∈ P := by rw [hP]; simp
        have h1 := hordP.2.2 w hw v (by simp)
        have h2 := (hok w (by simp [hw])).nonempty
        have h3 := vmaCompare_pos.mp (hL₂ w (by simp))
        omega
    subst hL₂nil
    rw [List.append_nil] at hP
    subst hP
    have hassoc : P ++ v :: vs = P ++ [v] ++ vs := by simp
    rw [hassoc] at hord hok hlen ⊢
    obtain ⟨t'', hfold, hrb''⟩ := ih (P ++ [v]) t' hrb hord hok hlen
    refine ⟨t'', ?_, hrb''⟩
    rw [List.foldlM_cons, hrun]
    exact hfold

/-- `insert_vma_struct` keeps the invariant while the tree is built or not. -/
theorem Inv.buildTree_spec (h : Inv mm) (mem : Option (RbTree ℕ)) :
    ∃ tree, buildTree mem mm = some { mm with mmapTree := tree } ∧
      Inv { mm with mmapTree := tree } := by
  have hkeep : ∀ tree, (∀ t, tree = some t → t.IsRb mm.mmapList) →
      Inv { mm with mmapTree := tree } := fun tree ht =>
    ⟨fun v hv => (h.member v hv).congr rfl rfl, h.ordered.congr fun _ _ => rfl, h.count, ht,
      h.cache⟩
  have hsame : some mm = some { mm with mmapTree := mm.mmapTree } := rfl
  unfold buildTree
  cases htree : mm.mmapTree with
  | some t =>
    refine ⟨mm.mmapTree, ?_, hkeep _ h.tree⟩
    rfl
  | none =>
    cases mem with
    | none => exact ⟨mm.mmapTree, rfl, hkeep _ h.tree⟩
    | some mem =>
      have hcount := h.count
      obtain ⟨t', hfold, hrb⟩ := buildTree_fold mm.mmapList [] _
        (rbTreeCreate_isRb mem) h.ordered (fun u hu => h.ok hu)
        (by rw [List.nil_append]; unfold treeFuel; omega)
      by_cases hmin : RB_MIN_MAP_COUNT ≤ mm.mapCount
      · refine ⟨some t', ?_, hkeep _ fun t ht => by cases ht; exact hrb⟩
        show (if RB_MIN_MAP_COUNT ≤ mm.mapCount then _ else _) = _
        rw [if_pos hmin, hfold]
        rfl
      · refine ⟨mm.mmapTree, ?_, hkeep _ h.tree⟩
        show (if RB_MIN_MAP_COUNT ≤ mm.mapCount then _ else _) = _
        rw [if_neg hmin]

/-- What `insert_vma_struct` leaves behind. -/
structure Inserted (mm mm' : Mm) (vma : ℕ) (x : Vma) : Prop where
  inv : Inv mm'
  vmas : mm'.vmas = Function.update mm.vmas vma (some { x with vmMm := some mm.self })
  self : mm'.self = mm.self
  mem : ∀ u, u ∈ mm'.mmapList ↔ u = vma ∨ u ∈ mm.mmapList

/-- **`insert_vma_struct`** of an area that meets no other: no assertion fails, and the area is in
the list and in the tree. -/
theorem Inv.insertVmaStruct_spec (h : Inv mm) (hx : mm.vmas vma = some x) (hok : VmaOk x)
    (hnew : vma ∉ mm.mmapList)
    (hdisj : ∀ u ∈ mm.mmapList, (mm.vma u).Apart x)
    (mem : Option (RbTree ℕ)) :
    ∃ mm', mm.insertVmaStruct mem vma = some mm' ∧ Inserted mm mm' vma x := by
  obtain ⟨A, B, hAB, hfit⟩ := exists_fits h.ordered (fun u hu => h.ok hu) hdisj
  obtain ⟨tree, hplace, htree, -⟩ := h.insertPlace_spec hx hok hnew hAB hfit
  have hnd := h.nodup
  rw [hAB] at hnd
  have hprev : mm.checkNeighbour (fun p => checkVmaOverlap p x) A.getLast? = some () := by
    cases hA : A.getLast? with
    | none => rfl
    | some p =>
      have hp := List.mem_of_getLast? hA
      have hpl : p ∈ mm.mmapList := by rw [hAB]; simp [hp]
      show (mm.vmas p).bind _ = _
      rw [(h.member p hpl).live]
      exact if_pos ⟨(h.ok hpl).nonempty, hfit.before p hp, hok.nonempty⟩
  have hnext : mm.checkNeighbour (fun n => checkVmaOverlap x n) B.head? = some () := by
    cases hB : B.head? with
    | none => rfl
    | some n =>
      have hn := List.mem_of_head? hB
      have hnl : n ∈ mm.mmapList := by rw [hAB]; simp [hn]
      show (mm.vmas n).bind _ = _
      rw [(h.member n hnl).live]
      exact if_pos ⟨hok.nonempty, hfit.after n hn, (h.ok hnl).nonempty⟩
  -- the state before the tree is built
  set x' : Vma := { x with vmMm := some mm.self } with hx'
  set mm₁ : Mm := { mm with
    mmapTree := tree, mmapList := A ++ vma :: B, mapCount := mm.mapCount + 1
    vmas := Function.update mm.vmas vma (some x') } with hmm₁
  have hsame : ∀ u ∈ mm.mmapList, mm₁.vmas u = mm.vmas u := by
    intro u hu
    have : u ≠ vma := fun heq => hnew (heq ▸ hu)
    simp [hmm₁, this]
  have hmemA : ∀ u ∈ A, u ∈ mm.mmapList := fun u hu => by rw [hAB]; simp [hu]
  have hmemB : ∀ u ∈ B, u ∈ mm.mmapList := fun u hu => by rw [hAB]; simp [hu]
  have hvma₁ : mm₁.vmas vma = some x' := by simp [hmm₁]
  have hinv : Inv mm₁ := by
    refine ⟨?_, ?_, ?_, htree, ?_⟩
    · intro u hu
      rcases List.mem_append.mp hu with hu | hu
      · exact (h.member u (hmemA u hu)).congr rfl (hsame u (hmemA u hu))
      · rcases List.mem_cons.mp hu with rfl | hu
        · have heq := vma_of_some hvma₁
          refine ⟨by rw [hvma₁, heq], ?_, by rw [heq]⟩
          rw [heq]
          exact ⟨hok.base, hok.nonempty, hok.top, hok.startAligned, hok.endAligned⟩
        · exact (h.member u (hmemB u hu)).congr rfl (hsame u (hmemB u hu))
    · have hord := h.ordered
      unfold Ordered at hord ⊢
      rw [hAB, List.pairwise_append] at hord
      rw [List.pairwise_append, List.pairwise_cons, vma_of_some hvma₁]
      refine ⟨Ordered.congr hord.1 fun u hu => hsame u (hmemA u hu), ⟨?_, ?_⟩, ?_⟩
      · intro u hu
        rw [vma_congr (hsame u (hmemB u hu))]
        exact hfit.after u hu
      · exact Ordered.congr hord.2.1 fun u hu => hsame u (hmemB u hu)
      · intro u hu w hw
        rw [vma_congr (hsame u (hmemA u hu))]
        rcases List.mem_cons.mp hw with rfl | hw
        · rw [vma_of_some hvma₁]
          exact hfit.before u hu
        · rw [vma_congr (hsame w (hmemB w hw))]
          exact hord.2.2 u hu w hw
    · have hcount := h.count
      rw [hAB] at hcount
      simp only [hmm₁, List.length_append, List.length_cons] at hcount ⊢
      omega
    · intro v hv
      have := h.cache v hv
      rw [hAB] at this
      simp only [hmm₁, List.mem_append, List.mem_cons] at this ⊢
      tauto
  obtain ⟨tree', hbuild, hinv'⟩ := hinv.buildTree_spec mem
  refine ⟨_, ?_, hinv', rfl, rfl, ?_⟩
  · unfold insertVmaStruct
    rw [hx]
    have hguard : guard (x.vmStart < x.vmEnd) = some () := if_pos hok.nonempty
    simp only [Option.bind_eq_bind, Option.bind_some, hguard, hplace]
    have hlist : listNext mm.mmapList A.getLast? = B.head? := by
      rw [hAB]
      exact listNext_append hnd
    have hadd : listAddAfter vma mm.mmapList A.getLast? = A ++ vma :: B := by
      rw [hAB]
      exact listAddAfter_append hnd
    simp only [hlist, setVma, hadd]
    show (mm.checkNeighbour _ _).bind (fun _ => (mm.checkNeighbour _ _).bind _) = _
    rw [hprev, Option.bind_some, hnext]
    exact hbuild
  · intro u
    show u ∈ A ++ vma :: B ↔ _
    rw [hAB]
    simp only [List.mem_append, List.mem_cons]
    tauto

/-- What `remove_vma_struct` leaves behind. -/
structure Removed (mm mm' : Mm) (vma : ℕ) : Prop where
  inv : Inv mm'
  vmas : mm'.vmas = mm.vmas
  self : mm'.self = mm.self
  list : mm'.mmapList = mm.mmapList.erase vma

/-- **`remove_vma_struct`** of a VMA of the list. -/
theorem Inv.removeVmaStruct_spec (h : Inv mm) (hv : vma ∈ mm.mmapList) :
    ∃ mm', mm.removeVmaStruct vma = some mm' ∧ Removed mm mm' vma := by
  have hm := h.member vma hv
  have htree : ∃ tree, mm.deleteVmaRb vma = some tree ∧
      ∀ t, tree = some t → t.IsRb (mm.mmapList.erase vma) := by
    unfold deleteVmaRb
    cases ht : mm.mmapTree with
    | none => exact ⟨none, rfl, nofun⟩
    | some t =>
      have hcount := h.count
      obtain ⟨t', hrun, hrb⟩ := rbDelete_isRb (h.tree t ht) hv
        (show _ ≤ mm.treeFuel by unfold treeFuel; omega)
      exact ⟨some t', by simp only [hrun, Option.map_some], fun t ht => by cases ht; exact hrb⟩
  obtain ⟨tree, htree, hrb⟩ := htree
  have hguard : guard ((mm.vma vma).vmMm = some mm.self) = some () := if_pos hm.owner
  refine ⟨{ mm with
      mmapTree := tree
      mmapList := mm.mmapList.erase vma
      mmapCache := if mm.mmapCache = some vma then none else mm.mmapCache
      mapCount := mm.mapCount - 1 }, ?_, ⟨?_, ?_, ?_, hrb, ?_⟩, rfl, rfl, rfl⟩
  · unfold removeVmaStruct
    rw [hm.live]
    simp only [Option.bind_eq_bind, Option.bind_some, hguard, htree]
    rfl
  · exact fun u hu => (h.member u (List.mem_of_mem_erase hu)).congr rfl rfl
  · exact Ordered.congr (h.ordered.sublist List.erase_sublist) fun _ _ => rfl
  · show mm.mapCount - 1 = (mm.mmapList.erase vma).length
    rw [h.count, List.length_erase_of_mem hv]
  · intro u hu
    have hu : (if mm.mmapCache = some vma then none else mm.mmapCache) = some u := hu
    split at hu
    · cases hu
    · rename_i hne
      have hneq : u ≠ vma := by
        intro heq
        exact hne (by rw [← heq]; exact hu)
      exact (List.mem_erase_of_ne hneq).mpr (h.cache u hu)

end Insert

end Mm

end Ucore
