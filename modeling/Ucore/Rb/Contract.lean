import Ucore.Rb.Walk

/-!
# The contract of the red-black tree

`Run compare t M` — the memory `t` is what some sequence of `rb_insert` and `rb_delete` made of the
tree that `rb_tree_create` returned, and `M` are the nodes inserted and not deleted.  `Contract`
says about this memory, pointer by pointer, what the callers rely on: order, colours, links, the
nodes that are in the tree, and what every function of `rb_tree.c` does next.

Principal result: `red_black_contract` — the contract holds after every run.
-/

namespace Ucore

open RedBlack CTree

namespace RbTree

variable {ι : Type} {t t' : RbTree ι} {c : List (Frame ι)} {S T : CTree ι} {L R M : List ι}
  {p q : RbPtr ι} {i : ι} {fuel : ℕ}

/-! ## The neighbour on the other side -/

/-- The upward loop of `rb_tree_successor` stops at the first node behind the hole, or at the
sentinel. -/
theorem climbRight_spec [DecidableEq ι] : ∀ (fuel : ℕ) (c : List (Frame ι)) (S : CTree ι),
    Rep t (plug c S) → S ≠ .nil → c.length < fuel →
    ∃ q, climbRight t fuel (ptr S) (above c) = some q ∧
      toNode (if q = .root then .nil else q) = (after c).head? := by
  intro fuel
  induction fuel with
  | zero => intro c S _ _ hlt; omega
  | succ fuel ih =>
    intro c S h hS hlt
    obtain ⟨hnear, hfar⟩ := h.child_above hS
    unfold climbRight
    cases c with
    | nil =>
      have hstop : ptr S ≠ t.child .right (above ([] : List (Frame ι))) := Ne.symm hfar
      rw [if_neg hstop]
      exact ⟨.root, rfl, rfl⟩
    | cons f c =>
      cases hs : f.side with
      | right =>
        -- the hole is on the right, nothing of this frame comes behind it
        simp only [holeSide, hs] at hnear
        rw [if_pos hnear.symm]
        obtain ⟨q, hrun, hq⟩ := ih c (bin f.side f.red S f.id f.sib) h (bin_ne_nil _ _ _ _ _)
          (by simpa using hlt)
        rw [ptr_bin] at hrun
        refine ⟨q, ?_, ?_⟩
        · rw [show t.parent (above (f :: c)) = above c from h.frameAt.parent]
          exact hrun
        · rw [hq, after, hs]
      | left =>
        simp only [holeSide, hs, Side.flip] at hfar
        rw [if_neg (Ne.symm hfar)]
        refine ⟨_, rfl, ?_⟩
        rw [after, hs]
        simp [toNode, above]

/-- **`rb_node_next`** is the neighbour in the order, or `NULL` at its end. -/
theorem rbNodeNext_isRb [DecidableEq ι] (h : IsRb t (L ++ i :: R))
    (hfuel : (L ++ i :: R).length < fuel) : rbNodeNext fuel i t = some R.head? := by
  obtain ⟨c, red, l, r, hrep, -, hR, hlen⟩ := h.around
  have hat : NodeAt t .left i red (above c) (ptr l) (ptr r) := Rep.nodeAt (s := .left) hrep
  unfold rbNodeNext rbTreeSuccessor
  rw [show t.child .right (.node i) = ptr r from hat.far, hR]
  by_cases hr : r = .nil
  · subst hr
    rw [if_neg (by simp), hat.parent]
    obtain ⟨q, hrun, hq⟩ := climbRight_spec fuel c _ hrep (by simp) (by omega)
    rw [ptr_node] at hrun
    rw [hrun]
    simpa using hq
  · rw [if_pos fun heq => hr (ptr_eq_nil.mp heq)]
    obtain ⟨c₁, red', j, b, hrun, rfl, hside⟩ := extreme_spec (s := .left) fuel r
      (⟨.right, red, i, l⟩ :: c) hrep hr (by omega)
    rw [hrun, Option.map_some, inorder_plug, before_eq_nil hside]
    simp [toNode, bin]

/-! ## The order of the nodes -/

/-- The sign of `compare` is a total preorder; nodes of one key compare to 0. -/
structure TotalPreorder (compare : ι → ι → Int) : Prop where
  swap : ∀ i j, compare i j > 0 ↔ compare j i < 0
  trans : ∀ i j k, compare i j ≤ 0 → compare j k ≤ 0 → compare i k ≤ 0

theorem TotalPreorder.of_gt {compare : ι → ι → Int} (h : TotalPreorder compare) {i j : ι}
    (hgt : compare i j > 0) : compare j i ≤ 0 :=
  le_of_lt ((h.swap i j).mp hgt)

theorem TotalPreorder.mono {compare : ι → ι → Int} (h : TotalPreorder compare) {i j : ι} (z : ι)
    (hle : compare i j ≤ 0) (hgt : compare i z > 0) : compare j z > 0 := by
  by_contra hz
  have := h.trans i j z hle (by omega)
  omega

/-- What `rb_search` compares with is a key of the same order: `key i` is the result of `compare`
for the node `i`. -/
def KeyOf (compare : ι → ι → Int) (key : ι → Int) : Prop :=
  ∀ i j, compare i j ≤ 0 → (key j < 0 → key i < 0) ∧ (key i > 0 → key j > 0)

/-- A new node between the smaller ones and the greater ones. -/
theorem TotalPreorder.insert {compare : ι → ι → Int} (h : TotalPreorder compare) {z : ι}
    (hsorted : (L ++ R).Pairwise fun i j => compare i j ≤ 0) (hL : ∀ j ∈ L, ¬ compare j z > 0)
    (hR : ∀ j ∈ R, compare j z > 0) : (L ++ z :: R).Pairwise fun i j => compare i j ≤ 0 := by
  obtain ⟨hl, hr, hlr⟩ := List.pairwise_append.mp hsorted
  refine List.pairwise_append.mpr ⟨hl, List.pairwise_cons.mpr ⟨?_, hr⟩, ?_⟩
  · intro j hj
    exact h.of_gt (hR j hj)
  · intro i hi j hj
    rcases List.mem_cons.mp hj with rfl | hj
    · have := hL i hi
      omega
    · exact hlr i hi j hj

/-- `rb_search` in the subtree `S`: the node it returns compares equal to the key, and it returns
`nil` only if none does. -/
theorem searchLoop_spec {κ : Type} {compare : ι → ι → Int} {search : ι → κ → Int} {key : κ}
    (hkey : KeyOf compare fun i => search i key) :
    ∀ (S : CTree ι) (c : List (Frame ι)) (fuel : ℕ), Rep t (plug c S) →
    S.inorder.Pairwise (fun i j => compare i j ≤ 0) → S.height < fuel →
    (∃ i, searchLoop search key t fuel (ptr S) = some (.node i) ∧ i ∈ S.inorder ∧
        search i key = 0) ∨
      searchLoop search key t fuel (ptr S) = some .nil ∧ ∀ i ∈ S.inorder, search i key ≠ 0 := by
  intro S
  induction S with
  | nil =>
    intro c fuel _ _ hlt
    obtain ⟨fuel, rfl⟩ : ∃ n, fuel = n + 1 := ⟨fuel - 1, by omega⟩
    exact Or.inr ⟨rfl, fun i hi => absurd hi List.not_mem_nil⟩
  | node red l i r ihl ihr =>
    intro c fuel h hsorted hlt
    obtain ⟨fuel, rfl⟩ : ∃ n, fuel = n + 1 := ⟨fuel - 1, by omega⟩
    simp only [height] at hlt
    rw [inorder_node] at hsorted ⊢
    obtain ⟨hl, hir, hlr⟩ := List.pairwise_append.mp hsorted
    obtain ⟨hi, hr⟩ := List.pairwise_cons.mp hir
    have hat : NodeAt t .left i red _ (ptr l) (ptr r) := Rep.nodeAt (s := .left) h
    show (∃ j, (if search i key ≠ 0 then searchLoop search key t fuel
      (t.child (if search i key > 0 then .left else .right) (.node i)) else _) = _ ∧ _) ∨
      (if search i key ≠ 0 then searchLoop search key t fuel
      (t.child (if search i key > 0 then .left else .right) (.node i)) else _) = _ ∧ _
    by_cases hzero : search i key = 0
    · rw [if_neg (not_not.mpr hzero)]
      exact Or.inl ⟨i, rfl, by simp, hzero⟩
    rw [if_pos hzero]
    by_cases hgt : search i key > 0
    · rw [if_pos hgt, hat.near]
      rcases ihl (⟨.left, red, i, r⟩ :: c) fuel h hl (by omega) with ⟨j, hrun, hj, hj0⟩ | ⟨hrun, hno⟩
      · exact Or.inl ⟨j, hrun, List.mem_append_left _ hj, hj0⟩
      · refine Or.inr ⟨hrun, fun j hj => ?_⟩
        rcases List.mem_append.mp hj with hj | hj
        · exact hno j hj
        · rcases List.mem_cons.mp hj with rfl | hj
          · exact hzero
          · exact ne_of_gt ((hkey i j (hi j hj)).2 hgt)
    · rw [if_neg hgt, show t.child .right (.node i) = ptr r from hat.far]
      have hlt' : search i key < 0 := by omega
      rcases ihr (⟨.right, red, i, l⟩ :: c) fuel h hr (by omega) with ⟨j, hrun, hj, hj0⟩ | ⟨hrun, hno⟩
      · exact Or.inl ⟨j, hrun, List.mem_append_right _ (List.mem_cons_of_mem _ hj), hj0⟩
      · refine Or.inr ⟨hrun, fun j hj => ?_⟩
        rcases List.mem_append.mp hj with hj | hj
        · exact ne_of_lt ((hkey j i (hlr j hj i List.mem_cons_self)).1 hlt')
        · rcases List.mem_cons.mp hj with rfl | hj
          · exact hzero
          · exact hno j hj

/-! ## The contract, pointer by pointer -/

/-- The in-order walk from `p` down: the nodes on the left of a node, the node, those on its
right. -/
inductive InOrder (t : RbTree ι) : RbPtr ι → List ι → Prop where
  | nil : InOrder t .nil []
  | node {i : ι} {A B : List ι} : InOrder t (t.child .left (.node i)) A →
      InOrder t (t.child .right (.node i)) B → InOrder t (.node i) (A ++ i :: B)

/-- Some path from `p` down to `nil` passes `n` black nodes, not counting `nil`. -/
inductive BlackPath (t : RbTree ι) : RbPtr ι → ℕ → Prop where
  | nil : BlackPath t .nil 0
  | node {i : ι} {n : ℕ} (s : Side) : BlackPath t (t.child s (.node i)) n →
      BlackPath t (.node i) (n + if t.red (.node i) then 0 else 1)

/-- What the callers of `rb_tree.c` rely on, with the nodes `M` in the tree. -/
structure Contract [DecidableEq ι] (compare : ι → ι → Int) (t : RbTree ι) (M : List ι) : Prop where
  /-- The tree holds the nodes of `M`, each once and in the order of `compare`; `rb_node_prev` and
  `rb_node_next` are the neighbours. -/
  order : ∃ L, InOrder t (t.child .left .root) L ∧ L.Perm M ∧ L.Nodup ∧
    (L.Pairwise fun i j => compare i j ≤ 0) ∧
    ∀ A i B, L = A ++ i :: B → ∀ fuel, L.length < fuel →
      rbNodePrev fuel i t = some A.getLast? ∧ rbNodeNext fuel i t = some B.head?
  /-- `rb_search` finds a node iff one compares equal. -/
  search : ∀ {κ : Type} (search : ι → κ → Int) (key : κ), KeyOf compare (fun i => search i key) →
    ∀ fuel, M.length < fuel →
      (∃ i ∈ M, search i key = 0 ∧ rbSearch search key fuel t = some (some i)) ∨
      (∀ i ∈ M, search i key ≠ 0) ∧ rbSearch search key fuel t = some none
  nilBlack : t.red .nil = false
  rootBlack : t.red .root = false ∧ t.red (t.child .left .root) = false
  redChild : ∀ i ∈ M, ∀ s, t.red (.node i) = true → t.red (t.child s (.node i)) = false
  blackHeight : ∃ N, ∀ n, BlackPath t (t.child .left .root) n → n = N
  /-- The tree hangs on the left of the sentinel `root`, which is no node's child. -/
  sentinel : t.child .right .root = .nil ∧ t.child .left .root ≠ .root ∧
    ∀ i ∈ M, ∀ s, t.child s (.node i) ≠ .root
  parent : ∀ p s j, (p = .root ∨ ∃ i ∈ M, p = .node i) → t.child s p = .node j →
    t.parent (.node j) = p
  /-- No assertion fails in the next `rb_insert`, and its loops end. -/
  insert : ∀ z ∉ M, ∀ fuel, M.length < fuel → ∃ t', rbInsert compare fuel z t = some t'
  /-- No assertion fails in the next `rb_delete`, and its loops end. -/
  delete : ∀ z ∈ M, ∀ fuel, M.length ≤ fuel → ∃ t', rbDelete fuel (.node z) t = some t'

theorem Linked.inOrder (h : Linked t p T) : InOrder t (ptr T) T.inorder := by
  induction T generalizing p with
  | nil => exact .nil
  | node red l i r ihl ihr =>
    obtain ⟨hat, hl, hr⟩ := h
    have hnear := ihl hl
    have hfar := ihr hr
    rw [← hat.near] at hnear
    rw [← hat.far] at hfar
    exact .node hnear hfar

/-- What the links and colours say below one node of the tree. -/
theorem Linked.node_of_mem (h : Linked t p T) (hi : i ∈ T.inorder) :
    ∃ l red r q, Linked t q (.node red l i r) ∧ ∀ k n, Balanced T k n →
      ∃ k' n', Balanced (.node red l i r) k' n' := by
  induction T generalizing p with
  | nil => cases hi
  | node red l j r ihl ihr =>
    obtain ⟨-, hl, hr⟩ := id h
    rw [inorder_node, List.mem_append, List.mem_cons] at hi
    rcases hi with hi | rfl | hi
    · obtain ⟨l', red', r', q, hsub, hbal⟩ := ihl hl hi
      refine ⟨l', red', r', q, hsub, fun k n hT => ?_⟩
      cases hT with
      | red hTl hTr => exact hbal _ _ hTl
      | black hTl hTr => exact hbal _ _ hTl
    · exact ⟨l, red, r, p, h, fun k n hT => ⟨k, n, hT⟩⟩
    · obtain ⟨l', red', r', q, hsub, hbal⟩ := ihr hr hi
      refine ⟨l', red', r', q, hsub, fun k n hT => ?_⟩
      cases hT with
      | red hTl hTr => exact hbal _ _ hTr
      | black hTl hTr => exact hbal _ _ hTr

theorem Linked.parent_ptr (h : Linked t p T) {j : ι} (hj : ptr T = .node j) :
    t.parent (.node j) = p := by
  cases T with
  | nil => cases hj
  | node red l i r =>
    cases hj
    exact h.1.parent

theorem ptr_ne_root (T : CTree ι) : ptr T ≠ .root := by
  cases T <;> nofun

/-- All paths of a balanced tree pass the same number of black nodes. -/
theorem Balanced.blackPath {k : Bool} {N n : ℕ} (hT : Balanced T k N) (h : Linked t p T)
    (hn : BlackPath t (ptr T) n) : n = N := by
  have hchild : ∀ {red : Bool} {l r : CTree ι} {i : ι} {p : RbPtr ι} (s : Side),
      Linked t p (.node red l i r) → t.child s (.node i) = ptr (if s = .left then l else r) := by
    intro red l r i p s hlinked
    cases s with
    | left => exact hlinked.1.near
    | right => exact hlinked.1.far
  induction hT generalizing p n with
  | nil =>
    cases hn
    rfl
  | red hl hr ihl ihr =>
    cases hn with
    | node s hs =>
      rw [hchild s h] at hs
      rw [h.1.red]
      cases s with
      | left => simpa using ihl h.2.1 hs
      | right => simpa using ihr h.2.2 hs
  | black hl hr ihl ihr =>
    cases hn with
    | node s hs =>
      rw [hchild s h] at hs
      rw [h.1.red]
      cases s with
      | left => simpa using ihl h.2.1 hs
      | right => simpa using ihr h.2.2 hs

section Contract

variable [DecidableEq ι] {compare : ι → ι → Int}

/-- A red-black tree in the order of `compare` meets the contract. -/
theorem IsRb.contract (hcmp : TotalPreorder compare) (h : IsRb t L) (hperm : L.Perm M)
    (hsorted : L.Pairwise fun i j => compare i j ≤ 0) : Contract compare t M := by
  have hlen : L.length = M.length := hperm.length_eq
  have hrb := h
  obtain ⟨T, N, hrep, hbal, hord⟩ := h
  have hheight := height_le_length T
  rw [hord] at hheight
  have htop : t.child .left .root = ptr T := hrep.path
  have hmem : ∀ i ∈ M, i ∈ T.inorder := fun i hi => by
    rw [hord]
    exact hperm.mem_iff.mpr hi
  refine
    { order := ?order, search := ?search, nilBlack := hrep.nilBlack,
      rootBlack := ⟨hrep.rootBlack, ?topBlack⟩, redChild := ?redChild,
      blackHeight := ⟨N, fun n hn => ?blackHeight⟩,
      sentinel := ⟨hrep.rootRight, ?topNode, ?noRoot⟩, parent := ?parent, insert := ?insert,
      delete := ?delete }
  case order =>
    refine ⟨L, ?_, hperm, hrb.nodup, hsorted, fun A i B hL fuel hfuel => ?_⟩
    · rw [htop, ← hord]
      exact hrep.linked.inOrder
    · subst hL
      exact ⟨rbNodePrev_isRb hrb hfuel, rbNodeNext_isRb hrb hfuel⟩
  case search =>
    intro κ search key hkey fuel hfuel
    unfold rbSearch
    rw [htop]
    rcases searchLoop_spec hkey T [] fuel hrep (by rw [hord]; exact hsorted) (by omega) with
      ⟨i, hrun, hi, hzero⟩ | ⟨hrun, hno⟩
    · rw [hord] at hi
      exact Or.inl ⟨i, hperm.mem_iff.mp hi, hzero, by rw [hrun]; rfl⟩
    · exact Or.inr ⟨fun i hi => hno i (hmem i hi), by rw [hrun]; rfl⟩
  case topBlack =>
    rw [htop, Rep.red_ptr (c := []) hrep]
    exact hbal.isRed
  case redChild =>
    intro i hi s hred
    obtain ⟨l, red, r, q, hsub, hb⟩ := hrep.linked.node_of_mem (hmem i hi)
    obtain ⟨k, n, hb⟩ := hb _ _ hbal
    rw [hsub.1.red] at hred
    subst hred
    cases hb with
    | red hl hr =>
      cases s with
      | left =>
        rw [hsub.1.near, hsub.2.1.red_ptr hrep.nilBlack]
        exact hl.isRed
      | right =>
        rw [show t.child .right (.node i) = ptr r from hsub.1.far,
          hsub.2.2.red_ptr hrep.nilBlack]
        exact hr.isRed
  case blackHeight =>
    rw [htop] at hn
    exact Balanced.blackPath hbal hrep.linked hn
  case topNode =>
    rw [htop]
    exact ptr_ne_root T
  case noRoot =>
    intro i hi s
    obtain ⟨l, red, r, q, hsub, -⟩ := hrep.linked.node_of_mem (hmem i hi)
    cases s with
    | left =>
      rw [hsub.1.near]
      exact ptr_ne_root l
    | right =>
      rw [show t.child .right (.node i) = ptr r from hsub.1.far]
      exact ptr_ne_root r
  case parent =>
    rintro p s j (rfl | ⟨i, hi, rfl⟩) hchild
    · cases s with
      | left => exact hrep.linked.parent_ptr (htop.symm.trans hchild)
      | right =>
        rw [hrep.rootRight] at hchild
        cases hchild
    · obtain ⟨l, red, r, q, hsub, -⟩ := hrep.linked.node_of_mem (hmem i hi)
      cases s with
      | left => exact hsub.2.1.parent_ptr (hsub.1.near.symm.trans hchild)
      | right => exact hsub.2.2.parent_ptr (hsub.1.far.symm.trans hchild)
  case insert =>
    intro z hz fuel hfuel
    obtain ⟨t', L₁, L₂, hrun, -⟩ := rbInsert_isRb hrb (fun hmem => hz (hperm.mem_iff.mp hmem))
      (hsorted.imp fun hle => hcmp.mono z hle) (by omega : L.length < fuel)
    exact ⟨t', hrun⟩
  case delete =>
    intro z hz fuel hfuel
    obtain ⟨t', hrun, -⟩ := rbDelete_isRb hrb (hperm.mem_iff.mpr hz)
      (by omega : L.length ≤ fuel)
    exact ⟨t', hrun⟩

/-! ## Runs -/

/-- The sentinels and the nodes of `M` hold the same in `t` and `t'`. -/
def SameTree (M : List ι) (t t' : RbTree ι) : Prop :=
  ∀ p, (p = .nil ∨ p = .root ∨ ∃ i ∈ M, p = .node i) →
    t'.red p = t.red p ∧ t'.parent p = t.parent p ∧ ∀ s, t'.child s p = t.child s p

/-- `t` is the memory after some calls that began with `rb_tree_create`, and `M` are the nodes in
the tree.  Between the calls the memory of the nodes outside the tree may change. -/
inductive Run (compare : ι → ι → Int) : RbTree ι → List ι → Prop where
  | create (mem : RbTree ι) : Run compare (rbTreeCreate mem) []
  | outside {t t' : RbTree ι} {M : List ι} : Run compare t M → SameTree M t t' → Run compare t' M
  | insert {t t' : RbTree ι} {M : List ι} {z : ι} {fuel : ℕ} : Run compare t M → z ∉ M →
      M.length < fuel → rbInsert compare fuel z t = some t' → Run compare t' (z :: M)
  | delete {t t' : RbTree ι} {M : List ι} {z : ι} {fuel : ℕ} : Run compare t M → z ∈ M →
      M.length ≤ fuel → rbDelete fuel (.node z) t = some t' → Run compare t' (M.erase z)

omit [DecidableEq ι] in
theorem IsRb.of_sameTree (h : IsRb t L) (hsame : SameTree L t t') : IsRb t' L := by
  obtain ⟨T, N, hrep, hbal, rfl⟩ := h
  have hroot := hsame .root (Or.inr (Or.inl rfl))
  have hnil := hsame .nil (Or.inl rfl)
  have hnode : ∀ i ∈ T.inorder, SameNode t t' i := fun i hi => by
    obtain ⟨hred, hparent, hchild⟩ := hsame (.node i) (Or.inr (Or.inr ⟨i, hi, rfl⟩))
    exact ⟨hred, hparent, hchild⟩
  refine ⟨T, N, ⟨?_, hrep.linked.of_same hnode, ?_, ?_, ?_, hrep.nodup⟩, hbal, rfl⟩
  · exact (hroot.2.2 .left).trans hrep.path
  · exact (hroot.2.2 .right).trans hrep.rootRight
  · exact hroot.1.trans hrep.rootBlack
  · exact hnil.1.trans hrep.nilBlack

/-- After every run the memory holds a red-black tree of the nodes in the order of `compare`. -/
theorem Run.isRb (hcmp : TotalPreorder compare) (h : Run compare t M) :
    ∃ L, IsRb t L ∧ L.Perm M ∧ L.Pairwise fun i j => compare i j ≤ 0 := by
  induction h with
  | create mem => exact ⟨[], rbTreeCreate_isRb mem, .nil, .nil⟩
  | outside _ hsame ih =>
    obtain ⟨L, hrb, hperm, hsorted⟩ := ih
    refine ⟨L, hrb.of_sameTree fun p hp => hsame p ?_, hperm, hsorted⟩
    rcases hp with hp | hp | ⟨i, hi, hp⟩
    · exact Or.inl hp
    · exact Or.inr (Or.inl hp)
    · exact Or.inr (Or.inr ⟨i, hperm.mem_iff.mp hi, hp⟩)
  | @insert t t' M z fuel _ hz hfuel hrun ih =>
    obtain ⟨L, hrb, hperm, hsorted⟩ := ih
    have hlen := hperm.length_eq
    obtain ⟨t'', L₁, L₂, hrun', hrb', rfl, hL₁, hL₂⟩ :=
      rbInsert_isRb hrb (fun hmem => hz (hperm.mem_iff.mp hmem))
        (hsorted.imp fun hle => hcmp.mono z hle) (by omega : L.length < fuel)
    cases hrun.symm.trans hrun'
    exact ⟨_, hrb', List.perm_middle.trans (hperm.cons z), hcmp.insert hsorted hL₁ hL₂⟩
  | @delete t t' M z fuel _ hz hfuel hrun ih =>
    obtain ⟨L, hrb, hperm, hsorted⟩ := ih
    have hlen := hperm.length_eq
    obtain ⟨t'', hrun', hrb'⟩ := rbDelete_isRb hrb (hperm.mem_iff.mpr hz)
      (by omega : L.length ≤ fuel)
    cases hrun.symm.trans hrun'
    exact ⟨_, hrb', hperm.erase z, hsorted.sublist List.erase_sublist⟩

/-- **The red-black tree contract.**  For every comparison that is a total preorder and every
sequence of insertions of fresh nodes and deletions of nodes in the tree, with equal keys allowed,
the memory meets the contract: an ordered red-black tree of exactly the nodes inserted and not
deleted, whose next call returns without a failed assertion. -/
theorem red_black_contract (hcmp : TotalPreorder compare) (h : Run compare t M) :
    Contract compare t M := by
  obtain ⟨L, hrb, hperm, hsorted⟩ := h.isRb hcmp
  exact hrb.contract hcmp hperm hsorted

end Contract

/-- Three nodes, two of them of one key; the first is deleted again. -/
theorem red_black_contract_duplicates :
    ∃ t, Run (fun i j : ℕ => (i / 2 : Int) - (j / 2 : Int)) t [3, 2] ∧
      Contract (fun i j : ℕ => (i / 2 : Int) - (j / 2 : Int)) t [3, 2] := by
  have hcmp : TotalPreorder fun i j : ℕ => (i / 2 : Int) - (j / 2 : Int) :=
    ⟨fun i j => by omega, fun i j k => by omega⟩
  let mem : RbTree ℕ := ⟨fun _ => false, fun _ => .nil, fun _ _ => .nil⟩
  have h₀ : Run (fun i j : ℕ => (i / 2 : Int) - (j / 2 : Int)) (rbTreeCreate mem) [] := .create mem
  obtain ⟨t₁, hrun₁⟩ := (red_black_contract hcmp h₀).insert 0 (by decide) 1 (by decide)
  have h₁ := h₀.insert (by decide) (by decide) hrun₁
  obtain ⟨t₂, hrun₂⟩ := (red_black_contract hcmp h₁).insert 2 (by decide) 2 (by decide)
  have h₂ := h₁.insert (by decide) (by decide) hrun₂
  obtain ⟨t₃, hrun₃⟩ := (red_black_contract hcmp h₂).insert 3 (by decide) 3 (by decide)
  have h₃ := h₂.insert (by decide) (by decide) hrun₃
  obtain ⟨t₄, hrun₄⟩ := (red_black_contract hcmp h₃).delete 0 (by decide) 3 (by decide)
  have h₄ := h₃.delete (by decide) (by decide) hrun₄
  exact ⟨t₄, h₄, red_black_contract hcmp h₄⟩

end RbTree

end Ucore
