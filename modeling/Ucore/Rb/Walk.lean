import Ucore.Rb.Delete

/-!
# The tree as its callers see it

`IsRb t L` — the memory holds a red-black tree whose nodes, from left to right, are `L`.  The
callers' view of `rb_tree.c` is one theorem per function about this list: an insertion puts the
node behind those that do not compare greater, a deletion takes exactly the node out, and
`rb_node_prev` is the neighbour in the list.
-/

namespace Ucore

open RedBlack CTree

namespace RbTree

variable {ι : Type} {t : RbTree ι} {c : List (Frame ι)} {S T : CTree ι} {L R : List ι} {i : ι}
  {fuel : ℕ}

/-- A red-black tree with black root, whose nodes in order are `L`. -/
def IsRb (t : RbTree ι) (L : List ι) : Prop :=
  ∃ T N, Rep t T ∧ Balanced T false N ∧ T.inorder = L

theorem IsRb.nodup (h : IsRb t L) : L.Nodup := by
  obtain ⟨T, N, hrep, -, rfl⟩ := h
  exact hrep.nodup

variable [DecidableEq ι]

/-- `rb_tree_create` makes an empty tree. -/
theorem rbTreeCreate_isRb (mem : RbTree ι) : IsRb (rbTreeCreate mem) [] := by
  refine ⟨.nil, 0, ⟨?_, trivial, ?_, ?_, ?_, List.nodup_nil⟩, .nil, rfl⟩
  · simp [PathLinked, rbTreeCreate]
  · simp [rbTreeCreate]
  · simp [rbTreeCreate]
  · simp [rbTreeCreate]

/-- **`rb_insert`** of a fresh node. -/
theorem rbInsert_isRb {compare : ι → ι → Int} {z : ι} (h : IsRb t L) (hz : z ∉ L)
    (hmono : L.Pairwise fun i j => compare i z > 0 → compare j z > 0) (hfuel : L.length < fuel) :
    ∃ t' L₁ L₂, rbInsert compare fuel z t = some t' ∧ IsRb t' (L₁ ++ z :: L₂) ∧ L = L₁ ++ L₂ ∧
      (∀ j ∈ L₁, ¬ compare j z > 0) ∧ ∀ j ∈ L₂, compare j z > 0 := by
  obtain ⟨T, N, hrep, hbal, rfl⟩ := h
  have hheight := height_le_length T
  obtain ⟨t', T', N', L₁, L₂, hrun, hrep', hbal', hL, hord, hlow, hhigh⟩ :=
    rbInsert_spec hrep hbal hz hmono (by omega : T.height < fuel)
  exact ⟨t', L₁, L₂, hrun, ⟨T', N', hrep', hbal', hord⟩, hL, hlow, hhigh⟩

/-- **`rb_delete`** of a node of the tree. -/
theorem rbDelete_isRb {z : ι} (h : IsRb t L) (hz : z ∈ L) (hfuel : L.length ≤ fuel) :
    ∃ t', rbDelete fuel (.node z) t = some t' ∧ IsRb t' (L.erase z) := by
  have hnd := h.nodup
  obtain ⟨T, N, hrep, hbal, rfl⟩ := h
  have hheight := height_le_length T
  obtain ⟨t', T', N', L₁, L₂, hrun, hrep', hbal', hL, hord⟩ :=
    rbDelete_spec hrep hbal hz (by omega : T.height ≤ fuel)
  refine ⟨t', hrun, T', N', hrep', hbal', ?_⟩
  have hz₁ : z ∉ L₁ := by
    rw [hL] at hnd
    exact fun hmem => (List.nodup_append.mp hnd).2.2 z hmem z (by simp) rfl
  rw [hord, hL, List.erase_append_right _ hz₁, List.erase_cons_head]

/-! ## The predecessor -/

theorem climbLeft_spec : ∀ (fuel : ℕ) (c : List (Frame ι)) (S : CTree ι), Rep t (plug c S) →
    S ≠ .nil → c.length < fuel →
    ∃ q, climbLeft t fuel (ptr S) (above c) = some q ∧ toNode q = (before c).getLast? := by
  intro fuel
  induction fuel with
  | zero => intro c S _ _ hlt; omega
  | succ fuel ih =>
    intro c S h hS hlt
    obtain ⟨hnear, hfar⟩ := h.child_above hS
    unfold climbLeft
    cases c with
    | nil =>
      have htop : ptr S = t.child .left (above ([] : List (Frame ι))) := hnear.symm
      rw [if_pos htop]
      exact ⟨.nil, rfl, rfl⟩
    | cons f c =>
      cases hs : f.side with
      | left =>
        -- the hole is on the left, nothing of this frame comes before it
        simp only [holeSide, hs] at hnear
        have hroot : above (f :: c) ≠ .root := by
          intro heq
          cases heq
        rw [if_pos hnear.symm, if_neg hroot]
        obtain ⟨q, hrun, hq⟩ := ih c (bin f.side f.red S f.id f.sib) h (bin_ne_nil _ _ _ _ _)
          (by simpa using hlt)
        rw [ptr_bin] at hrun
        refine ⟨q, ?_, ?_⟩
        · rw [show t.parent (above (f :: c)) = above c from h.frameAt.parent]
          exact hrun
        · rw [hq, before, hs]
      | right =>
        simp only [holeSide, hs, Side.flip] at hfar
        rw [if_neg (Ne.symm hfar)]
        refine ⟨_, rfl, ?_⟩
        rw [before, hs]
        simp [toNode, above]

omit [DecidableEq ι] in
/-- The nodes before `i` and behind it, in the list and in the tree. -/
theorem IsRb.around (h : IsRb t (L ++ i :: R)) : ∃ c red l r, Rep t (plug c (.node red l i r)) ∧
    L = before c ++ l.inorder ∧ R = r.inorder ++ after c ∧
    c.length + (max l.height r.height + 1) ≤ (L ++ i :: R).length := by
  have hnd := h.nodup
  obtain ⟨T, N, hrep, -, hord⟩ := h
  have hheight := height_le_length T
  rw [hord] at hheight
  obtain ⟨c, red, l, r, rfl⟩ := exists_plug_of_mem (t := T) (i := i) (by rw [hord]; simp)
  have hlen := length_le_height c (CTree.node red l i r)
  simp only [height] at hlen
  rw [inorder_plug, inorder_node] at hord
  have hord' : L ++ i :: R = (before c ++ l.inorder) ++ i :: (r.inorder ++ after c) := by
    rw [← hord]
    simp
  have hsplit := List.nodup_append.mp hnd
  have hiL : i ∉ L := fun hmem => hsplit.2.2 i hmem i (by simp) rfl
  have hiR : i ∉ R := (List.nodup_cons.mp hsplit.2.1).1
  obtain ⟨hL, -, hR⟩ := (List.append_cons_inj_of_notMem hiL hiR).mp hord'
  exact ⟨c, red, l, r, hrep, hL, hR, hlen.trans hheight⟩

/-- **`rb_node_prev`** is the neighbour in the order, or `NULL` at its beginning. -/
theorem rbNodePrev_isRb (h : IsRb t (L ++ i :: R)) (hfuel : (L ++ i :: R).length < fuel) :
    rbNodePrev fuel i t = some L.getLast? := by
  obtain ⟨c, red, l, r, hrep, hL, -, hlen⟩ := h.around
  have hat : NodeAt t .left i red (above c) (ptr l) (ptr r) := Rep.nodeAt (s := .left) hrep
  unfold rbNodePrev rbTreePredecessor
  rw [hat.near, hL]
  by_cases hl : l = .nil
  · subst hl
    rw [if_neg (by simp), hat.parent]
    obtain ⟨q, hrun, hq⟩ := climbLeft_spec fuel c _ hrep (by simp) (by omega)
    rw [ptr_node] at hrun
    rw [hrun, Option.map_some, hq]
    simp
  · rw [if_pos fun heq => hl (ptr_eq_nil.mp heq)]
    obtain ⟨c₁, red', j, b, hrun, rfl, hside⟩ := extreme_spec (s := .right) fuel l
      (⟨.left, red, i, r⟩ :: c) hrep hl (by omega)
    rw [hrun, Option.map_some, inorder_plug, after_eq_nil hside]
    simp [toNode, bin]

end RbTree

end Ucore
