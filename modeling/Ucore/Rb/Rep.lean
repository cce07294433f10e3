import Ucore.Rb.RbTree
import Mathlib.Tactic.Tauto

/-!
# What the memory of a red-black tree represents

`Rep t T` — the links and colours in memory spell out the tree `T`, hung on `root->left`; parent
links agree with child links, no node occurs twice and the two sentinels are black.  The functions
of `rb_tree.c` only touch the memory around one subtree, so every fact here is about a tree seen
through a hole: `Rep t (plug c T)` splits into the path `c` and the subtree `T`.

Principal results: `rotate_spec`, `Rep.setRed` — the two elementary steps all loops are made of.
-/

namespace Ucore

open RedBlack CTree

namespace RbTree

variable {ι : Type}

section Fields

variable [DecidableEq ι] (t : RbTree ι) (s s' : Side) (p q r : RbPtr ι) (b : Bool)

@[simp] theorem setRed_red : (t.setRed p b).red q = if q = p then b else t.red q := by
  simp [setRed, Function.update_apply]

@[simp] theorem setRed_parent : (t.setRed p b).parent = t.parent := rfl

@[simp] theorem setRed_child : (t.setRed p b).child = t.child := rfl

@[simp] theorem setParent_red : (t.setParent p q).red = t.red := rfl

@[simp] theorem setParent_parent :
    (t.setParent p q).parent r = if r = p then q else t.parent r := by
  simp [setParent, Function.update_apply]

@[simp] theorem setParent_child : (t.setParent p q).child = t.child := rfl

@[simp] theorem setChild_red : (t.setChild s p q).red = t.red := rfl

@[simp] theorem setChild_parent : (t.setChild s p q).parent = t.parent := rfl

@[simp] theorem setChild_child :
    (t.setChild s p q).child s' r = if s' = s ∧ r = p then q else t.child s' r := by
  unfold setChild
  by_cases hs : s' = s
  · subst hs; simp [Function.update_apply]
  · simp [hs]

@[simp] theorem copyNode_red :
    (t.copyNode p q).red r = if r = p then t.red q else t.red r := by
  simp [copyNode, Function.update_apply]

@[simp] theorem copyNode_parent :
    (t.copyNode p q).parent r = if r = p then t.parent q else t.parent r := by
  simp [copyNode, Function.update_apply]

@[simp] theorem copyNode_child :
    (t.copyNode p q).child s r = if r = p then t.child s q else t.child s r := by
  simp [copyNode, Function.update_apply]

end Fields

/-- The pointer to a tree. -/
def ptr : CTree ι → RbPtr ι
  | .nil => .nil
  | .node _ _ i _ => .node i

@[simp] theorem ptr_nil : ptr (CTree.nil : CTree ι) = .nil := rfl

@[simp] theorem ptr_node (red : Bool) (l : CTree ι) (i : ι) (r : CTree ι) :
    ptr (.node red l i r) = .node i := rfl

@[simp] theorem ptr_bin (s : Side) (red : Bool) (a : CTree ι) (i : ι) (b : CTree ι) :
    ptr (bin s red a i b) = .node i := by cases s <;> rfl

theorem ptr_eq_nil {T : CTree ι} : ptr T = .nil ↔ T = .nil := by
  cases T <;> simp [ptr]

theorem mem_of_ptr {T : CTree ι} {i : ι} (h : ptr T = .node i) : i ∈ T.inorder := by
  cases T with
  | nil => cases h
  | node red l j r => cases h; simp

/-- The fields of one node; `a` is its child on side `s`. -/
structure NodeAt (t : RbTree ι) (s : Side) (i : ι) (red : Bool) (p a b : RbPtr ι) : Prop where
  red : t.red (.node i) = red
  parent : t.parent (.node i) = p
  near : t.child s (.node i) = a
  far : t.child s.flip (.node i) = b

theorem NodeAt.flip {t : RbTree ι} {s : Side} {i : ι} {red : Bool} {p a b : RbPtr ι}
    (h : NodeAt t s i red p a b) : NodeAt t s.flip i red p b a :=
  ⟨h.red, h.parent, h.far, by rw [Side.flip_flip]; exact h.near⟩

/-- The subtree `T` is in memory, below the node `p`. -/
def Linked (t : RbTree ι) : RbPtr ι → CTree ι → Prop
  | _, .nil => True
  | p, .node red l i r =>
    NodeAt t .left i red p (ptr l) (ptr r) ∧ Linked t (.node i) l ∧ Linked t (.node i) r

theorem linked_bin {t : RbTree ι} {p : RbPtr ι} {s : Side} {red : Bool} {a b : CTree ι} {i : ι} :
    Linked t p (bin s red a i b) ↔
      NodeAt t s i red p (ptr a) (ptr b) ∧ Linked t (.node i) a ∧ Linked t (.node i) b := by
  cases s with
  | left => exact Iff.rfl
  | right =>
    show (NodeAt t .left i red p (ptr b) (ptr a) ∧ _ ∧ _) ↔ _
    refine ⟨fun h => ⟨h.1.flip, h.2.2, h.2.1⟩, fun h => ⟨?_, h.2.2, h.2.1⟩⟩
    exact h.1.flip

/-- The node above the hole of a path. -/
def above : List (Frame ι) → RbPtr ι
  | [] => .root
  | f :: _ => .node f.id

/-- The path `c` is in memory, with the pointer `q` in its hole. -/
def PathLinked (t : RbTree ι) : List (Frame ι) → RbPtr ι → Prop
  | [], q => t.child .left .root = q
  | f :: c, q =>
    NodeAt t f.side f.id f.red (above c) q (ptr f.sib) ∧ Linked t (.node f.id) f.sib ∧
      PathLinked t c (.node f.id)

/-- The memory of the tree represents `T`. -/
structure Rep (t : RbTree ι) (T : CTree ι) : Prop where
  path : PathLinked t [] (ptr T)
  linked : Linked t .root T
  rootRight : t.child .right .root = .nil
  rootBlack : t.red .root = false
  nilBlack : t.red .nil = false
  nodup : T.inorder.Nodup

/-! ## Splitting at a hole -/

section Hole

variable {t : RbTree ι} {c : List (Frame ι)} {f : Frame ι} {T a b : CTree ι} {p q : RbPtr ι}
  {s : Side} {red : Bool} {i : ι}

theorem pathLinked_plug :
    (PathLinked t [] (ptr (plug c T)) ∧ Linked t .root (plug c T)) ↔
      (PathLinked t c (ptr T) ∧ Linked t (above c) T) := by
  induction c generalizing T with
  | nil => exact Iff.rfl
  | cons f c ih =>
    rw [plug_cons, ih, linked_bin, ptr_bin]
    show _ ↔ (_ ∧ _ ∧ _) ∧ Linked t (.node f.id) T
    tauto

/-- **Splitting**: a tree is in memory iff the path and the subtree are. -/
theorem rep_plug : Rep t (plug c T) ↔
    PathLinked t c (ptr T) ∧ Linked t (above c) T ∧ t.child .right .root = .nil ∧
      t.red .root = false ∧ t.red .nil = false ∧ (plug c T).inorder.Nodup := by
  refine ⟨fun h => ?_, fun ⟨hc, hT, h1, h2, h3, h4⟩ => ?_⟩
  · obtain ⟨hc, hT⟩ := pathLinked_plug.mp ⟨h.path, h.linked⟩
    exact ⟨hc, hT, h.rootRight, h.rootBlack, h.nilBlack, h.nodup⟩
  · obtain ⟨hp, hl⟩ := pathLinked_plug.mpr ⟨hc, hT⟩
    exact ⟨hp, hl, h1, h2, h3, h4⟩

theorem Rep.pathLinked (h : Rep t (plug c T)) : PathLinked t c (ptr T) := (rep_plug.mp h).1

theorem Rep.subLinked (h : Rep t (plug c T)) : Linked t (above c) T := (rep_plug.mp h).2.1

theorem Rep.nodeAt (h : Rep t (plug c (bin s red a i b))) :
    NodeAt t s i red (above c) (ptr a) (ptr b) := (linked_bin.mp h.subLinked).1

theorem Rep.frameAt (h : Rep t (plug (f :: c) T)) :
    NodeAt t f.side f.id f.red (above c) (ptr T) (ptr f.sib) := h.pathLinked.1

theorem Linked.red_ptr (h : Linked t p T) (hnil : t.red .nil = false) :
    t.red (ptr T) = T.isRed := by
  cases T with
  | nil => exact hnil
  | node red l i r => exact h.1.red

theorem Rep.red_ptr (h : Rep t (plug c T)) : t.red (ptr T) = T.isRed :=
  h.subLinked.red_ptr h.nilBlack

theorem Rep.red_sib (h : Rep t (plug (f :: c) T)) : t.red (ptr f.sib) = f.sib.isRed :=
  h.pathLinked.2.1.red_ptr h.nilBlack

theorem Rep.parent_ptr (h : Rep t (plug c T)) (hT : T ≠ .nil) : t.parent (ptr T) = above c := by
  cases T with
  | nil => exact absurd rfl hT
  | node red l i r => exact h.subLinked.1.parent

/-- The child the source compares with: the hole is on the left iff the frame says so. -/
theorem Rep.ptr_eq_left [DecidableEq ι] (h : Rep t (plug (f :: c) T)) (hne : T ≠ .nil ∨ f.sib ≠ .nil) :
    (if ptr T = t.child .left (above (f :: c)) then Side.left else Side.right) = f.side := by
  have hat := h.frameAt
  have hdiff : ptr T ≠ ptr f.sib := by
    intro heq
    cases T with
    | nil => exact hne.elim (fun hn => hn rfl) fun hn => hn (ptr_eq_nil.mp heq.symm)
    | node red l i r =>
      have hmem : i ∈ f.sib.inorder := mem_of_ptr heq.symm
      have := (nodup_plug.mp h.nodup).2.2 i (by simp)
      exact this (mem_pathNodes_cons.mpr (Or.inr (Or.inl hmem)))
  show (if ptr T = t.child .left (.node f.id) then _ else _) = _
  cases hs : f.side with
  | left =>
    rw [hs] at hat
    rw [if_pos hat.near.symm]
  | right =>
    rw [hs] at hat
    rw [if_neg]
    intro heq
    exact hdiff (heq.trans hat.far)

/-- The side of the hole below the node `above c`; the tree hangs on the left of the sentinel. -/
def holeSide : List (Frame ι) → Side
  | [] => .left
  | f :: _ => f.side

/-- The right child of the sentinel is never the hole. -/
theorem not_right_of_root (c : List (Frame ι)) :
    ¬ (Side.right = holeSide c ∧ RbPtr.root = above c) := by
  cases c with
  | nil => simp [holeSide]
  | cons f c => simp [above]

theorem Rep.child_above {T : CTree ι} (h : Rep t (plug c T)) (hT : T ≠ .nil) :
    t.child (holeSide c) (above c) = ptr T ∧ t.child (holeSide c).flip (above c) ≠ ptr T := by
  cases c with
  | nil =>
    refine ⟨h.path, ?_⟩
    show t.child .right .root ≠ ptr T
    rw [h.rootRight]
    exact fun heq => hT (ptr_eq_nil.mp heq.symm)
  | cons f c =>
    refine ⟨h.frameAt.near, ?_⟩
    show t.child f.side.flip (.node f.id) ≠ ptr T
    rw [h.frameAt.far]
    intro heq
    cases T with
    | nil => exact hT rfl
    | node red l j r =>
      exact (nodup_plug.mp h.nodup).2.2 j (by simp)
        (mem_pathNodes_cons.mpr (Or.inr (Or.inl (mem_of_ptr heq))))

theorem Rep.above_ne {T : CTree ι} (h : Rep t (plug c T)) (hi : i ∈ T.inorder) :
    above c ≠ .node i := by
  cases c with
  | nil => exact nofun
  | cons f c =>
    intro heq
    cases heq
    exact (nodup_plug.mp h.nodup).2.2 _ hi (mem_pathNodes_cons.mpr (Or.inl rfl))

end Hole

/-! ## Frame conditions -/

section Frame

variable {t t' : RbTree ι} {c : List (Frame ι)} {T : CTree ι} {p q q' : RbPtr ι}

/-- The two memories hold the same node `i`. -/
structure SameNode (t t' : RbTree ι) (i : ι) : Prop where
  red : t'.red (.node i) = t.red (.node i)
  parent : t'.parent (.node i) = t.parent (.node i)
  child : ∀ s, t'.child s (.node i) = t.child s (.node i)

theorem NodeAt.of_same {s : Side} {i : ι} {red : Bool} {a b : RbPtr ι}
    (h : NodeAt t s i red p a b) (hs : SameNode t t' i) : NodeAt t' s i red p a b :=
  ⟨hs.red.trans h.red, hs.parent.trans h.parent, (hs.child _).trans h.near,
    (hs.child _).trans h.far⟩

theorem Linked.of_same (h : Linked t p T) (hs : ∀ i ∈ T.inorder, SameNode t t' i) :
    Linked t' p T := by
  induction T generalizing p with
  | nil => trivial
  | node red l i r ihl ihr =>
    simp only [inorder_node, List.mem_append, List.mem_cons] at hs
    refine ⟨h.1.of_same (hs i (Or.inr (Or.inl rfl))), ihl h.2.1 fun j hj => hs j (Or.inl hj),
      ihr h.2.2 fun j hj => hs j (Or.inr (Or.inr hj))⟩

theorem PathLinked.of_same (h : PathLinked t c q) (hroot : t'.child .left .root = t.child .left .root)
    (hs : ∀ i ∈ pathNodes c, SameNode t t' i) : PathLinked t' c q := by
  induction c generalizing q with
  | nil => exact hroot.trans h
  | cons f c ih =>
    refine ⟨h.1.of_same (hs _ ?_), h.2.1.of_same fun j hj => hs j ?_, ih h.2.2 fun j hj => hs j ?_⟩
    · exact mem_pathNodes_cons.mpr (Or.inl rfl)
    · exact mem_pathNodes_cons.mpr (Or.inr (Or.inl hj))
    · exact mem_pathNodes_cons.mpr (Or.inr (Or.inr hj))

/-- A subtree with a new parent. -/
theorem Linked.reparent (h : Linked t p T) (hnd : T.inorder.Nodup)
    (hroot : ∀ i, ptr T = .node i → t'.red (.node i) = t.red (.node i) ∧
      t'.parent (.node i) = q ∧ ∀ s, t'.child s (.node i) = t.child s (.node i))
    (hs : ∀ i ∈ T.inorder, ptr T ≠ .node i → SameNode t t' i) : Linked t' q T := by
  cases T with
  | nil => trivial
  | node red l i r =>
    obtain ⟨hred, hparent, hchild⟩ := hroot i rfl
    obtain ⟨-, -, hil, hir, -⟩ := (nodup_bin (s := .left)).mp hnd
    refine ⟨⟨hred.trans h.1.red, hparent, (hchild _).trans h.1.near, (hchild _).trans h.1.far⟩,
      h.2.1.of_same fun j hj => hs j (by simp [hj]) ?_,
      h.2.2.of_same fun j hj => hs j (by simp [hj]) ?_⟩
    · intro heq
      cases heq
      exact hil hj
    · intro heq
      cases heq
      exact hir hj

/-- A path whose hole gets another pointer: `q` is stored where the hole was, on side `left` for
the sentinel. -/
theorem PathLinked.refill (h : PathLinked t c q) (hnd : (pathNodes c).Nodup)
    (hroot : c = [] → t'.child .left .root = q')
    (hhead : ∀ f c', c = f :: c' → t'.child .left .root = t.child .left .root ∧
      t'.red (.node f.id) = t.red (.node f.id) ∧ t'.parent (.node f.id) = t.parent (.node f.id) ∧
      t'.child f.side (.node f.id) = q' ∧
      t'.child f.side.flip (.node f.id) = t.child f.side.flip (.node f.id))
    (hs : ∀ i ∈ pathNodes c, above c ≠ .node i → SameNode t t' i) : PathLinked t' c q' := by
  cases c with
  | nil => exact hroot rfl
  | cons f c =>
    obtain ⟨h0, h1, h2, h3, h4⟩ := hhead f c rfl
    obtain ⟨-, -, hsib, hpath, -⟩ := nodup_pathNodes_cons.mp hnd
    refine ⟨⟨h1.trans h.1.red, h2.trans h.1.parent, h3, h4.trans h.1.far⟩,
      h.2.1.of_same fun j hj => hs j (mem_pathNodes_cons.mpr (Or.inr (Or.inl hj))) ?_,
      h.2.2.of_same h0 fun j hj => hs j (mem_pathNodes_cons.mpr (Or.inr (Or.inr hj))) ?_⟩
    · intro heq
      cases heq
      exact hsib hj
    · intro heq
      cases heq
      exact hpath hj

end Frame

/-! ## The elementary steps -/

section Steps

variable [DecidableEq ι] {t : RbTree ι} {c : List (Frame ι)} {a b d : CTree ι} {s : Side}
  {red cx cy : Bool} {i x y : ι}

/-- Recolouring one node of the tree. -/
theorem Rep.setRed (h : Rep t (plug c (bin s red a i b))) (red' : Bool) :
    Rep (t.setRed (.node i) red') (plug c (bin s red' a i b)) := by
  obtain ⟨hc, hT, h1, h2, h3, hnd⟩ := rep_plug.mp h
  obtain ⟨hsub, -, hdisj⟩ := nodup_plug.mp hnd
  obtain ⟨-, -, hia, hib, -⟩ := nodup_bin.mp hsub
  obtain ⟨hat, ha, hb⟩ := linked_bin.mp hT
  have hsame : ∀ j, j ≠ i → SameNode t (t.setRed (.node i) red') j :=
    fun j hj => ⟨by simp [hj], rfl, fun _ => rfl⟩
  rw [ptr_bin] at hc
  refine rep_plug.mpr ⟨?_, linked_bin.mpr ⟨?_, ?_, ?_⟩, h1, by simpa using h2, by simpa using h3, ?_⟩
  · rw [ptr_bin]
    refine hc.of_same rfl fun j hj => hsame j ?_
    intro heq
    exact hdisj i (mem_inorder_bin.mpr (Or.inl rfl)) (heq ▸ hj)
  · exact ⟨by simp, hat.parent, hat.near, hat.far⟩
  · exact ha.of_same fun j hj => hsame j fun heq => hia (heq ▸ hj)
  · exact hb.of_same fun j hj => hsame j fun heq => hib (heq ▸ hj)
  · rwa [inorder_plug_congr c (inorder_bin_red s red' red a i b)]

/-- Recolouring a node of the path. -/
theorem Rep.setRedFrame {f : Frame ι} {T : CTree ι} (h : Rep t (plug (f :: c) T)) (red' : Bool) :
    Rep (t.setRed (.node f.id) red') (plug ({ f with red := red' } :: c) T) :=
  Rep.setRed (c := c) (s := f.side) (a := T) (b := f.sib) h red'

/-- Recolouring the root of a sibling. -/
theorem Rep.setRedSib {s₀ : Side} {c₀ : Bool} {j : ι} {T : CTree ι}
    (h : Rep t (plug (⟨s₀, c₀, j, bin s red a i b⟩ :: c) T)) (red' : Bool) :
    Rep (t.setRed (.node i) red') (plug (⟨s₀, c₀, j, bin s red' a i b⟩ :: c) T) := by
  rw [plug_swap] at h ⊢
  exact h.setRed red'

/-- The memory after a rotation at `x`, whose parent is `p` and whose child is `y`. -/
def rotated (s side : Side) (x y p b : RbPtr ι) (t : RbTree ι) : RbTree ι where
  red := t.red
  parent := fun r =>
    if r = x then y else if r = y then p else if b ≠ .nil ∧ r = b then x else t.parent r
  child := fun s' r =>
    if s' = s ∧ r = y then x
    else if s' = side ∧ r = p then y
    else if s' = s.flip ∧ r = x then b
    else t.child s' r

/-- The assertions of the rotation hold, and the memory is as in `rotated`. -/
theorem rotate_eq (h : Rep t (plug c (bin s cx a x (bin s cy b y d)))) :
    rotate s (.node x) t =
      some (rotated s (holeSide c) (.node x) (.node y) (above c) (ptr b) t) := by
  have hx := h.nodeAt
  have hy := (linked_bin.mp (linked_bin.mp h.subLinked).2.2).1
  obtain ⟨hsub, -, -⟩ := nodup_plug.mp h.nodup
  obtain ⟨-, hnd, -, hxy, -⟩ := nodup_bin.mp hsub
  simp only [mem_inorder_bin, not_or] at hxy
  obtain ⟨hxy, hxb, -⟩ := hxy
  have hpx : above c ≠ .node x := h.above_ne (mem_inorder_bin.mpr (Or.inl rfl))
  have hbx : ptr b ≠ .node x := fun heq => hxb (mem_of_ptr heq)
  obtain ⟨hnear, hfar⟩ := h.child_above (bin_ne_nil _ _ _ _ _)
  rw [ptr_bin] at hnear hfar
  have hside : ∀ t₀ : RbTree ι, (if RbPtr.node x = t.child s (above c) then
      t₀.setChild s (above c) (.node y) else t₀.setChild s.flip (above c) (.node y)) =
      t₀.setChild (holeSide c) (above c) (.node y) := by
    intro t₀
    rcases Side.eq_or_flip s (holeSide c) with hs | hs
    · rw [← hs, if_pos hnear.symm]
    · rw [hs, Side.flip_flip] at hfar
      rw [if_neg (Ne.symm hfar), hs]
  have hnil := h.nilBlack
  unfold rotate
  simp only [hx.far, ptr_bin, hy.near]
  by_cases hb : ptr b = .nil
  · simp [hb, hy.near, hx.parent, hpx, hxy, hside, hnil]
    refine RbTree.ext rfl (funext fun r => ?_) (funext fun s' => funext fun r => ?_)
    · simp [rotated]
    · simp [rotated]
  · simp [hb, hy.near, hx.parent, hpx, hxy, hside, hnil, Ne.symm hbx]
    refine RbTree.ext rfl (funext fun r => ?_) (funext fun s' => funext fun r => ?_)
    · simp [rotated, hb]
    · simp [rotated]

theorem rotated_same {side : Side} {p q : RbPtr ι} {j : ι} (hx : j ≠ x) (hy : j ≠ y)
    (hp : p ≠ .node j) (hq : q ≠ .node j) :
    SameNode t (rotated s side (.node x) (.node y) p q t) j :=
  ⟨rfl, by simp [rotated, hx, hy, Ne.symm hq], fun s' => by simp [rotated, hx, hy, Ne.symm hp]⟩

/-- **Rotation.** The assertions hold, the child comes to the top with its outer subtree, colours
and `nil->parent` stay. -/
theorem rotate_spec (h : Rep t (plug c (bin s cx a x (bin s cy b y d)))) :
    ∃ t', rotate s (.node x) t = some t' ∧ Rep t' (plug c (bin s cy (bin s cx a x b) y d)) ∧
      t'.red = t.red ∧ t'.parent .nil = t.parent .nil := by
  have hx := h.nodeAt
  obtain ⟨hc, hT, h1, h2, h3, hnd⟩ := rep_plug.mp h
  obtain ⟨-, ha, hsub⟩ := linked_bin.mp hT
  obtain ⟨hy, hb, hd⟩ := linked_bin.mp hsub
  obtain ⟨hndT, hndc, hdisj⟩ := nodup_plug.mp hnd
  obtain ⟨-, hndy, hxa, hxy, hady⟩ := nodup_bin.mp hndT
  obtain ⟨hndb, -, hyb, hyd, hbd⟩ := nodup_bin.mp hndy
  simp only [mem_inorder_bin, not_or] at hxy hady hdisj
  obtain ⟨hxy, hxb, hxd⟩ := hxy
  have hp : ∀ j, j = x ∨ j ∈ a.inorder ∨ j = y ∨ j ∈ b.inorder ∨ j ∈ d.inorder →
      above c ≠ .node j := fun j hj => h.above_ne (by simpa only [mem_inorder_bin] using hj)
  have hsame : ∀ j, j ≠ x → j ≠ y → above c ≠ .node j → ptr b ≠ .node j →
      SameNode t (rotated s (holeSide c) (.node x) (.node y) (above c) (ptr b) t) j :=
    fun j hx hy hp hq => rotated_same hx hy hp hq
  refine ⟨_, rotate_eq h, rep_plug.mpr ⟨?_, linked_bin.mpr ⟨?_, linked_bin.mpr ⟨?_, ?_, ?_⟩, ?_⟩,
    ?_, h2, h3, ?_⟩, rfl, ?_⟩
  · -- the path above, with `y` in its hole
    rw [ptr_bin]
    refine hc.refill hndc ?_ ?_ fun j hj hne => hsame j ?_ ?_ hne ?_
    · rintro rfl
      simp [rotated, holeSide, above]
    · rintro f c' rfl
      have hfx : f.id ≠ x := fun heq => hp x (Or.inl rfl) (by rw [← heq]; rfl)
      have hfy : f.id ≠ y := fun heq => hp y (Or.inr (Or.inr (Or.inl rfl))) (by rw [← heq]; rfl)
      have hfb : ptr b ≠ .node f.id := fun heq =>
        hp f.id (Or.inr (Or.inr (Or.inr (Or.inl (mem_of_ptr heq))))) rfl
      simp [rotated, holeSide, above, hfx, hfy, Ne.symm hfb]
    · exact fun heq => hdisj x (Or.inl rfl) (heq ▸ hj)
    · exact fun heq => hdisj y (Or.inr (Or.inr (Or.inl rfl))) (heq ▸ hj)
    · exact fun heq => hdisj j (Or.inr (Or.inr (Or.inr (Or.inl (mem_of_ptr heq))))) hj
  · have hpy := hp y (Or.inr (Or.inr (Or.inl rfl)))
    refine ⟨hy.red, ?_, ?_, ?_⟩
    · simp [rotated, Ne.symm hxy]
    · simp [rotated]
    · simp [rotated, Ne.symm hxy, Ne.symm hpy, hy.far]
  · have hpx := hp x (Or.inl rfl)
    refine ⟨hx.red, ?_, ?_, ?_⟩
    · simp [rotated]
    · simp [rotated, hxy, Ne.symm hpx, hx.near]
    · simp [rotated, Ne.symm hpx]
  · refine ha.of_same fun j hj => hsame j ?_ ?_ (hp j (Or.inr (Or.inl hj))) ?_
    · exact fun heq => hxa (heq ▸ hj)
    · exact fun heq => (hady j hj).1 heq
    · exact fun heq => (hady j hj).2.1 (mem_of_ptr heq)
  · -- the inner subtree changes its parent
    refine hb.reparent hndb ?_ fun j hj hne => hsame j ?_ ?_
      (hp j (Or.inr (Or.inr (Or.inr (Or.inl hj))))) hne
    · intro j hj
      have hjb := mem_of_ptr hj
      have hjx : j ≠ x := fun heq => hxb (heq ▸ hjb)
      have hjy : j ≠ y := fun heq => hyb (heq ▸ hjb)
      have hpj := hp j (Or.inr (Or.inr (Or.inr (Or.inl hjb))))
      refine ⟨rfl, ?_, fun s' => ?_⟩
      · simp [rotated, hjx, hjy, hj]
      · simp [rotated, hjx, hjy, Ne.symm hpj]
    · exact fun heq => hxb (heq ▸ hj)
    · exact fun heq => hyb (heq ▸ hj)
  · refine hd.of_same fun j hj => hsame j ?_ ?_ (hp j (Or.inr (Or.inr (Or.inr (Or.inr hj))))) ?_
    · exact fun heq => hxd (heq ▸ hj)
    · exact fun heq => hyd (heq ▸ hj)
    · exact fun heq => hbd j (mem_of_ptr heq) hj
  · simp only [rotated, not_right_of_root, if_false]
    simpa using h1
  · rwa [inorder_plug_congr c (inorder_rotate s cx cy cx cy a b d x y)]
  · by_cases hb : ptr b = .nil
    · simp [rotated, hb]
    · simp [rotated, Ne.symm hb]

end Steps

end RbTree

end Ucore
