import Ucore.Lib.RedBlack

/-!
# The kernel's red-black tree

Reference model of `kern/libs/rb_tree.c`.  The nodes live in memory: a pointer is the sentinel
`tree->nil`, the sentinel `tree->root` or a caller's node, and the memory is one map per field of
`struct rb_node`.  The two expansions of a macro (`FUNC_ROTATE`, `RB_INSERT_SUB`,
`RB_DELETE_FIXUP_SUB`) are one definition with a `Side`: `s` is what the macro calls `_left`.

A failed assertion is `none`.  Loops that follow links take fuel, and running out of it is `none`
as well; `compare` is an argument, since it reads fields of the structures the nodes are part of.
-/

namespace Ucore

open RedBlack

/-- A `rb_node *` of one tree. -/
inductive RbPtr (ι : Type) where
  | nil
  | root
  | node (i : ι)
  deriving DecidableEq, Repr

/-- The nodes of one tree, field by field. -/
@[ext]
structure RbTree (ι : Type) where
  red : RbPtr ι → Bool
  parent : RbPtr ι → RbPtr ι
  child : Side → RbPtr ι → RbPtr ι

namespace RbTree

variable {ι : Type} [DecidableEq ι]

/-- `p->red = b`. -/
def setRed (t : RbTree ι) (p : RbPtr ι) (b : Bool) : RbTree ι :=
  { t with red := Function.update t.red p b }

/-- `p->parent = q`. -/
def setParent (t : RbTree ι) (p q : RbPtr ι) : RbTree ι :=
  { t with parent := Function.update t.parent p q }

/-- `p->left = q` or `p->right = q`. -/
def setChild (t : RbTree ι) (s : Side) (p q : RbPtr ι) : RbTree ι :=
  { t with child := Function.update t.child s (Function.update (t.child s) p q) }

/-- `*p = *q`. -/
def copyNode (t : RbTree ι) (p q : RbPtr ι) : RbTree ι where
  red := Function.update t.red p (t.red q)
  parent := Function.update t.parent p (t.parent q)
  child := fun s => Function.update (t.child s) p (t.child s q)

/-- `rb_tree_create`, when its three allocations succeed; `mem` is what the memory of the nodes
held before. -/
def rbTreeCreate (mem : RbTree ι) : RbTree ι where
  red := Function.update (Function.update mem.red .nil false) .root false
  parent := Function.update (Function.update mem.parent .nil .nil) .root .nil
  child := fun s => Function.update (Function.update (mem.child s) .nil .nil) .root .nil

/-- `rb_left_rotate` (`s = left`) and `rb_right_rotate` (`s = right`). -/
def rotate (s : Side) (x : RbPtr ι) (t : RbTree ι) : Option (RbTree ι) :=
  let y := t.child s.flip x
  if x ≠ .root ∧ x ≠ .nil ∧ y ≠ .nil then
    let t := t.setChild s.flip x (t.child s y)
    let t := if t.child s y ≠ .nil then t.setParent (t.child s y) x else t
    let t := t.setParent y (t.parent x)
    let t :=
      if x = t.child s (t.parent x) then t.setChild s (t.parent x) y
      else t.setChild s.flip (t.parent x) y
    let t := t.setChild s y x
    let t := t.setParent x y
    if t.red .nil then none else some t
  else none

/-- Loop of `rb_insert_binary`: the pair of `y` and `x` goes down until `x` is `nil`; the result is
`y`. -/
def insertPos (compare : ι → ι → Int) (z : ι) (t : RbTree ι) :
    ℕ → RbPtr ι → RbPtr ι → Option (RbPtr ι)
  | 0, _, _ => none
  | fuel + 1, y, x =>
    match x with
    | .nil => some y
    | .root => none
    | .node i => insertPos compare z t fuel x (t.child (if compare i z > 0 then .left else .right) x)

/-- `y == root || COMPARE(tree, y, z) > 0` at the end of `rb_insert_binary`. -/
def goesLeft (compare : ι → ι → Int) (z : ι) : RbPtr ι → Option Bool
  | .nil => none
  | .root => some true
  | .node i => some (decide (compare i z > 0))

/-- `rb_insert_binary`. -/
def rbInsertBinary (compare : ι → ι → Int) (fuel : ℕ) (z : ι) (t : RbTree ι) :
    Option (RbTree ι) := do
  let t := t.setChild .right (.node z) .nil
  let t := t.setChild .left (.node z) .nil
  let y ← insertPos compare z t fuel .root (t.child .left .root)
  let t := t.setParent (.node z) y
  let left ← goesLeft compare z y
  return t.setChild (if left then .left else .right) y (.node z)

/-- `RB_INSERT_SUB(s, s.flip)`. -/
def insertSub (s : Side) (x : RbPtr ι) (t : RbTree ι) : Option (RbPtr ι × RbTree ι) :=
  let y := t.child s.flip (t.parent (t.parent x))
  if t.red y then
    let t := t.setRed (t.parent x) false
    let t := t.setRed y false
    let t := t.setRed (t.parent (t.parent x)) true
    some (t.parent (t.parent x), t)
  else do
    let (x, t) ←
      if x = t.child s.flip (t.parent x) then do
        let t' ← rotate s (t.parent x) t
        pure (t.parent x, t')
      else pure (x, t)
    let t := t.setRed (t.parent x) false
    let t := t.setRed (t.parent (t.parent x)) true
    let t ← rotate s.flip (t.parent (t.parent x)) t
    return (x, t)

/-- The loop of `rb_insert`. -/
def insertFixup : ℕ → RbPtr ι → RbTree ι → Option (RbTree ι)
  | 0, _, _ => none
  | fuel + 1, x, t =>
    if t.red (t.parent x) then
      let s : Side :=
        if t.parent x = t.child .left (t.parent (t.parent x)) then .left else .right
      (insertSub s x t).bind fun xt => insertFixup fuel xt.1 xt.2
    else some t

/-- `rb_insert`. -/
def rbInsert (compare : ι → ι → Int) (fuel : ℕ) (z : ι) (t : RbTree ι) : Option (RbTree ι) := do
  let t ← rbInsertBinary compare fuel z t
  let t ← insertFixup fuel (.node z) (t.setRed (.node z) true)
  let t := t.setRed (t.child .left .root) false
  if ¬ t.red .nil ∧ ¬ t.red .root then some t else none

/-- `while (y->s != nil) y = y->s`. -/
def extreme (s : Side) (t : RbTree ι) : ℕ → RbPtr ι → Option (RbPtr ι)
  | 0, _ => none
  | fuel + 1, y => if t.child s y ≠ .nil then extreme s t fuel (t.child s y) else some y

/-- The upward loop of `rb_tree_successor`: `while (x == y->right) x = y, y = y->parent`. -/
def climbRight (t : RbTree ι) : ℕ → RbPtr ι → RbPtr ι → Option (RbPtr ι)
  | 0, _, _ => none
  | fuel + 1, x, y => if x = t.child .right y then climbRight t fuel y (t.parent y) else some y

/-- `rb_tree_successor`. -/
def rbTreeSuccessor (fuel : ℕ) (x : RbPtr ι) (t : RbTree ι) : Option (RbPtr ι) :=
  if t.child .right x ≠ .nil then extreme .left t fuel (t.child .right x)
  else do
    let y ← climbRight t fuel x (t.parent x)
    return if y = .root then .nil else y

/-- The upward loop of `rb_tree_predecessor`, which tests for `tree->root` inside. -/
def climbLeft (t : RbTree ι) : ℕ → RbPtr ι → RbPtr ι → Option (RbPtr ι)
  | 0, _, _ => none
  | fuel + 1, x, y =>
    if x = t.child .left y then
      if y = .root then some .nil else climbLeft t fuel y (t.parent y)
    else some y

/-- `rb_tree_predecessor`. -/
def rbTreePredecessor (fuel : ℕ) (x : RbPtr ι) (t : RbTree ι) : Option (RbPtr ι) :=
  if t.child .left x ≠ .nil then extreme .right t fuel (t.child .left x)
  else climbLeft t fuel x (t.parent x)

/-- First part of `RB_DELETE_FIXUP_SUB(s, s.flip)`: a red sibling is rotated away. -/
def fixupRed (s : Side) (x : RbPtr ι) (t : RbTree ι) : Option (RbTree ι) :=
  let w := t.child s.flip (t.parent x)
  if t.red w then
    let t := t.setRed w false
    let t := t.setRed (t.parent x) true
    rotate s (t.parent x) t
  else some t

/-- The rotation that brings a red nephew to the far side. -/
def fixupNear (s : Side) (w : RbPtr ι) (t : RbTree ι) : Option (RbTree ι) :=
  if ¬ t.red (t.child s.flip w) then
    let t := t.setRed (t.child s w) false
    let t := t.setRed w true
    rotate s.flip w t
  else some t

/-- The last rotation of `RB_DELETE_FIXUP_SUB`, with `w->_right` red. -/
def fixupFar (s : Side) (x : RbPtr ι) (t : RbTree ι) : Option (RbTree ι) :=
  let w := t.child s.flip (t.parent x)
  let t := t.setRed w (t.red (t.parent x))
  let t := t.setRed (t.parent x) false
  let t := t.setRed (t.child s.flip w) false
  rotate s (t.parent x) t

/-- Second part of `RB_DELETE_FIXUP_SUB`, with a black sibling; `top` is what the source calls
`root`, the node that was uppermost when the fixup began. -/
def fixupBlack (s : Side) (top x : RbPtr ι) (t : RbTree ι) : Option (RbPtr ι × RbTree ι) :=
  let w := t.child s.flip (t.parent x)
  if ¬ t.red (t.child s w) ∧ ¬ t.red (t.child s.flip w) then
    some (t.parent x, t.setRed w true)
  else do
    let t ← fixupNear s w t
    let t ← fixupFar s x t
    return (top, t)

/-- `RB_DELETE_FIXUP_SUB(s, s.flip)`. -/
def deleteFixupSub (s : Side) (top x : RbPtr ι) (t : RbTree ι) :
    Option (RbPtr ι × RbTree ι) :=
  (fixupRed s x t).bind (fixupBlack s top x)

/-- The loop of `rb_delete_fixup`. -/
def deleteFixup (top : RbPtr ι) : ℕ → RbPtr ι → RbTree ι → Option (RbTree ι)
  | 0, _, _ => none
  | fuel + 1, x, t =>
    if x ≠ top ∧ ¬ t.red x then
      let s : Side := if x = t.child .left (t.parent x) then .left else .right
      (deleteFixupSub s top x t).bind fun xt => deleteFixup top fuel xt.1 xt.2
    else some (t.setRed x false)

/-- `rb_delete_fixup`. -/
def rbDeleteFixup (fuel : ℕ) (x : RbPtr ι) (t : RbTree ι) : Option (RbTree ι) :=
  deleteFixup (t.child .left .root) fuel x t

/-- `if (y == y->parent->left) y->parent->left = x; else y->parent->right = x;` -/
def replaceChild (y x : RbPtr ι) (t : RbTree ι) : RbTree ι :=
  if y = t.child .left (t.parent y) then t.setChild .left (t.parent y) x
  else t.setChild .right (t.parent y) x

/-- The node that `rb_delete` takes out of its place: `node` or its successor. -/
def spliceNode (fuel : ℕ) (z : RbPtr ι) (t : RbTree ι) : Option (RbPtr ι) :=
  if t.child .left z = .nil ∨ t.child .right z = .nil then some z else rbTreeSuccessor fuel z t

/-- The other node takes over the place of `node`. -/
def takePlace (y z : RbPtr ι) (t : RbTree ι) : RbTree ι :=
  let t := replaceChild z y t
  let t := t.setParent (t.child .right z) y
  let t := t.setParent (t.child .left z) y
  t.copyNode y z

/-- `rb_delete`. -/
def rbDelete (fuel : ℕ) (z : RbPtr ι) (t : RbTree ι) : Option (RbTree ι) := do
  let y ← spliceNode fuel z t
  let x := if t.child .left y ≠ .nil then t.child .left y else t.child .right y
  if y ≠ .root ∧ y ≠ .nil then
    let t := t.setParent x (t.parent y)
    let t := replaceChild y x t
    let needFixup := ! t.red y
    let t := if y ≠ z then takePlace y z t else t
    if needFixup then rbDeleteFixup fuel x t else some t
  else none

/-- A result of the functions above as the callers see it: `nil` becomes `NULL`. -/
def toNode : RbPtr ι → Option ι
  | .node i => some i
  | _ => none

/-- `rb_node_prev`. -/
def rbNodePrev (fuel : ℕ) (i : ι) (t : RbTree ι) : Option (Option ι) :=
  (rbTreePredecessor fuel (.node i) t).map toNode

/-- `rb_node_next`. -/
def rbNodeNext (fuel : ℕ) (i : ι) (t : RbTree ι) : Option (Option ι) :=
  (rbTreeSuccessor fuel (.node i) t).map toNode

/-- The loop of `rb_search`. -/
def searchLoop {κ : Type} (compare : ι → κ → Int) (key : κ) (t : RbTree ι) :
    ℕ → RbPtr ι → Option (RbPtr ι)
  | 0, _ => none
  | fuel + 1, p =>
    match p with
    | .nil => some .nil
    | .root => none
    | .node i =>
      if compare i key ≠ 0 then
        searchLoop compare key t fuel (t.child (if compare i key > 0 then .left else .right) p)
      else some p

/-- `rb_search`; `compare` is the function passed with the key, not that of the tree. -/
def rbSearch {κ : Type} (compare : ι → κ → Int) (key : κ) (fuel : ℕ) (t : RbTree ι) :
    Option (Option ι) :=
  (searchLoop compare key t fuel (t.child .left .root)).map toNode

/-- `rb_node_root`. -/
def rbNodeRoot (t : RbTree ι) : Option ι := toNode (t.child .left .root)

/-- `rb_node_left`. -/
def rbNodeLeft (t : RbTree ι) (i : ι) : Option ι := toNode (t.child .left (.node i))

/-- `rb_node_right`. -/
def rbNodeRight (t : RbTree ι) (i : ι) : Option ι := toNode (t.child .right (.node i))

end RbTree

end Ucore
