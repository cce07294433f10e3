import Mathlib

/-!
# Red-black trees with a hole

Coloured binary trees over an arbitrary type of nodes, read in order, and the paths (`Frame` lists,
innermost first) from a subtree to the root.  Left and right are values (`Side`), so that one
lemma speaks of a rotation and of its mirror image.

* `Balanced t red n` — `t` is a red-black tree whose root is red or not, with `n` black nodes on
  every path.
* `PathBalanced c n` — a tree of black height `n` fits into the hole of `c`; the frames
  themselves are coloured correctly, and the outermost one is black.
* `Balanced.plug`, `Balanced.unplug` — filling and opening a hole.
-/

namespace RedBlack

variable {ι : Type}

/-- Which child of a node. -/
inductive Side where
  | left
  | right
  deriving DecidableEq, Repr

/-- The other side. -/
def Side.flip : Side → Side
  | .left => .right
  | .right => .left

@[simp] theorem Side.flip_flip (s : Side) : s.flip.flip = s := by cases s <;> rfl

@[simp] theorem Side.flip_ne (s : Side) : s.flip ≠ s := by cases s <;> decide

@[simp] theorem Side.ne_flip (s : Side) : s ≠ s.flip := by cases s <;> decide

theorem Side.eq_or_flip (s s' : Side) : s' = s ∨ s' = s.flip := by
  cases s <;> cases s' <;> simp [Side.flip]

/-- A coloured binary tree; `nil` counts as black. -/
inductive CTree (ι : Type) where
  | nil
  | node (red : Bool) (l : CTree ι) (i : ι) (r : CTree ι)

namespace CTree

/-- The node `i` with child `a` on side `s` and child `b` on the other. -/
def bin (s : Side) (red : Bool) (a : CTree ι) (i : ι) (b : CTree ι) : CTree ι :=
  match s with
  | .left => node red a i b
  | .right => node red b i a

theorem bin_flip (s : Side) (red : Bool) (a : CTree ι) (i : ι) (b : CTree ι) :
    bin s.flip red a i b = bin s red b i a := by cases s <;> rfl

theorem bin_left (red : Bool) (a : CTree ι) (i : ι) (b : CTree ι) :
    bin .left red a i b = node red a i b := rfl

theorem bin_right (red : Bool) (a : CTree ι) (i : ι) (b : CTree ι) :
    bin .right red a i b = node red b i a := rfl

theorem exists_bin (s : Side) : ∀ t : CTree ι, t = nil ∨ ∃ red a i b, t = bin s red a i b
  | nil => Or.inl rfl
  | node red l i r => by
    right
    cases s
    · exact ⟨red, l, i, r, rfl⟩
    · exact ⟨red, r, i, l, rfl⟩

theorem bin_ne_nil (s : Side) (red : Bool) (a : CTree ι) (i : ι) (b : CTree ι) :
    bin s red a i b ≠ nil := by cases s <;> exact nofun

/-- Whether the root is red. -/
def isRed : CTree ι → Bool
  | nil => false
  | node red _ _ _ => red

@[simp] theorem isRed_nil : (nil : CTree ι).isRed = false := rfl

@[simp] theorem isRed_bin (s : Side) (red : Bool) (a : CTree ι) (i : ι) (b : CTree ι) :
    (bin s red a i b).isRed = red := by cases s <;> rfl

/-- The same tree with a black root. -/
def blacken : CTree ι → CTree ι
  | nil => nil
  | node _ l i r => node false l i r

@[simp] theorem blacken_bin (s : Side) (red : Bool) (a : CTree ι) (i : ι) (b : CTree ι) :
    (bin s red a i b).blacken = bin s false a i b := by cases s <;> rfl

/-- The nodes from left to right. -/
def inorder : CTree ι → List ι
  | nil => []
  | node _ l i r => l.inorder ++ i :: r.inorder

@[simp] theorem inorder_nil : (nil : CTree ι).inorder = [] := rfl

@[simp] theorem inorder_node (red : Bool) (l : CTree ι) (i : ι) (r : CTree ι) :
    (node red l i r).inorder = l.inorder ++ i :: r.inorder := rfl

@[simp] theorem inorder_blacken (t : CTree ι) : t.blacken.inorder = t.inorder := by
  cases t <;> rfl

theorem mem_inorder_bin {s : Side} {red : Bool} {a b : CTree ι} {i j : ι} :
    j ∈ (bin s red a i b).inorder ↔ j = i ∨ j ∈ a.inorder ∨ j ∈ b.inorder := by
  cases s
  · simp only [bin_left, inorder_node, List.mem_append, List.mem_cons]
    exact or_left_comm
  · simp only [bin_right, inorder_node, List.mem_append, List.mem_cons]
    rw [or_left_comm, or_comm (a := j ∈ b.inorder)]

/-- The colour of the root does not show in the order. -/
theorem inorder_bin_red (s : Side) (red red' : Bool) (a : CTree ι) (i : ι) (b : CTree ι) :
    (bin s red a i b).inorder = (bin s red' a i b).inorder := by cases s <;> rfl

theorem inorder_bin_congr (s : Side) (red red' : Bool) {a a' b b' : CTree ι} (i : ι)
    (ha : a'.inorder = a.inorder) (hb : b'.inorder = b.inorder) :
    (bin s red' a' i b').inorder = (bin s red a i b).inorder := by
  cases s <;> simp [bin, ha, hb]

/-- A rotation keeps the order. -/
theorem inorder_rotate (s : Side) (cx cy cx' cy' : Bool) (a b d : CTree ι) (x y : ι) :
    (bin s cy' (bin s cx' a x b) y d).inorder = (bin s cx a x (bin s cy b y d)).inorder := by
  cases s <;> simp [bin]

/-- Number of nodes on the longest path. -/
def height : CTree ι → ℕ
  | nil => 0
  | node _ l _ r => max l.height r.height + 1

theorem height_le_length (t : CTree ι) : t.height ≤ t.inorder.length := by
  induction t with
  | nil => exact Nat.le_refl 0
  | node red l i r ihl ihr =>
    simp only [height, inorder_node, List.length_append, List.length_cons]
    omega

end CTree

open CTree

/-- One step of the path from a subtree to the root: the subtree hangs on side `side` of node `id`,
whose other child is `sib`. -/
structure Frame (ι : Type) where
  side : Side
  red : Bool
  id : ι
  sib : CTree ι

/-- Fill the hole of a path, innermost frame first. -/
def plug : List (Frame ι) → CTree ι → CTree ι
  | [], t => t
  | f :: c, t => plug c (bin f.side f.red t f.id f.sib)

@[simp] theorem plug_nil (t : CTree ι) : plug [] t = t := rfl

@[simp] theorem plug_cons (f : Frame ι) (c : List (Frame ι)) (t : CTree ι) :
    plug (f :: c) t = plug c (bin f.side f.red t f.id f.sib) := rfl

/-- The hole may as well be where the sibling is. -/
theorem plug_swap (f : Frame ι) (c : List (Frame ι)) (t : CTree ι) :
    plug (f :: c) t = plug (⟨f.side.flip, f.red, f.id, t⟩ :: c) f.sib := by
  rw [plug_cons, plug_cons, bin_flip]

theorem plug_append (c c' : List (Frame ι)) (t : CTree ι) :
    plug (c ++ c') t = plug c' (plug c t) := by
  induction c generalizing t with
  | nil => rfl
  | cons f c ih => exact ih _

/-- The nodes to the left of the hole. -/
def before : List (Frame ι) → List ι
  | [] => []
  | f :: c =>
    match f.side with
    | .left => before c
    | .right => before c ++ (f.sib.inorder ++ [f.id])

/-- The nodes to the right of the hole. -/
def after : List (Frame ι) → List ι
  | [] => []
  | f :: c =>
    match f.side with
    | .left => f.id :: f.sib.inorder ++ after c
    | .right => after c

theorem inorder_plug (c : List (Frame ι)) (t : CTree ι) :
    (plug c t).inorder = before c ++ (t.inorder ++ after c) := by
  induction c generalizing t with
  | nil => simp [before, after]
  | cons f c ih =>
    rw [plug_cons, ih]
    cases hs : f.side <;> simp [before, after, hs, bin]

theorem inorder_plug_congr (c : List (Frame ι)) {t t' : CTree ι} (h : t'.inorder = t.inorder) :
    (plug c t').inorder = (plug c t).inorder := by
  rw [inorder_plug, inorder_plug, h]

theorem before_eq_nil {c : List (Frame ι)} (h : ∀ f ∈ c, f.side = .left) : before c = [] := by
  induction c with
  | nil => rfl
  | cons f c ih =>
    rw [before, h f (by simp)]
    exact ih fun g hg => h g (by simp [hg])

theorem after_eq_nil {c : List (Frame ι)} (h : ∀ f ∈ c, f.side = .right) : after c = [] := by
  induction c with
  | nil => rfl
  | cons f c ih =>
    rw [after, h f (by simp)]
    exact ih fun g hg => h g (by simp [hg])

/-- The nodes of a path: its own and those of the siblings. -/
def pathNodes (c : List (Frame ι)) : List ι := before c ++ after c

theorem mem_pathNodes_cons {f : Frame ι} {c : List (Frame ι)} {j : ι} :
    j ∈ pathNodes (f :: c) ↔ j = f.id ∨ j ∈ f.sib.inorder ∨ j ∈ pathNodes c := by
  unfold pathNodes
  cases hs : f.side <;> simp [before, after, hs] <;> tauto

theorem mem_plug {c : List (Frame ι)} {t : CTree ι} {j : ι} :
    j ∈ (plug c t).inorder ↔ j ∈ t.inorder ∨ j ∈ pathNodes c := by
  unfold pathNodes
  simp only [inorder_plug, List.mem_append]
  tauto

theorem nodup_bin {s : Side} {red : Bool} {a b : CTree ι} {i : ι} :
    (bin s red a i b).inorder.Nodup ↔ a.inorder.Nodup ∧ b.inorder.Nodup ∧ i ∉ a.inorder ∧
      i ∉ b.inorder ∧ ∀ j ∈ a.inorder, j ∉ b.inorder := by
  cases s <;> simp [bin, List.nodup_append'] <;> grind [List.Disjoint]

theorem nodup_plug {c : List (Frame ι)} {t : CTree ι} :
    (plug c t).inorder.Nodup ↔ t.inorder.Nodup ∧ (pathNodes c).Nodup ∧
      ∀ j ∈ t.inorder, j ∉ pathNodes c := by
  have hperm : (plug c t).inorder.Perm (t.inorder ++ pathNodes c) := by
    rw [inorder_plug, pathNodes]
    exact List.perm_append_comm_assoc _ _ _
  rw [hperm.nodup_iff, List.nodup_append']
  simp only [List.Disjoint]

theorem nodup_pathNodes_cons {f : Frame ι} {c : List (Frame ι)} :
    (pathNodes (f :: c)).Nodup ↔ f.sib.inorder.Nodup ∧ (pathNodes c).Nodup ∧
      f.id ∉ f.sib.inorder ∧ f.id ∉ pathNodes c ∧ ∀ j ∈ f.sib.inorder, j ∉ pathNodes c := by
  -- the nodes of the path are the nodes of the tree whose hole is empty
  have hplug := nodup_plug (c := f :: c) (t := CTree.nil)
  rw [plug_cons, nodup_plug, nodup_bin] at hplug
  simp only [mem_inorder_bin, inorder_nil] at hplug
  grind

theorem length_le_height (c : List (Frame ι)) (t : CTree ι) :
    c.length + t.height ≤ (plug c t).height := by
  induction c generalizing t with
  | nil => simp
  | cons f c ih =>
    have hstep : t.height + 1 ≤ (bin f.side f.red t f.id f.sib).height := by
      cases f.side <;> simp only [bin, height] <;> omega
    have := ih (bin f.side f.red t f.id f.sib)
    simp only [plug_cons, List.length_cons]
    omega

/-- Every node of a tree is the root of a subtree. -/
theorem exists_plug_of_mem {t : CTree ι} {i : ι} (h : i ∈ t.inorder) :
    ∃ (c : List (Frame ι)) (red : Bool) (l r : CTree ι), t = plug c (node red l i r) := by
  induction t with
  | nil => simp at h
  | node red l j r ihl ihr =>
    simp only [inorder_node, List.mem_append, List.mem_cons] at h
    rcases h with hl | rfl | hr
    · obtain ⟨c, red', l', r', rfl⟩ := ihl hl
      exact ⟨c ++ [⟨.left, red, j, r⟩], red', l', r', by rw [plug_append]; rfl⟩
    · exact ⟨[], red, l, r, rfl⟩
    · obtain ⟨c, red', l', r', rfl⟩ := ihr hr
      exact ⟨c ++ [⟨.right, red, j, l⟩], red', l', r', by rw [plug_append]; rfl⟩

/-! ## Balance -/

/-- Red-black trees: colour of the root, number of black nodes on every path. -/
inductive Balanced : CTree ι → Bool → ℕ → Prop where
  | nil : Balanced .nil false 0
  | red {l r : CTree ι} {i : ι} {n : ℕ} : Balanced l false n → Balanced r false n →
      Balanced (.node true l i r) true n
  | black {l r : CTree ι} {i : ι} {cl cr : Bool} {n : ℕ} : Balanced l cl n → Balanced r cr n →
      Balanced (.node false l i r) false (n + 1)

theorem Balanced.isRed {t : CTree ι} {k : Bool} {n : ℕ} (h : Balanced t k n) : t.isRed = k := by
  cases h <;> rfl

theorem Balanced.ne_nil {t : CTree ι} {n : ℕ} (h : Balanced t true n) : t ≠ .nil := by
  cases h
  exact nofun

theorem Balanced.binRed {s : Side} {a b : CTree ι} {i : ι} {n : ℕ} (ha : Balanced a false n)
    (hb : Balanced b false n) : Balanced (bin s true a i b) true n := by
  cases s
  · exact .red ha hb
  · exact .red hb ha

theorem Balanced.binBlack {s : Side} {a b : CTree ι} {i : ι} {ca cb : Bool} {n : ℕ}
    (ha : Balanced a ca n) (hb : Balanced b cb n) :
    Balanced (bin s false a i b) false (n + 1) := by
  cases s
  · exact .black ha hb
  · exact .black hb ha

theorem Balanced.red_inv {s : Side} {a b : CTree ι} {i : ι} {k : Bool} {n : ℕ}
    (h : Balanced (bin s true a i b) k n) : Balanced a false n ∧ Balanced b false n := by
  cases s <;> cases h with
  | red ha hb => first | exact ⟨ha, hb⟩ | exact ⟨hb, ha⟩

theorem Balanced.black_inv {s : Side} {a b : CTree ι} {i : ι} {k : Bool} {n : ℕ}
    (h : Balanced (bin s false a i b) k n) :
    ∃ ca cb m, n = m + 1 ∧ Balanced a ca m ∧ Balanced b cb m := by
  cases s <;> cases h with
  | black ha hb => first | exact ⟨_, _, _, rfl, ha, hb⟩ | exact ⟨_, _, _, rfl, hb, ha⟩

/-- A red-black tree of black height at least one has a root. -/
theorem Balanced.exists_bin (s : Side) {t : CTree ι} {k : Bool} {n : ℕ}
    (h : Balanced t k (n + 1)) : ∃ a i b, t = bin s k a i b := by
  rcases CTree.exists_bin s t with rfl | ⟨red, a, i, b, rfl⟩
  · cases h
  · exact ⟨a, i, b, by rw [← h.isRed, isRed_bin]⟩

theorem Balanced.exists_bin_of_red (s : Side) {t : CTree ι} {n : ℕ} (h : Balanced t true n) :
    ∃ a i b, t = bin s true a i b := by
  rcases CTree.exists_bin s t with rfl | ⟨red, a, i, b, rfl⟩
  · cases h
  · exact ⟨a, i, b, by rw [← h.isRed, isRed_bin]⟩

theorem Balanced.blacken {t : CTree ι} {n : ℕ} (h : Balanced t true n) :
    Balanced t.blacken false (n + 1) := by
  cases h with
  | red hl hr => exact .black hl hr

/-- The black nodes that a node of colour `red` adds to a path. -/
def blackCount (red : Bool) : ℕ := if red then 0 else 1

/-- The innermost frame is black (and exists). -/
def HeadBlack : List (Frame ι) → Prop
  | [] => False
  | f :: _ => f.red = false

/-- A path whose hole takes a tree of black height `n`.  A red frame sits below a black one, so the
outermost frame is black. -/
def PathBalanced : List (Frame ι) → ℕ → Prop
  | [], _ => True
  | f :: c, n =>
    (∃ k, Balanced f.sib k n ∧ (f.red = true → k = false ∧ HeadBlack c)) ∧
      PathBalanced c (n + blackCount f.red)

theorem headBlack_append_id {c₁ c : List (Frame ι)} {s : Side} {red : Bool} {i j : ι}
    {a : CTree ι} (h : HeadBlack (c₁ ++ ⟨s, red, i, a⟩ :: c)) :
    HeadBlack (c₁ ++ ⟨s, red, j, a⟩ :: c) := by
  cases c₁ <;> exact h

/-- Balance does not depend on which node stands where. -/
theorem PathBalanced.append_id {c₁ c : List (Frame ι)} {s : Side} {red : Bool} {i j : ι}
    {a : CTree ι} {n : ℕ} (h : PathBalanced (c₁ ++ ⟨s, red, i, a⟩ :: c) n) :
    PathBalanced (c₁ ++ ⟨s, red, j, a⟩ :: c) n := by
  induction c₁ generalizing n with
  | nil => exact h
  | cons f c₁ ih =>
    obtain ⟨⟨k, hk, hred⟩, hrest⟩ := h
    exact ⟨⟨k, hk, fun hf => ⟨(hred hf).1, headBlack_append_id (hred hf).2⟩⟩, ih hrest⟩

/-- Filling the hole of a non-empty path. -/
theorem PathBalanced.plug_cons : ∀ {c : List (Frame ι)} {f : Frame ι} {t : CTree ι} {k : Bool}
    {n : ℕ}, PathBalanced (f :: c) n → Balanced t k n → (k = true → f.red = false) →
    ∃ N, Balanced (plug (f :: c) t) false N
  | [], f, t, k, n, hc, ht, hk => by
    obtain ⟨⟨k', hsib, hred⟩, _⟩ := hc
    cases hf : f.red with
    | true => exact (hred hf).2.elim
    | false => exact ⟨n + 1, by rw [RedBlack.plug_cons, plug_nil, hf]; exact ht.binBlack hsib⟩
  | g :: c, f, t, k, n, hc, ht, hk => by
    obtain ⟨⟨k', hsib, hred⟩, hrest⟩ := hc
    rw [RedBlack.plug_cons]
    cases hf : f.red with
    | true =>
      obtain ⟨rfl, hg⟩ := hred hf
      have hblack : k = false := by
        cases k with
        | false => rfl
        | true => rw [hf] at hk; exact absurd (hk rfl) (by decide)
      subst hblack
      rw [hf] at hrest
      exact plug_cons hrest (ht.binRed hsib) fun _ => hg
    | false =>
      rw [hf] at hrest
      exact plug_cons hrest (ht.binBlack hsib) fun h => absurd h (by decide)

/-- **Filling a hole** with a tree that has a black root, or below a black node. -/
theorem Balanced.plug {c : List (Frame ι)} {t : CTree ι} {k : Bool} {n : ℕ}
    (hc : PathBalanced c n) (ht : Balanced t k n) (hk : k = true → HeadBlack c) :
    ∃ N, Balanced (plug c t) false N := by
  cases c with
  | nil =>
    cases k with
    | false => exact ⟨n, ht⟩
    | true => exact (hk rfl).elim
  | cons f c => exact hc.plug_cons ht hk

/-- **Opening a hole** at any subtree of a red-black tree. -/
theorem Balanced.unplug {c : List (Frame ι)} {t : CTree ι} {N : ℕ} :
    Balanced (RedBlack.plug c t) false N →
    ∃ k n, PathBalanced c n ∧ Balanced t k n ∧ (k = true → HeadBlack c) := by
  induction c generalizing t with
  | nil =>
    intro h
    exact ⟨false, N, trivial, h, nofun⟩
  | cons f c ih =>
    intro h
    rw [RedBlack.plug_cons] at h
    obtain ⟨k, n, hc, ht, hk⟩ := ih h
    cases hf : f.red with
    | true =>
      rw [hf] at ht
      obtain ⟨ha, hb⟩ := ht.red_inv
      have hkt : k = true := by rw [← ht.isRed, isRed_bin]
      refine ⟨false, n, ⟨⟨false, hb, fun _ => ⟨rfl, hk hkt⟩⟩, ?_⟩, ha, nofun⟩
      simpa [hf, blackCount] using hc
    | false =>
      rw [hf] at ht
      obtain ⟨ca, cb, m, rfl, ha, hb⟩ := ht.black_inv
      refine ⟨ca, m, ⟨⟨cb, hb, fun h => ?_⟩, ?_⟩, ha, fun _ => hf⟩
      · rw [hf] at h
        cases h
      · simpa [hf, blackCount] using hc

end RedBlack
