import Ucore.Rb.Insert

/-!
# Deletion

`rb_delete` takes a node with at most one child out of its place, lets it take over the place of
the deleted node if that is another one, and repairs the black heights upwards.  `DeleteInv` is the
invariant of the repair: the tree below the hole is one black node short.

The fixup loop keeps the node that was uppermost when it began and stops there; a rotation may
have moved that node, and then it is black.

Principal result: `rbDelete_spec` — with fuel for the height of the tree no assertion fails, the
tree is red-black again, and its nodes are the old ones without the deleted node, in the same
order.
-/

namespace Ucore

open RedBlack CTree

namespace RbTree

variable {ι : Type} [DecidableEq ι] {t : RbTree ι} {c : List (Frame ι)} {f : Frame ι}
  {T W a b : CTree ι} {n : ℕ} {s : Side} {cf : Bool} {p w : ι}

/-! ## The fixup loop -/

/-- The state of the loop of `rb_delete_fixup`: `x` is the root of `T`, which may be `nil`. -/
structure DeleteInv (t : RbTree ι) (c : List (Frame ι)) (T : CTree ι) (n : ℕ) : Prop where
  rep : Rep t (plug c T)
  parent : t.parent (ptr T) = above c
  short : if T.isRed then Balanced T.blacken false (n + 1) else Balanced T false n
  path : PathBalanced c (n + 1)

omit [DecidableEq ι] in
/-- The parent of the hole is read from `nil->parent` when the hole is empty. -/
theorem Rep.parent_hole (h : Rep t (plug c T)) (hnil : t.parent .nil = above c ∨ T ≠ .nil) :
    t.parent (ptr T) = above c := by
  cases T with
  | nil => exact hnil.elim id fun hne => absurd rfl hne
  | node red l i r => exact h.parent_ptr nofun

/-- A red sibling is rotated away. -/
theorem fixupRed_red (h : Rep t (plug (⟨s, cf, p, bin s true a w b⟩ :: c) T))
    (hpar : t.parent (ptr T) = .node p) :
    ∃ t', fixupRed s (ptr T) t = some t' ∧
      Rep t' (plug (⟨s, true, p, a⟩ :: ⟨s, false, w, b⟩ :: c) T) ∧
      t'.parent (ptr T) = .node p := by
  have hw : t.child s.flip (.node p) = .node w := by rw [h.frameAt.far, ptr_bin]
  have hred : t.red (.node w) = true := by simpa using h.red_sib
  have h1 := (h.setRedSib false).setRedFrame true
  obtain ⟨t', hrot, hrep, -, hnil⟩ := rotate_spec (c := c) (s := s) h1
  refine ⟨t', ?_, hrep, ?_⟩
  · unfold fixupRed
    simp only [hpar, hw, hred, if_true, setRed_parent]
    exact hrot
  · refine Rep.parent_hole (c := ⟨s, true, p, a⟩ :: ⟨s, false, w, b⟩ :: c) hrep ?_
    by_cases hT : T = .nil
    · subst hT
      exact Or.inl (hnil.trans hpar)
    · exact Or.inr hT

theorem fixupRed_black (h : Rep t (plug (⟨s, cf, p, W⟩ :: c) T))
    (hpar : t.parent (ptr T) = .node p) (hW : W.isRed = false) :
    fixupRed s (ptr T) t = some t := by
  have hw : t.child s.flip (.node p) = ptr W := h.frameAt.far
  have hred : t.red (ptr W) = false := h.red_sib.trans hW
  unfold fixupRed
  simp [hpar, hw, hred]

/-- A red nephew on the near side is brought to the far side. -/
theorem fixupNear_spec {a₁ a₂ : CTree ι} {i : ι}
    (h : Rep t (plug (⟨s, cf, p, bin s false (bin s true a₁ i a₂) w b⟩ :: c) T))
    (hpar : t.parent (ptr T) = .node p) (hb : b.isRed = false) :
    ∃ t', fixupNear s (.node w) t = some t' ∧
      Rep t' (plug (⟨s, cf, p, bin s false a₁ i (bin s true a₂ w b)⟩ :: c) T) ∧
      t'.parent (ptr T) = .node p := by
  have hswap := h
  rw [plug_swap] at hswap
  have hat := hswap.nodeAt
  have hbred : t.red (ptr b) = false := by
    have := Rep.red_ptr (T := b) (c := ⟨s.flip, false, w, bin s true a₁ i a₂⟩ ::
      ⟨s.flip, cf, p, T⟩ :: c) (by rw [plug_cons, bin_flip]; exact hswap)
    exact this.trans hb
  -- the near nephew becomes black, the sibling red
  have h1 := Rep.setRed (t := t) (s := s) (a := a₁) (i := i) (b := a₂)
    (c := ⟨s, false, w, b⟩ :: ⟨s.flip, cf, p, T⟩ :: c) hswap false
  have h2 := Rep.setRed (s := s) (i := w) (c := ⟨s.flip, cf, p, T⟩ :: c) h1 true
  rw [← bin_flip, ← bin_flip s false] at h2
  obtain ⟨t', hrot, hrep, -, hnil⟩ := rotate_spec h2
  rw [bin_flip, bin_flip] at hrep
  have hrep' : Rep t' (plug (⟨s, cf, p, bin s false a₁ i (bin s true a₂ w b)⟩ :: c) T) := by
    rw [plug_swap]; exact hrep
  refine ⟨t', ?_, hrep', ?_⟩
  · unfold fixupNear
    rw [hat.far, hat.near, hbred, ptr_bin]
    exact hrot
  · refine Rep.parent_hole hrep' ?_
    by_cases hT : T = .nil
    · subst hT
      exact Or.inl (hnil.trans hpar)
    · exact Or.inr hT

/-- The last rotation: the sibling takes the parent's place and colour. -/
theorem fixupFar_spec {b₁ b₂ : CTree ι} {j : ι}
    (h : Rep t (plug (⟨s, cf, p, bin s false a w (bin s true b₁ j b₂)⟩ :: c) T))
    (hpar : t.parent (ptr T) = .node p) :
    ∃ t', fixupFar s (ptr T) t = some t' ∧
      Rep t' (plug c (bin s cf (bin s false T p a) w (bin s false b₁ j b₂))) := by
  have hw : t.child s.flip (.node p) = .node w := by rw [h.frameAt.far, ptr_bin]
  have hp : t.red (.node p) = cf := h.frameAt.red
  have h1 := (h.setRedSib cf).setRedFrame false
  have hj : t.child s.flip (.node w) = .node j := by
    rw [plug_swap] at h
    rw [h.nodeAt.far, ptr_bin]
  have h2 : Rep (((t.setRed (.node w) cf).setRed (.node p) false).setRed (.node j) false)
      (plug (⟨s, false, p, bin s cf a w (bin s false b₁ j b₂)⟩ :: c) T) := by
    rw [plug_swap] at h1 ⊢
    have h1' := Rep.setRed (s := s) (i := j) (a := b₁) (b := b₂)
      (c := ⟨s.flip, cf, w, a⟩ :: ⟨s.flip, false, p, T⟩ :: c)
      (by rw [plug_cons, bin_flip]; exact h1) false
    rw [plug_cons, bin_flip] at h1'
    exact h1'
  obtain ⟨t', hrot, hrep, -, -⟩ := rotate_spec (c := c) (s := s) h2
  refine ⟨t', ?_, hrep⟩
  unfold fixupFar
  simp only [hpar, hw, hp, hj, setRed_parent, setRed_child]
  exact hrot

omit [DecidableEq ι] in
/-- The nodes the second part reads off the memory. -/
theorem fixupBlack_read (h : Rep t (plug (⟨s, cf, p, bin s false a w b⟩ :: c) T)) :
    t.child s.flip (.node p) = .node w ∧ t.child s (.node w) = ptr a ∧
      t.child s.flip (.node w) = ptr b ∧ t.red (ptr a) = a.isRed ∧ t.red (ptr b) = b.isRed := by
  have hfar := h.frameAt.far
  rw [ptr_bin] at hfar
  rw [plug_swap] at h
  have hat := h.nodeAt
  have hsub := (linked_bin.mp h.subLinked).2
  exact ⟨hfar, hat.near, hat.far, hsub.1.red_ptr h.nilBlack, hsub.2.red_ptr h.nilBlack⟩

/-- The result of the loop's body when the repair is finished: a red-black tree that still has the
path `c` on top, in which the parent `p` of the hole is black. -/
structure Repaired (t : RbTree ι) (c : List (Frame ι)) (p : ι) (L : List ι) : Prop where
  tree : ∃ S N, Rep t (plug c S) ∧ Balanced (plug c S) false N ∧ (plug c S).inorder = L
  parent : t.red (.node p) = false

/-- The far nephew is red: one rotation finishes the repair. -/
theorem fixupFar_repaired {b₁ b₂ : CTree ι} {j : ι} {ka : Bool}
    (h : Rep t (plug (⟨s, cf, p, bin s false a w (bin s true b₁ j b₂)⟩ :: c) T))
    (hpar : t.parent (ptr T) = .node p) (hT : Balanced T false n) (ha : Balanced a ka n)
    (hb : Balanced (bin s true b₁ j b₂) true n) (hc : PathBalanced c (n + 1 + blackCount cf))
    (hcf : cf = true → HeadBlack c) :
    ∃ t', fixupFar s (ptr T) t = some t' ∧ Repaired t' c p
      (plug (⟨s, cf, p, bin s false a w (bin s true b₁ j b₂)⟩ :: c) T).inorder := by
  obtain ⟨t', hfar, hrep⟩ := fixupFar_spec h hpar
  have hleft := hT.binBlack (s := s) (i := p) ha
  have hright : Balanced (bin s false b₁ j b₂) false (n + 1) := by
    have := hb.blacken
    rwa [blacken_bin] at this
  have hbal : ∃ N, Balanced (plug c (bin s cf (bin s false T p a) w (bin s false b₁ j b₂)))
      false N := by
    cases cf with
    | true => exact Balanced.plug hc (hleft.binRed hright) hcf
    | false => exact Balanced.plug hc (hleft.binBlack hright) nofun
  obtain ⟨N, hN⟩ := hbal
  refine ⟨t', hfar, ⟨_, N, hrep, hN, ?_⟩, ?_⟩
  · rw [plug_cons]
    refine inorder_plug_congr c ?_
    cases s <;> simp [bin]
  · exact (linked_bin.mp (linked_bin.mp hrep.subLinked).2.1).1.red

/-- **One round with a black sibling**: the hole moves up to the parent, or the repair ends. -/
theorem fixupBlack_spec {top : RbPtr ι} {ka kb : Bool}
    (h : Rep t (plug (⟨s, cf, p, bin s false a w b⟩ :: c) T)) (hpar : t.parent (ptr T) = .node p)
    (hT : Balanced T false n) (ha : Balanced a ka n) (hb : Balanced b kb n)
    (hc : PathBalanced c (n + 1 + blackCount cf)) (hcf : cf = true → HeadBlack c) :
    ∃ x' t', fixupBlack s top (ptr T) t = some (x', t') ∧
      ((∃ T' n', x' = ptr T' ∧ ptr T' = .node p ∧ T'.isRed = cf ∧ DeleteInv t' c T' n' ∧
          (plug c T').inorder = (plug (⟨s, cf, p, bin s false a w b⟩ :: c) T).inorder) ∨
        (x' = top ∧ Repaired t' c p
          (plug (⟨s, cf, p, bin s false a w b⟩ :: c) T).inorder)) := by
  obtain ⟨hw, hwa, hwb, hra, hrb⟩ := fixupBlack_read h
  rw [ha.isRed] at hra
  rw [hb.isRed] at hrb
  unfold fixupBlack
  simp only [hpar, hw, hwa, hwb, hra, hrb]
  cases kb with
  | true =>
    -- the far nephew is red already
    obtain ⟨b₁, j, b₂, rfl⟩ := hb.exists_bin_of_red s
    obtain ⟨t', hfar, hdone⟩ := fixupFar_repaired h hpar hT ha hb hc hcf
    refine ⟨top, t', ?_, Or.inr ⟨rfl, hdone⟩⟩
    have hnear : fixupNear s (.node w) t = some t := by
      unfold fixupNear
      rw [hwb, hrb]
      rfl
    simp [hnear, hfar]
  | false =>
    cases ka with
    | true =>
      obtain ⟨a₁, i, a₂, rfl⟩ := ha.exists_bin_of_red s
      obtain ⟨ha₁, ha₂⟩ := ha.red_inv
      obtain ⟨t₁, hnear, hrep₁, hpar₁⟩ := fixupNear_spec h hpar hb.isRed
      obtain ⟨t', hfar, hdone⟩ := fixupFar_repaired hrep₁ hpar₁ hT ha₁ (ha₂.binRed hb) hc hcf
      refine ⟨top, t', by simp [hnear, hfar], Or.inr ⟨rfl, ?_⟩⟩
      have hord : (plug (⟨s, cf, p, bin s false a₁ i (bin s true a₂ w b)⟩ :: c) T).inorder =
          (plug (⟨s, cf, p, bin s false (bin s true a₁ i a₂) w b⟩ :: c) T).inorder := by
        rw [plug_cons, plug_cons]
        refine inorder_plug_congr c ?_
        cases s <;> simp [bin]
      rwa [hord] at hdone
    | false =>
      have hrep : Rep (t.setRed (.node w) true)
          (plug c (bin s cf T p (bin s true a w b))) := h.setRedSib true
      refine ⟨.node p, t.setRed (.node w) true, by simp, Or.inl ?_⟩
      have hord : (plug c (bin s cf T p (bin s true a w b))).inorder =
          (plug (⟨s, cf, p, bin s false a w b⟩ :: c) T).inorder := by
        rw [plug_cons]
        exact inorder_plug_congr c (inorder_bin_congr s cf cf p rfl (inorder_bin_red s _ _ _ _ _))
      have hpar' := hrep.parent_ptr (bin_ne_nil _ _ _ _ _)
      have hbal := hT.binBlack (s := s) (i := p) (ha.binRed (s := s) (i := w) hb)
      cases cf with
      | true =>
        refine ⟨_, n, by rw [ptr_bin], by rw [ptr_bin], by rw [isRed_bin], ⟨hrep, hpar', ?_, hc⟩,
          hord⟩
        rw [isRed_bin, if_pos rfl, blacken_bin]
        exact hbal
      | false =>
        refine ⟨_, n + 1, by rw [ptr_bin], by rw [ptr_bin], by rw [isRed_bin],
          ⟨hrep, hpar', ?_, hc⟩, hord⟩
        rw [isRed_bin]
        exact hbal

/-- **One round of the loop.** The hole moves up, or it becomes a red node, or the repair ends. -/
theorem deleteFixupSub_spec (top : RbPtr ι) (h : DeleteInv t (f :: c) T n)
    (hT : T.isRed = false) :
    ∃ x' t', deleteFixupSub f.side top (ptr T) t = some (x', t') ∧
      ((∃ c' T' n', x' = ptr T' ∧ DeleteInv t' c' T' n' ∧
          (T'.isRed = true ∨ c' = c ∧ ptr T' = .node f.id) ∧
          (plug c' T').inorder = (plug (f :: c) T).inorder) ∨
        (x' = top ∧ ∃ c', (c' = c ∨ ∃ g, c' = g :: c) ∧
          Repaired t' c' f.id (plug (f :: c) T).inorder)) := by
  obtain ⟨s, cf, p, W⟩ := f
  obtain ⟨hrep, hpar, hshort, ⟨⟨kW, hW, hWred⟩, hc⟩⟩ := h
  simp only at hW hWred hc ⊢
  rw [hT, if_neg (by decide)] at hshort
  obtain ⟨a, w, b, rfl⟩ := hW.exists_bin s
  cases kW with
  | false =>
    obtain ⟨ka, kb, m, hm, ha, hb⟩ := hW.black_inv
    have hm : n = m := by omega
    subst hm
    have hred := fixupRed_black hrep hpar (isRed_bin ..)
    obtain ⟨x', t', hrun, hres⟩ := fixupBlack_spec hrep hpar hshort ha hb hc
      fun hcf => (hWred hcf).2
    refine ⟨x', t', by rw [deleteFixupSub, hred]; exact hrun, ?_⟩
    rcases hres with ⟨T', n', hx, hid, -, hinv, hord⟩ | ⟨hx, hdone⟩
    · exact Or.inl ⟨c, T', n', hx, hinv, Or.inr ⟨rfl, hid⟩, hord⟩
    · exact Or.inr ⟨hx, c, Or.inl rfl, hdone⟩
  | true =>
    -- the parent of a red sibling is black; after the rotation it is red and has a black sibling
    obtain ⟨hka, hkb⟩ := hW.red_inv
    have hcf : cf = false := by
      cases cf with
      | false => rfl
      | true => exact absurd (hWred rfl).1 (by decide)
    subst hcf
    obtain ⟨t₁, hred, hrep₁, hpar₁⟩ := fixupRed_red hrep hpar
    obtain ⟨a₁, v, a₂, rfl⟩ := hka.exists_bin s
    obtain ⟨ka, kb, m, hm, ha, hb⟩ := hka.black_inv
    have hm : n = m := by omega
    subst hm
    have hc₁ : PathBalanced (⟨s, false, w, b⟩ :: c) (n + 1 + blackCount true) :=
      ⟨⟨false, hkb, nofun⟩, hc⟩
    have hord₁ : (plug (⟨s, true, p, bin s false a₁ v a₂⟩ :: ⟨s, false, w, b⟩ :: c) T).inorder =
        (plug (⟨s, false, p, bin s true (bin s false a₁ v a₂) w b⟩ :: c) T).inorder := by
      rw [plug_cons, plug_cons, plug_cons]
      refine inorder_plug_congr c ?_
      cases s <;> simp [bin]
    obtain ⟨x', t', hrun, hres⟩ := fixupBlack_spec hrep₁ hpar₁ hshort ha hb hc₁
      fun _ => rfl
    refine ⟨x', t', by rw [deleteFixupSub, hred]; exact hrun, ?_⟩
    rw [hord₁] at hres
    rcases hres with ⟨T', n', hx, hid, hT', hinv, hord⟩ | ⟨hx, hdone⟩
    · exact Or.inl ⟨_, T', n', hx, hinv, Or.inl hT', hord⟩
    · exact Or.inr ⟨hx, _, Or.inr ⟨_, rfl⟩, hdone⟩

omit [DecidableEq ι] in
theorem ptr_plug_congr {S S' : CTree ι} (h : ptr S' = ptr S) : ptr (plug c S') = ptr (plug c S) := by
  cases c with
  | nil => exact h
  | cons f c =>
    clear h
    induction c generalizing f S S' with
    | nil => rw [plug_cons, plug_cons, plug_nil, plug_nil, ptr_bin, ptr_bin]
    | cons g c ih =>
      rw [plug_cons, plug_cons]
      exact ih g

omit [DecidableEq ι] in
theorem exists_ptr_plug (f : Frame ι) (c : List (Frame ι)) (T : CTree ι) :
    ∃ i ∈ pathNodes (f :: c), ptr (plug (f :: c) T) = .node i := by
  induction c generalizing f T with
  | nil => exact ⟨f.id, mem_pathNodes_cons.mpr (Or.inl rfl), by rw [plug_cons, plug_nil, ptr_bin]⟩
  | cons g c ih =>
    obtain ⟨i, hi, hptr⟩ := ih g (bin f.side f.red T f.id f.sib)
    exact ⟨i, mem_pathNodes_cons.mpr (Or.inr (Or.inr hi)), hptr⟩

theorem setRed_self {q : RbPtr ι} {red : Bool} (h : t.red q = red) : t.setRed q red = t := by
  refine RbTree.ext (funext fun r => ?_) rfl rfl
  rw [setRed_red]
  split
  · rename_i hr
    rw [hr, h]
  · rfl

omit [DecidableEq ι] in
/-- The node that was uppermost is black when the repair has ended. -/
theorem Repaired.top_black {c' : List (Frame ι)} {L : List ι} (h : Repaired t c' f.id L)
    (hc' : c' = c ∨ ∃ g, c' = g :: c) : t.red (ptr (plug (f :: c) T)) = false := by
  obtain ⟨⟨S, N, hrep, hbal, -⟩, hp⟩ := h
  cases c with
  | nil =>
    rw [plug_cons, plug_nil, ptr_bin]
    exact hp
  | cons g c =>
    have htop : ptr (plug c' S) = ptr (plug (f :: g :: c) T) := by
      rcases hc' with rfl | ⟨e, rfl⟩
      · rw [plug_cons, plug_cons, plug_cons]
        exact ptr_plug_congr (by rw [ptr_bin, ptr_bin])
      · rw [plug_cons, plug_cons, plug_cons, plug_cons]
        exact ptr_plug_congr (by rw [ptr_bin, ptr_bin])
    rw [← htop]
    exact (Rep.red_ptr (c := []) hrep).trans hbal.isRed

/-- **The fixup loop** ends with a red-black tree of the same nodes. -/
theorem deleteFixup_spec {top : RbPtr ι} : ∀ (fuel : ℕ) (t : RbTree ι) (c : List (Frame ι))
    (T : CTree ι) (n : ℕ), DeleteInv t c T n → (T.isRed = true ∨ top = ptr (plug c T)) →
    (if T.isRed then 0 else c.length) < fuel →
    ∃ t' T' N, deleteFixup top fuel (ptr T) t = some t' ∧ Rep t' T' ∧ Balanced T' false N ∧
      T'.inorder = (plug c T).inorder := by
  intro fuel
  induction fuel with
  | zero => intro t c T n _ _ hlt; omega
  | succ fuel ih =>
    intro t c T n h htop hlt
    have hred := h.rep.red_ptr
    have hshort := h.short
    unfold deleteFixup
    rw [hred]
    cases hT : T.isRed with
    | true =>
      rw [hT, if_pos rfl] at hshort
      rw [if_neg (by simp)]
      obtain ⟨a, x, b, rfl⟩ : ∃ a x b, T = bin .left true a x b := by
        rcases CTree.exists_bin .left T with rfl | ⟨cx, a, x, b, rfl⟩
        · cases hT
        · exact ⟨a, x, b, by rw [← hT, isRed_bin]⟩
      rw [blacken_bin] at hshort
      obtain ⟨N, hN⟩ := Balanced.plug h.path hshort nofun
      refine ⟨_, _, N, rfl, ?_, hN, inorder_plug_congr c (inorder_bin_red _ _ _ _ _ _)⟩
      rw [ptr_bin]
      exact h.rep.setRed false
    | false =>
      have htop := htop.resolve_left (by rw [hT]; decide)
      rw [hT, if_neg (by decide)] at hshort hlt
      cases c with
      | nil =>
        -- the hole is the whole tree: one black node less everywhere
        rw [if_neg (by simp [htop])]
        rw [setRed_self (hred.trans hT)]
        exact ⟨t, T, n, rfl, h.rep, hshort, rfl⟩
      | cons f c =>
        have hsib : f.sib ≠ .nil := by
          obtain ⟨⟨k, hW, _⟩, _⟩ := h.path
          intro heq
          rw [heq] at hW
          cases hW
        have hne : ptr T ≠ top := by
          obtain ⟨i, hi, htop'⟩ := exists_ptr_plug f c T
          rw [htop, htop']
          intro heq
          exact (nodup_plug.mp h.rep.nodup).2.2 i (mem_of_ptr heq) hi
        have hside := h.rep.ptr_eq_left (Or.inr hsib)
        obtain ⟨x', t', hsub, hres⟩ := deleteFixupSub_spec top h hT
        rw [if_pos ⟨hne, by simp⟩, h.parent]
        simp only [hside, hsub]
        simp only [List.length_cons] at hlt
        show ∃ t'' T' N, deleteFixup top fuel x' t' = _ ∧ _
        rcases hres with ⟨c', T', n', rfl, hinv, hcase, hord⟩ | ⟨rfl, c', hc', hdone⟩
        · have hfuel : (if T'.isRed then 0 else c'.length) < fuel := by
            rcases hcase with hr | ⟨rfl, -⟩
            · rw [hr, if_pos rfl]; omega
            · split <;> omega
          have htop' : T'.isRed = true ∨ top = ptr (plug c' T') := by
            rcases hcase with hr | ⟨rfl, hid⟩
            · exact Or.inl hr
            · refine Or.inr (htop.trans ?_)
              rw [plug_cons]
              exact ptr_plug_congr (by rw [ptr_bin, hid])
          obtain ⟨t'', T'', N, hrun, hrep, hbal, hord'⟩ := ih t' c' T' n' hinv htop' hfuel
          exact ⟨t'', T'', N, hrun, hrep, hbal, hord'.trans hord⟩
        · have hblack : t'.red x' = false := by
            rw [htop]
            exact hdone.top_black hc'
          obtain ⟨⟨S, N, hrep, hbal, hord⟩, -⟩ := hdone
          refine ⟨t', _, N, ?_, hrep, hbal, hord⟩
          cases fuel with
          | zero => omega
          | succ fuel =>
            unfold deleteFixup
            rw [if_neg (by simp), setRed_self hblack]

/-! ## Taking a node out -/

section Splice

variable {x y z : ι} {l r : CTree ι} {cz cy k : Bool} {fuel N : ℕ}

theorem replaceChild_eq {y x : RbPtr ι} (hpar : t.parent y = above c)
    (hnear : t.child (holeSide c) (above c) = y)
    (hfar : t.child (holeSide c).flip (above c) ≠ y) :
    replaceChild y x t = t.setChild (holeSide c) (above c) x := by
  unfold replaceChild
  rw [hpar]
  rcases Side.eq_or_flip .left (holeSide c) with hs | hs
  · rw [hs] at hnear ⊢
    rw [if_pos hnear.symm]
  · rw [hs, Side.flip_flip] at hfar
    rw [hs, if_neg (Ne.symm hfar)]
    rfl

/-- A node with at most one child is replaced by that child. -/
theorem splice_spec (h : Rep t (plug c (bin s cy T y .nil))) :
    Rep (replaceChild (.node y) (ptr T) (t.setParent (ptr T) (above c))) (plug c T) ∧
      (replaceChild (.node y) (ptr T) (t.setParent (ptr T) (above c))).parent (ptr T) = above c ∧
      (replaceChild (.node y) (ptr T) (t.setParent (ptr T) (above c))).red = t.red := by
  obtain ⟨hc, hsub, h1, h2, h3, hnd⟩ := rep_plug.mp h
  obtain ⟨hat, hT, -⟩ := linked_bin.mp hsub
  obtain ⟨hndT, hndc, hdisj⟩ := nodup_plug.mp hnd
  obtain ⟨hndT, -, hyT, -, -⟩ := nodup_bin.mp hndT
  simp only [mem_inorder_bin] at hdisj
  have hTy : ptr T ≠ .node y := fun heq => hyT (mem_of_ptr heq)
  obtain ⟨hnear, hfar⟩ := h.child_above (bin_ne_nil _ _ _ _ _)
  rw [ptr_bin] at hnear hfar
  have habove : ∀ j ∈ T.inorder, above c ≠ .node j := fun j hj =>
    h.above_ne (mem_inorder_bin.mpr (Or.inr (Or.inl hj)))
  rw [replaceChild_eq (t := t.setParent (ptr T) (above c))
    (by simp [Ne.symm hTy, hat.parent]) hnear hfar]
  refine ⟨rep_plug.mpr ⟨?_, ?_, ?_, h2, h3, ?_⟩, by simp, rfl⟩
  · refine hc.refill hndc ?_ ?_ fun j hj hne => ⟨rfl, ?_, fun s' => ?_⟩
    · rintro rfl
      simp [above, holeSide]
    · rintro f c' rfl
      have hfT : ptr T ≠ .node f.id := fun heq => habove f.id (mem_of_ptr heq) rfl
      simp [above, holeSide, Ne.symm hfT]
    · have : ptr T ≠ .node j := fun heq => hdisj j (Or.inr (Or.inl (mem_of_ptr heq))) hj
      simp [Ne.symm this]
    · simp [Ne.symm hne]
  · refine hT.reparent hndT ?_ fun j hj hne => ⟨rfl, ?_, fun s' => ?_⟩
    · intro j hj
      refine ⟨rfl, by simp [hj], fun s' => ?_⟩
      simp [Ne.symm (habove j (mem_of_ptr hj))]
    · simp [Ne.symm hne]
    · simp [Ne.symm (habove j hj)]
  · simp only [setChild_child, not_right_of_root, if_false]
    exact h1
  · exact nodup_plug.mpr ⟨hndT, hndc, fun j hj => hdisj j (Or.inr (Or.inl hj))⟩

/-- A node that is not in the tree takes over the place of `z`. -/
theorem takePlace_spec (h : Rep t (plug c (.node cz l z r))) (hl : l ≠ .nil)
    (hy : y ∉ (plug c (.node cz l z r)).inorder) :
    Rep (takePlace (.node y) (.node z) t) (plug c (.node cz l y r)) ∧
      (takePlace (.node y) (.node z) t).parent .nil =
        (if ptr r = .nil then .node y else t.parent .nil) := by
  obtain ⟨hc, hsub, h1, h2, h3, hnd⟩ := rep_plug.mp h
  obtain ⟨hat, hll, hlr⟩ := hsub
  obtain ⟨hndT, hndc, hdisj⟩ := nodup_plug.mp hnd
  obtain ⟨hndl, hndr, hzl, hzr, hlrd⟩ := (nodup_bin (s := .left)).mp hndT
  have hmem : ∀ j, j ∈ (CTree.node cz l z r).inorder ↔ j = z ∨ j ∈ l.inorder ∨ j ∈ r.inorder :=
    fun j => mem_inorder_bin (s := .left)
  simp only [hmem] at hdisj
  simp only [mem_plug, hmem, not_or] at hy
  obtain ⟨⟨hyz, hyl, hyr⟩, hyc⟩ := hy
  have hpl : ∀ j, ptr l = .node j → j ∈ l.inorder := fun j => mem_of_ptr
  have hpr : ∀ j, ptr r = .node j → j ∈ r.inorder := fun j => mem_of_ptr
  have hlnil : ptr l ≠ .nil := fun heq => hl (ptr_eq_nil.mp heq)
  obtain ⟨hnear, hfar⟩ := h.child_above nofun
  have habove : ∀ j, j = z ∨ j ∈ l.inorder ∨ j ∈ r.inorder → above c ≠ .node j := fun j hj =>
    h.above_ne ((hmem j).mpr hj)
  have hacy : above c ≠ .node y := by
    cases c with
    | nil => exact nofun
    | cons f c =>
      intro heq
      cases heq
      exact hyc (mem_pathNodes_cons.mpr (Or.inl rfl))
  have hzabove := habove z (Or.inl rfl)
  have hrz : t.child .right (.node z) = ptr r := hat.far
  have heq : takePlace (.node y) (.node z) t =
      ((((t.setChild (holeSide c) (above c) (.node y)).setParent (ptr r) (.node y)).setParent
        (ptr l) (.node y)).copyNode (.node y) (.node z)) := by
    unfold takePlace
    rw [replaceChild_eq hat.parent hnear hfar]
    simp [Ne.symm hzabove, hat.near, hrz]
  rw [heq]
  have hzl' : ptr l ≠ .node z := fun h => hzl (hpl z h)
  have hzr' : ptr r ≠ .node z := fun h => hzr (hpr z h)
  refine ⟨rep_plug.mpr ⟨?_, ⟨⟨?_, ?_, ?_, ?_⟩, ?_, ?_⟩, ?_, by simpa using h2, by simpa using h3,
    ?_⟩, ?_⟩
  · refine hc.refill hndc ?_ ?_ fun j hj hne => ⟨?_, ?_, fun s' => ?_⟩
    · rintro rfl
      simp [above, holeSide]
    · rintro f c' rfl
      have hfy : f.id ≠ y := fun heq => hacy (by rw [← heq]; rfl)
      have hfl : ptr l ≠ .node f.id := fun heq => habove f.id (Or.inr (Or.inl (hpl _ heq))) rfl
      have hfr : ptr r ≠ .node f.id := fun heq => habove f.id (Or.inr (Or.inr (hpr _ heq))) rfl
      simp [above, holeSide, hfy, Ne.symm hfl, Ne.symm hfr]
    · have hjy : j ≠ y := fun heq => hyc (heq ▸ hj)
      simp [hjy]
    · have hjy : j ≠ y := fun heq => hyc (heq ▸ hj)
      have hjl : ptr l ≠ .node j := fun heq => hdisj j (Or.inr (Or.inl (hpl _ heq))) hj
      have hjr : ptr r ≠ .node j := fun heq => hdisj j (Or.inr (Or.inr (hpr _ heq))) hj
      simp [hjy, Ne.symm hjl, Ne.symm hjr]
    · have hjy : j ≠ y := fun heq => hyc (heq ▸ hj)
      simp [hjy, Ne.symm hne]
  · simp [hat.red]
  · simp [Ne.symm hzl', Ne.symm hzr', hat.parent]
  · simp [Ne.symm hzabove, hat.near]
  · simp [Ne.symm hzabove, hat.far]
  · refine hll.reparent hndl ?_ fun j hj hne => ?_
    · intro j hj
      have hjy : j ≠ y := fun heq => hyl (heq ▸ hpl j hj)
      have hja := habove j (Or.inr (Or.inl (hpl j hj)))
      simp [hjy, hj, Ne.symm hja]
    · have hjy : j ≠ y := fun heq => hyl (heq ▸ hj)
      have hja := habove j (Or.inr (Or.inl hj))
      have hjr : ptr r ≠ .node j := fun heq => hlrd j hj (hpr j heq)
      exact ⟨by simp [hjy], by simp [hjy, Ne.symm hne, Ne.symm hjr], fun s' => by
        simp [hjy, Ne.symm hja]⟩
  · refine hlr.reparent hndr ?_ fun j hj hne => ?_
    · intro j hj
      have hjy : j ≠ y := fun heq => hyr (heq ▸ hpr j hj)
      have hja := habove j (Or.inr (Or.inr (hpr j hj)))
      simp [hjy, hj, Ne.symm hja]
    · have hjy : j ≠ y := fun heq => hyr (heq ▸ hj)
      have hja := habove j (Or.inr (Or.inr hj))
      have hjl : ptr l ≠ .node j := fun heq => hlrd j (hpl j heq) hj
      exact ⟨by simp [hjy], by simp [hjy, Ne.symm hne, Ne.symm hjl], fun s' => by
        simp [hjy, Ne.symm hja]⟩
  · simp only [copyNode_child, setParent_child, setChild_child, not_right_of_root, if_false]
    simpa using h1
  · refine nodup_plug.mpr ⟨(nodup_bin (s := .left)).mpr ⟨hndl, hndr, hyl, hyr, hlrd⟩, hndc, ?_⟩
    intro j hj
    rcases (mem_inorder_bin (s := .left)).mp hj with rfl | hj
    · exact hyc
    · exact hdisj j (Or.inr hj)
  · simp [Ne.symm hlnil, eq_comm]

/-- The walk down one side ends at a node without a child there. -/
theorem extreme_spec : ∀ (fuel : ℕ) (S : CTree ι) (c : List (Frame ι)), Rep t (plug c S) →
    S ≠ .nil → S.height ≤ fuel →
    ∃ c₁ red i b, extreme s t fuel (ptr S) = some (.node i) ∧ S = plug c₁ (bin s red .nil i b) ∧
      ∀ f ∈ c₁, f.side = s := by
  intro fuel
  induction fuel with
  | zero =>
    intro S c _ hS hlt
    cases S with
    | nil => exact absurd rfl hS
    | node red l i r => simp [height] at hlt
  | succ fuel ih =>
    intro S c h hS hlt
    rcases CTree.exists_bin s S with rfl | ⟨red, a, i, b, rfl⟩
    · exact absurd rfl hS
    have hat := h.nodeAt
    have hlt' : a.height ≤ fuel := by
      cases s <;> simp only [bin, height] at hlt <;> omega
    rw [ptr_bin, extreme, hat.near]
    by_cases ha : a = .nil
    · subst ha
      exact ⟨[], red, i, b, rfl, rfl, fun _ hmem => absurd hmem List.not_mem_nil⟩
    · rw [if_pos fun heq => ha (ptr_eq_nil.mp heq)]
      obtain ⟨c₁, red', j, b', hrun, rfl, hside⟩ := ih a (⟨s, red, i, b⟩ :: c) h ha hlt'
      refine ⟨c₁ ++ [⟨s, red, i, b⟩], red', j, b', hrun, by rw [plug_append]; rfl, ?_⟩
      intro f hf
      rcases List.mem_append.mp hf with hf | hf
      · exact hside f hf
      · rw [List.mem_singleton.mp hf]

/-- The end of `rb_delete`: a red node was taken out, or the fixup runs. -/
theorem rbDelete_finish (h : Rep t (plug c T)) (hpar : t.parent (ptr T) = above c)
    (hpath : PathBalanced c n) (hbal : Balanced (bin s cy T y .nil) k n) (hfuel : c.length < fuel) :
    ∃ t' T' N', (if ! cy then rbDeleteFixup fuel (ptr T) t else some t) = some t' ∧ Rep t' T' ∧
      Balanced T' false N' ∧ T'.inorder = (plug c T).inorder := by
  cases cy with
  | true =>
    obtain ⟨hT, hnil⟩ := hbal.red_inv
    obtain ⟨N', hN'⟩ := Balanced.plug hpath hT nofun
    exact ⟨t, _, N', rfl, h, hN', rfl⟩
  | false =>
    obtain ⟨kT, kn, m, rfl, hT, hnil⟩ := hbal.black_inv
    have hinv : DeleteInv t c T m := by
      refine ⟨h, hpar, ?_, hpath⟩
      rw [hT.isRed]
      cases kT with
      | true => exact hT.blacken
      | false => exact hT
    have htop : t.child .left .root = ptr (plug c T) := h.path
    have hfuel' : (if T.isRed then 0 else c.length) < fuel := by split <;> omega
    exact deleteFixup_spec fuel t c T m hinv (Or.inr htop) hfuel'

/-- `node` has at most one child and is taken out itself. -/
theorem rbDelete_direct (h : Rep t (plug c (.node cz l z r)))
    (hbal : Balanced (plug c (.node cz l z r)) false N) (hlr : l = .nil ∨ r = .nil)
    (hfuel : c.length < fuel) :
    ∃ t' T' N', rbDelete fuel (.node z) t = some t' ∧ Rep t' T' ∧ Balanced T' false N' ∧
      T'.inorder = before c ++ (l.inorder ++ r.inorder ++ after c) := by
  have hat : NodeAt t .left z cz (above c) (ptr l) (ptr r) := Rep.nodeAt (s := .left) h
  have hnear : t.child .left (.node z) = ptr l := hat.near
  have hfar : t.child .right (.node z) = ptr r := hat.far
  have hy : spliceNode fuel (.node z) t = some (.node z) := by
    unfold spliceNode
    rw [hnear, hfar, if_pos (hlr.imp ptr_eq_nil.mpr ptr_eq_nil.mpr)]
  -- the one child, and the side it is on
  obtain ⟨s, X, hX, hbin, hord⟩ : ∃ s X, (if ptr l ≠ .nil then ptr l else ptr r) = ptr X ∧
      CTree.node cz l z r = bin s cz X z .nil ∧ X.inorder = l.inorder ++ r.inorder := by
    by_cases hl : l = .nil
    · subst hl
      exact ⟨.right, r, by simp, rfl, rfl⟩
    · have hr := hlr.resolve_left hl
      subst hr
      exact ⟨.left, l, by simp [ptr_eq_nil, hl], rfl, by simp⟩
  rw [hbin] at h hbal
  obtain ⟨hrep, hpar, hred⟩ := splice_spec h
  obtain ⟨k, n, hpath, hsub, -⟩ := hbal.unplug
  obtain ⟨t', T', N', hrun, hrep', hbal', hord'⟩ := rbDelete_finish hrep hpar hpath hsub hfuel
  refine ⟨t', T', N', ?_, hrep', hbal', by rw [hord', inorder_plug, hord]⟩
  unfold rbDelete
  simp only [hy, Option.bind_eq_bind, Option.bind_some, hnear, hfar, hX, hat.parent]
  simp only [ne_eq, reduceCtorEq, not_false_eq_true, and_self, if_true, not_true_eq_false,
    if_false, hred, hat.red]
  exact hrun

/-- `node` has two children: its successor is taken out and takes over its place. -/
theorem rbDelete_successor (h : Rep t (plug c (.node cz l z r)))
    (hbal : Balanced (plug c (.node cz l z r)) false N) (hl : l ≠ .nil) (hr : r ≠ .nil)
    (hfuel : (plug c (.node cz l z r)).height ≤ fuel) :
    ∃ t' T' N', rbDelete fuel (.node z) t = some t' ∧ Rep t' T' ∧ Balanced T' false N' ∧
      T'.inorder = before c ++ (l.inorder ++ r.inorder ++ after c) := by
  have hat : NodeAt t .left z cz (above c) (ptr l) (ptr r) := Rep.nodeAt (s := .left) h
  have hnear : t.child .left (.node z) = ptr l := hat.near
  have hfar : t.child .right (.node z) = ptr r := hat.far
  have hheight := length_le_height c (CTree.node cz l z r)
  simp only [height] at hheight
  obtain ⟨c₁, cy, y, b, hext, rfl, hside⟩ := extreme_spec (s := .left) fuel r
    (⟨.right, cz, z, l⟩ :: c) h hr (by omega)
  have hy : spliceNode fuel (.node z) t = some (.node y) := by
    unfold spliceNode rbTreeSuccessor
    rw [hnear, hfar, if_neg (by simp only [ptr_eq_nil, hl, hr, or_self, not_false_eq_true]),
      if_pos fun heq => hr (ptr_eq_nil.mp heq)]
    exact hext
  -- the whole tree, seen from the successor
  have hT : plug c (.node cz l z (plug c₁ (bin .left cy .nil y b))) =
      plug (c₁ ++ ⟨.right, cz, z, l⟩ :: c) (bin .right cy b y .nil) := by
    rw [plug_append]
    rfl
  have hT₁ : plug (c₁ ++ ⟨.right, cz, z, l⟩ :: c) b = plug c (.node cz l z (plug c₁ b)) := by
    rw [plug_append]
    rfl
  rw [hT] at h hbal hfuel
  obtain ⟨hsubnd, -, hdisj⟩ := nodup_plug.mp h.nodup
  obtain ⟨-, -, hyb, -, -⟩ := nodup_bin.mp hsubnd
  have hynew : y ∉ (plug c (.node cz l z (plug c₁ b))).inorder := by
    rw [← hT₁, mem_plug]
    exact not_or.mpr ⟨hyb, hdisj y (mem_inorder_bin.mpr (Or.inl rfl))⟩
  have hyz : y ≠ z := by
    intro heq
    exact hynew (mem_plug.mpr (Or.inl (by simp [heq])))
  have haty := h.nodeAt
  obtain ⟨hrep, hpar, hred⟩ := splice_spec h
  rw [hT₁] at hrep
  obtain ⟨hrep₂, hnil₂⟩ := takePlace_spec hrep hl hynew
  have hT₂ : plug (c₁ ++ ⟨.right, cz, y, l⟩ :: c) b = plug c (.node cz l y (plug c₁ b)) := by
    rw [plug_append]
    rfl
  rw [← hT₂] at hrep₂
  obtain ⟨k, n, hpath, hsub, -⟩ := hbal.unplug
  have hlen := length_le_height (c₁ ++ ⟨.right, cz, z, l⟩ :: c) (bin .right cy b y .nil)
  simp only [List.length_append, List.length_cons, bin, height] at hlen hfuel
  have hpar₂ := hrep₂.parent_hole (by
    -- `nil->parent` was set by the splice, or by `z->right->parent = y`
    by_cases hb : b = .nil
    · subst hb
      left
      cases c₁ with
      | nil => exact hnil₂
      | cons f c₁ =>
        obtain ⟨i, -, hi⟩ := exists_ptr_plug f c₁ (CTree.nil : CTree ι)
        rw [hnil₂, hi, if_neg (by simp)]
        exact hpar
    · exact Or.inr hb)
  obtain ⟨t', T', N', hrun, hrep', hbal', hord'⟩ := rbDelete_finish hrep₂ hpar₂
    hpath.append_id hsub
    (show List.length _ < fuel by simp only [List.length_append, List.length_cons]; omega)
  refine ⟨t', T', N', ?_, hrep', hbal', ?_⟩
  · have hyl : t.child .left (.node y) = .nil := haty.far
    have hyr : t.child .right (.node y) = ptr b := haty.near
    unfold rbDelete
    simp only [hy, Option.bind_eq_bind, Option.bind_some, hyl, hyr, haty.parent]
    simp only [ne_eq, reduceCtorEq, not_false_eq_true, and_self, if_true, not_true_eq_false,
      if_false, hred, haty.red, RbPtr.node.injEq, hyz]
    exact hrun
  · rw [hord', hT₂, inorder_plug, inorder_node, inorder_plug, inorder_plug, before_eq_nil hside]
    simp [bin]

/-- **`rb_delete`** of a node of a red-black tree: the assertion holds, the result is a red-black
tree, and exactly the node passed is gone. -/
theorem rbDelete_spec (h : Rep t T) (hbal : Balanced T false N) (hz : z ∈ T.inorder)
    (hfuel : T.height ≤ fuel) :
    ∃ t' T' N' L R, rbDelete fuel (.node z) t = some t' ∧ Rep t' T' ∧ Balanced T' false N' ∧
      T.inorder = L ++ z :: R ∧ T'.inorder = L ++ R := by
  obtain ⟨c, cz, l, r, rfl⟩ := exists_plug_of_mem hz
  have hlen := length_le_height c (CTree.node cz l z r)
  simp only [height] at hlen
  have hrun : ∃ t' T' N', rbDelete fuel (.node z) t = some t' ∧ Rep t' T' ∧
      Balanced T' false N' ∧ T'.inorder = before c ++ (l.inorder ++ r.inorder ++ after c) := by
    by_cases hlr : l = .nil ∨ r = .nil
    · exact rbDelete_direct h hbal hlr (by omega)
    · rw [not_or] at hlr
      exact rbDelete_successor h hbal hlr.1 hlr.2 hfuel
  obtain ⟨t', T', N', hrun, hrep, hbal', hord⟩ := hrun
  refine ⟨t', T', N', before c ++ l.inorder, r.inorder ++ after c, hrun, hrep, hbal', ?_, ?_⟩
  · rw [inorder_plug, inorder_node]
    simp
  · rw [hord]
    simp

end Splice

end RbTree

end Ucore
