import Ucore.Rb.Rep

/-!
# Insertion

`rb_insert` puts the node where the binary search ends, as a red leaf, and repairs the colours
upwards.  `InsertInv` is the invariant of the repair: the tree is red-black but for the node `x`,
which is red and may have a red parent.

Principal result: `rbInsert_spec` — with fuel for the height of the tree no assertion fails, the
tree is red-black again, and the new node stands behind all nodes that do not compare greater.
-/

namespace Ucore

open RedBlack CTree

namespace RbTree

variable {ι : Type} [DecidableEq ι] {t : RbTree ι} {c : List (Frame ι)} {f g : Frame ι}
  {T : CTree ι} {n : ℕ}

/-- The state of the loop of `rb_insert`: `x` is the root of `T`. -/
structure InsertInv (t : RbTree ι) (c : List (Frame ι)) (T : CTree ι) (n : ℕ) : Prop where
  rep : Rep t (plug c T)
  hole : Balanced T true n
  path : PathBalanced c n

section Fixup

variable {a b : CTree ι} {s : Side} {p i : ι} {F G : CTree ι} {cg : Bool}

/-- The uncle is red: the colours move up and `x` becomes the grandparent. -/
theorem insertSub_red {y : ι} {sy sf : Side} (h : Rep t (plug
      (⟨sf, true, p, F⟩ :: ⟨s, false, i, bin sy true a y b⟩ :: c) T)) (hT : T ≠ .nil) :
    ∃ t', insertSub s (ptr T) t = some (.node i, t') ∧
      Rep t' (plug c (bin s true (bin sf false T p F) i (bin sy false a y b))) := by
  have hf := h.frameAt
  have hg := Rep.frameAt (T := bin sf true T p F) h
  have hpar : t.parent (ptr T) = .node p := h.parent_ptr hT
  have hgp : t.parent (.node p) = .node i := hf.parent
  have hy : t.child s.flip (.node i) = .node y := by
    rw [hg.far, ptr_bin]
  have hyred : t.red (.node y) = true := by
    have := Rep.red_sib (T := bin sf true T p F) h
    simpa using this
  unfold insertSub
  simp only [hpar, hgp, hy, hyred, if_true, setRed_parent]
  refine ⟨_, rfl, ?_⟩
  have h1 := h.setRedFrame false
  have h2 := Rep.setRedSib (T := bin sf false T p F) h1 false
  exact Rep.setRed (c := c) (s := s) h2 true

/-- The uncle is black and `x` is an inner grandchild: a rotation makes it an outer one. -/
theorem insertSub_turn {sf : Side} (hsf : sf = s.flip) {x : ι}
    (h : Rep t (plug (⟨sf, true, p, F⟩ :: ⟨s, false, i, G⟩ :: c) (bin s true a x b))) :
    ∃ t', rotate s (.node p) t = some t' ∧
      Rep t' (plug (⟨s, true, x, b⟩ :: ⟨s, false, i, G⟩ :: c) (bin s true F p a)) := by
  subst hsf
  rw [plug_cons, bin_flip] at h
  obtain ⟨t', hrot, hrep, -, -⟩ := rotate_spec h
  exact ⟨t', hrot, hrep⟩

/-- The uncle is black and `x` is an outer grandchild: the parent takes the grandparent's place. -/
theorem insertSub_outer (h : Rep t (plug (⟨s, true, p, F⟩ :: ⟨s, false, i, G⟩ :: c) T)) :
    ∃ t', rotate s.flip (.node i) ((t.setRed (.node p) false).setRed (.node i) true) = some t' ∧
      Rep t' (plug (⟨s, false, p, bin s true F i G⟩ :: c) T) := by
  have h1 := h.setRedFrame false
  have h2 := Rep.setRedFrame (T := bin s false T p F) h1 true
  rw [plug_cons, ← bin_flip, ← bin_flip s false] at h2
  obtain ⟨t', hrot, hrep, -, -⟩ := rotate_spec h2
  refine ⟨t', hrot, ?_⟩
  rwa [bin_flip, bin_flip] at hrep

/-- The uncle is black. -/
theorem insertSub_black {sf : Side} {x : ι}
    (h : Rep t (plug (⟨sf, true, p, F⟩ :: ⟨s, false, i, G⟩ :: c) (bin s true a x b)))
    (hG : G.isRed = false) :
    ∃ t', (sf = s ∧ insertSub s (.node x) t = some (.node x, t') ∧
        Rep t' (plug (⟨s, false, p, bin s true F i G⟩ :: c) (bin s true a x b))) ∨
      (sf = s.flip ∧ insertSub s (.node x) t = some (.node p, t') ∧
        Rep t' (plug (⟨s, false, x, bin s true b i G⟩ :: c) (bin s true F p a))) := by
  have hf := h.frameAt
  have hpar : t.parent (.node x) = .node p := h.nodeAt.parent
  have hgp : t.parent (.node p) = .node i := hf.parent
  have hy : t.child s.flip (.node i) = ptr G :=
    (Rep.frameAt (T := bin sf true (bin s true a x b) p F) h).far
  have hyred : t.red (ptr G) = false :=
    (Rep.red_sib (T := bin sf true (bin s true a x b) p F) h).trans hG
  have hchild := h.child_above (bin_ne_nil _ _ _ _ _)
  simp only [above, holeSide, ptr_bin] at hchild
  unfold insertSub
  simp only [hpar, hgp, hy, hyred]
  rcases Side.eq_or_flip s sf with rfl | hsf
  · obtain ⟨t', hrot, hrep⟩ := insertSub_outer h
    refine ⟨t', Or.inl ⟨rfl, ?_, hrep⟩⟩
    simp [Ne.symm hchild.2, hpar, hgp, hrot]
  · obtain ⟨t₁, hturn, hrep₁⟩ := insertSub_turn hsf h
    obtain ⟨t', hrot, hrep⟩ := insertSub_outer hrep₁
    refine ⟨t', Or.inr ⟨hsf, ?_, hrep⟩⟩
    have hx : RbPtr.node x = t.child s.flip (.node p) := by rw [← hsf]; exact hchild.1.symm
    have hpar₁ : t₁.parent (.node p) = .node x := hrep₁.nodeAt.parent
    have hgp₁ : t₁.parent (.node x) = .node i := hrep₁.frameAt.parent
    simp [← hx, hturn, hpar₁, hgp₁, hrot]

/-- One round of the loop: the hole moves up, or the tree is repaired. -/
theorem insertSub_spec (h : InsertInv t (f :: g :: c) T n) (hf : f.red = true) :
    ∃ t' c' T' n', insertSub g.side (ptr T) t = some (ptr T', t') ∧ InsertInv t' c' T' n' ∧
      c'.length < c.length + 2 ∧
      (plug c' T').inorder = (plug (f :: g :: c) T).inorder := by
  obtain ⟨sf, cf, p, F⟩ := f
  obtain ⟨s, cg, i, G⟩ := g
  obtain ⟨hrep, hT, ⟨⟨kF, hF, hFred⟩, ⟨kG, hG, -⟩, hc⟩⟩ := h
  simp only at hf hF hFred hG hc ⊢
  subst hf
  obtain ⟨rfl, hgb⟩ := hFred rfl
  have hgb : cg = false := hgb
  subst hgb
  simp only [blackCount, if_true, Nat.add_zero] at hG hc
  cases kG with
  | true =>
    -- the uncle is red
    obtain ⟨a, y, b, rfl⟩ := hG.exists_bin_of_red s
    obtain ⟨ha, hb⟩ := hG.red_inv
    obtain ⟨t', hsub, hrep'⟩ := insertSub_red hrep hT.ne_nil
    refine ⟨t', c, _, n + 1, by rw [hsub, ptr_bin], ⟨hrep', ?_, hc⟩, by omega, ?_⟩
    · exact (hT.binBlack hF).binRed (ha.binBlack hb)
    · exact inorder_plug_congr c (inorder_bin_congr s _ _ i (inorder_bin_red sf _ _ _ _ _)
        (inorder_bin_red s _ _ _ _ _))
  | false =>
    obtain ⟨a, x, b, rfl⟩ := hT.exists_bin_of_red s
    obtain ⟨ha, hb⟩ := hT.red_inv
    obtain ⟨t', ⟨rfl, hsub, hrep'⟩ | ⟨rfl, hsub, hrep'⟩⟩ := insertSub_black hrep hG.isRed
    · refine ⟨t', _, _, n, by simpa only [ptr_bin] using hsub, ⟨hrep', hT, ⟨⟨_, hF.binRed hG, ?_⟩, hc⟩⟩,
        by simp, ?_⟩
      · intro heq
        cases heq
      · rw [plug_cons, plug_cons, plug_cons]
        refine inorder_plug_congr c ?_
        cases sf <;> simp [bin]
    · refine ⟨t', _, _, n, by simpa only [ptr_bin] using hsub,
        ⟨hrep', hF.binRed ha, ⟨⟨_, hb.binRed hG, ?_⟩, hc⟩⟩, by simp, ?_⟩
      · intro heq
        cases heq
      · rw [plug_cons, plug_cons, plug_cons]
        refine inorder_plug_congr c ?_
        cases s <;> simp [bin, Side.flip]

/-- The loop of `rb_insert` ends with a black parent, or at the top. -/
theorem insertFixup_spec : ∀ (fuel : ℕ) (t : RbTree ι) (c : List (Frame ι)) (T : CTree ι) (n : ℕ),
    InsertInv t c T n → c.length < fuel →
    ∃ t' c' T' n', insertFixup fuel (ptr T) t = some t' ∧ InsertInv t' c' T' n' ∧
      (c' = [] ∨ HeadBlack c') ∧ (plug c' T').inorder = (plug c T).inorder := by
  intro fuel
  induction fuel with
  | zero => intro t c T n _ hlt; omega
  | succ fuel ih =>
    intro t c T n h hlt
    have hpar : t.parent (ptr T) = above c := h.rep.parent_ptr h.hole.ne_nil
    unfold insertFixup
    rw [hpar]
    cases c with
    | nil =>
      have : t.red (above ([] : List (Frame ι))) = false := h.rep.rootBlack
      rw [this]
      exact ⟨t, [], T, n, rfl, h, Or.inl rfl, rfl⟩
    | cons f c =>
      have hred : t.red (above (f :: c)) = f.red := h.rep.frameAt.red
      rw [hred]
      cases hf : f.red with
      | false => exact ⟨t, f :: c, T, n, rfl, h, Or.inr hf, rfl⟩
      | true =>
        -- a red frame has a black one above it
        have hhead : HeadBlack c := by
          obtain ⟨⟨k, _, hk⟩, _⟩ := h.path
          exact (hk hf).2
        cases c with
        | nil => exact hhead.elim
        | cons g c =>
          obtain ⟨t₁, c₁, T₁, n₁, hsub, hinv, hlen, hord⟩ := insertSub_spec h hf
          have hside := Rep.ptr_eq_left (T := bin f.side f.red T f.id f.sib) (f := g) (c := c)
            h.rep (Or.inl (bin_ne_nil _ _ _ _ _))
          have hgp : t.parent (above (f :: g :: c)) = above (g :: c) := h.rep.frameAt.parent
          rw [ptr_bin] at hside
          simp only [List.length_cons] at hlt
          obtain ⟨t', c', T', n', hrun, hinv', hc', hord'⟩ := ih t₁ c₁ T₁ n₁ hinv (by omega)
          refine ⟨t', c', T', n', ?_, hinv', hc', hord'.trans hord⟩
          rw [hgp]
          show (if true = true then (insertSub (if RbPtr.node f.id = _ then _ else _) _ _).bind _
            else _) = _
          rw [if_pos rfl, hside, hsub]
          exact hrun

end Fixup

/-! ## The binary search -/

section Search

variable {compare : ι → ι → Int} {z : ι}

/-- Where the search ends: the nodes before the hole do not compare greater than `z`, those behind
it do. -/
structure SearchPath (compare : ι → ι → Int) (z : ι) (c : List (Frame ι)) : Prop where
  before : ∀ j ∈ before c, ¬ compare j z > 0
  after : ∀ j ∈ after c, compare j z > 0

omit [DecidableEq ι] in
theorem insertPos_spec : ∀ (fuel : ℕ) (S : CTree ι) (c : List (Frame ι)), Rep t (plug c S) →
    (plug c S).inorder.Pairwise (fun i j => compare i z > 0 → compare j z > 0) →
    SearchPath compare z c → S.height < fuel →
    ∃ c', insertPos compare z t fuel (above c) (ptr S) = some (above c') ∧
      plug c' .nil = plug c S ∧ SearchPath compare z c' := by
  intro fuel
  induction fuel with
  | zero => intro S c _ _ _ hlt; omega
  | succ fuel ih =>
    intro S c h hmono hc hlt
    cases S with
    | nil => exact ⟨c, rfl, rfl, hc⟩
    | node red l i r =>
      simp only [height] at hlt
      have hord := hmono
      rw [inorder_plug, List.pairwise_append, List.pairwise_append, inorder_node,
        List.pairwise_append, List.pairwise_cons] at hord
      obtain ⟨-, ⟨⟨-, ⟨hr, -⟩, hl⟩, -, -⟩, -⟩ := hord
      have hat : NodeAt t .left i red _ (ptr l) (ptr r) := Rep.nodeAt (s := .left) h
      show ∃ c', insertPos compare z t fuel (.node i)
        (t.child (if compare i z > 0 then .left else .right) (.node i)) = _ ∧ _
      by_cases hgt : compare i z > 0
      · rw [if_pos hgt, hat.near]
        refine ih l (⟨.left, red, i, r⟩ :: c) h hmono ⟨hc.before, ?_⟩ (by omega)
        intro j hj
        simp only [RedBlack.after, List.cons_append, List.mem_cons, List.mem_append] at hj
        rcases hj with rfl | hj | hj
        · exact hgt
        · exact hr j hj hgt
        · exact hc.after j hj
      · rw [if_neg hgt]
        rw [show t.child .right (.node i) = ptr r from hat.far]
        refine ih r (⟨.right, red, i, l⟩ :: c) h hmono ⟨?_, hc.after⟩ (by omega)
        intro j hj
        simp only [RedBlack.before, List.mem_append, List.mem_singleton] at hj
        rcases hj with hj | hj | rfl
        · exact hc.before j hj
        · exact fun hj' => hgt (hl j hj i (by simp) hj')
        · exact hgt

omit [DecidableEq ι] in
/-- At the end of the search the source finds the side again by comparing once more. -/
theorem goesLeft_spec {c : List (Frame ι)} (h : SearchPath compare z c) :
    ∃ left, goesLeft compare z (above c) = some left ∧
      (if left then Side.left else Side.right) = holeSide c := by
  cases c with
  | nil => exact ⟨true, rfl, rfl⟩
  | cons f c =>
    refine ⟨_, rfl, ?_⟩
    cases hs : f.side with
    | left =>
      have : compare f.id z > 0 := h.after _ (by simp [after, hs])
      simp [holeSide, hs, this]
    | right =>
      have : ¬ compare f.id z > 0 := h.before _ (by simp [before, hs])
      simp [holeSide, hs] at this ⊢
      omega

/-- `rb_insert_binary` puts the node into the hole where the search ends; its colour is still
whatever its memory held. -/
theorem rbInsertBinary_spec {fuel : ℕ} (h : Rep t T) (hz : z ∉ T.inorder)
    (hmono : T.inorder.Pairwise fun i j => compare i z > 0 → compare j z > 0)
    (hfuel : T.height < fuel) :
    ∃ t' c, rbInsertBinary compare fuel z t = some t' ∧ T = plug c .nil ∧
      SearchPath compare z c ∧
      Rep t' (plug c (bin .left (t.red (.node z)) .nil z .nil)) := by
  -- the children of the new node are cleared first
  set t₀ := (t.setChild .right (.node z) .nil).setChild .left (.node z) .nil with ht₀
  have hsame : ∀ j, j ≠ z → SameNode t t₀ j := fun j hj =>
    ⟨rfl, rfl, fun s => by simp [ht₀, hj]⟩
  have h₀ : Rep t₀ T := by
    refine ⟨?_, h.linked.of_same fun j hj => hsame j fun heq => hz (heq ▸ hj), ?_, h.rootBlack,
      h.nilBlack, h.nodup⟩
    · have htop : t.child .left .root = ptr T := h.path
      show t₀.child .left .root = ptr T
      simpa [ht₀] using htop
    · simpa [ht₀] using h.rootRight
  obtain ⟨c, hpos, hc, hsearch⟩ := insertPos_spec (t := t₀) fuel T [] h₀ hmono
    ⟨nofun, nofun⟩ hfuel
  simp only [plug_nil] at hc
  obtain ⟨left, hleft, hside⟩ := goesLeft_spec hsearch
  subst hc
  obtain ⟨hpath, -, h1, h2, h3, hnd⟩ := rep_plug.mp h₀
  have hzc : z ∉ pathNodes c := fun hmem => hz (mem_plug.mpr (Or.inr hmem))
  have hac : above c ≠ .node z := by
    cases c with
    | nil => exact nofun
    | cons f c =>
      intro heq
      cases heq
      exact hzc (mem_pathNodes_cons.mpr (Or.inl rfl))
  refine ⟨(t₀.setParent (.node z) (above c)).setChild (holeSide c) (above c) (.node z), c, ?_,
    rfl, hsearch, rep_plug.mpr ⟨?_, linked_bin.mpr ⟨⟨rfl, ?_, ?_, ?_⟩, trivial, trivial⟩, ?_, h2,
    h3, ?_⟩⟩
  · unfold rbInsertBinary
    simp only [← ht₀]
    have htop : t₀.child .left .root = ptr (plug c .nil) := h₀.path
    have hpos' : insertPos compare z t₀ fuel .root (ptr (plug c .nil)) = some (above c) := hpos
    simp only [htop, hpos', hleft, Option.bind_eq_bind, Option.bind_some, hside]
    rfl
  · rw [ptr_bin]
    refine hpath.refill (nodup_plug.mp hnd).2.1 ?_ ?_ fun j hj hne => ⟨rfl, ?_, fun s => ?_⟩
    · rintro rfl
      simp [above, holeSide]
    · rintro f c' rfl
      have hfz : f.id ≠ z := fun heq => hac (by rw [← heq]; rfl)
      simp [above, holeSide, hfz]
    · have : j ≠ z := fun heq => hzc (heq ▸ hj)
      simp [this]
    · simp [Ne.symm hne]
  · simp
  · simp [Ne.symm hac, ht₀]
  · simp [Ne.symm hac, ht₀, Side.flip]
  · simp only [setChild_child, not_right_of_root, if_false]
    exact h1
  · refine nodup_plug.mpr ⟨by simp [bin], (nodup_plug.mp hnd).2.1, ?_⟩
    intro j hj
    have : j = z := by simpa [bin] using hj
    exact this ▸ hzc

end Search

/-- Blackening the root of the tree. -/
theorem Rep.blacken (h : Rep t T) (hT : T ≠ .nil) :
    Rep (t.setRed (t.child .left .root) false) T.blacken := by
  have htop : t.child .left .root = ptr T := h.path
  rw [htop]
  cases T with
  | nil => exact absurd rfl hT
  | node red l i r => exact Rep.setRed (c := []) (s := .left) h false

/-- **`rb_insert`** into a red-black tree: the assertions hold, the result is a red-black tree, and
the new node stands behind the nodes that do not compare greater and before those that do. -/
theorem rbInsert_spec {compare : ι → ι → Int} {z : ι} {fuel N : ℕ} (h : Rep t T)
    (hbal : Balanced T false N) (hz : z ∉ T.inorder)
    (hmono : T.inorder.Pairwise fun i j => compare i z > 0 → compare j z > 0)
    (hfuel : T.height < fuel) :
    ∃ t' T' N' L R, rbInsert compare fuel z t = some t' ∧ Rep t' T' ∧ Balanced T' false N' ∧
      T.inorder = L ++ R ∧ T'.inorder = L ++ z :: R ∧ (∀ j ∈ L, ¬ compare j z > 0) ∧
      ∀ j ∈ R, compare j z > 0 := by
  obtain ⟨t₁, c, hbin, rfl, hsearch, hrep₁⟩ := rbInsertBinary_spec h hz hmono hfuel
  obtain ⟨k, n, hpath, hnil, -⟩ := hbal.unplug
  cases hnil
  have hinv : InsertInv (t₁.setRed (.node z) true) c (bin .left true .nil z .nil) 0 :=
    ⟨hrep₁.setRed true, Balanced.nil.binRed Balanced.nil, hpath⟩
  have hlen : c.length < fuel := by
    have := length_le_height c (CTree.nil : CTree ι)
    simp only [height] at this
    omega
  obtain ⟨t₂, c₂, T₂, n₂, hfix, hinv₂, hstop, hord⟩ := insertFixup_spec fuel _ _ _ _ hinv hlen
  have hne : plug c₂ T₂ ≠ .nil := by
    intro heq
    rw [heq, inorder_plug] at hord
    simp [bin] at hord
  have hblack := hinv₂.rep.blacken hne
  -- the tree is balanced as it is, or it is the red node itself
  have hbal₂ : ∃ N', Balanced (plug c₂ T₂).blacken false N' := by
    rcases hstop with rfl | hhead
    · exact ⟨_, hinv₂.hole.blacken⟩
    · obtain ⟨N', hN'⟩ := Balanced.plug hinv₂.path hinv₂.hole fun _ => hhead
      refine ⟨N', ?_⟩
      cases hT : plug c₂ T₂ with
      | nil => exact absurd hT hne
      | node red l i r =>
        rw [hT] at hN'
        cases hN' with
        | black hl hr => exact .black hl hr
  obtain ⟨N', hN'⟩ := hbal₂
  refine ⟨_, _, N', before c, after c, ?_, hblack, hN', ?_, ?_, hsearch.before, hsearch.after⟩
  · have hguard := And.intro hblack.nilBlack hblack.rootBlack
    rw [ptr_bin] at hfix
    simp only [rbInsert, hbin, hfix, Option.bind_eq_bind, Option.bind_some, hguard.1, hguard.2]
    simp
  · rw [inorder_plug]; rfl
  · rw [inorder_blacken, hord, inorder_plug]
    rfl

end RbTree

end Ucore
