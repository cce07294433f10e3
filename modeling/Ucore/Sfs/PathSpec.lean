import Mathlib.Order.Interval.Finset.Nat
import Ucore.Sfs.Act
import Ucore.Sfs.Path

/-!
# Paths and the tree

* `lookupNext_eq` — the loop of `sfs_lookup` is the loop of `sfs_lookup_parent` and a look for the last
  component;
* `Resolves` — one component after the other;
* `lookup_lookupParent` — the two agree, and resolve the path.
-/

namespace Ucore.Sfs

open Sfs.Tree

/-! ## The two loops -/

section Loops

variable {path subpath : Name} {node : ℕ}

theorem lookupNext_none (h : lookupSubpath path = none) : lookupNext node path =
    if pathComp path = DOT then pure node else lookupComp node (pathComp path) := by
  rw [lookupNext]
  split
  · rfl
  · rename_i hs
    rw [h] at hs
    cases hs

theorem lookupNext_some (h : lookupSubpath path = some subpath) : lookupNext node path =
    if pathComp path = DOT then lookupNext node subpath
    else lookupComp node (pathComp path) >>= fun subnode =>
      checkDir subnode >>= fun _ => lookupNext subnode subpath := by
  rw [lookupNext]
  split
  · rename_i hs
    rw [h] at hs
    cases hs
  · rename_i hs
    rw [h] at hs
    cases hs
    rfl

theorem lookupParentNext_none (h : lookupSubpath path = none) :
    lookupParentNext node path = pure (node, pathComp path) := by
  rw [lookupParentNext]
  split
  · rfl
  · rename_i hs
    rw [h] at hs
    cases hs

theorem lookupParentNext_some (h : lookupSubpath path = some subpath) : lookupParentNext node path =
    if pathComp path = DOT then lookupParentNext node subpath
    else lookupComp node (pathComp path) >>= fun subnode =>
      checkDir subnode >>= fun _ => lookupParentNext subnode subpath := by
  rw [lookupParentNext]
  split
  · rename_i hs
    rw [h] at hs
    cases hs
  · rename_i hs
    rw [h] at hs
    cases hs
    rfl

theorem pathRest_head (path : Name) : (pathRest path).val.head? ≠ some SLASH := by
  intro h
  have hhead := List.head?_dropWhile_not (· = SLASH) (path.val.dropWhile (· ≠ SLASH))
  unfold pathRest at h
  dsimp only at h
  rw [h] at hhead
  simp at hhead

theorem lookupSubpath_some (h : lookupSubpath path = some subpath) :
    subpath = pathRest path ∧ subpath ≠ noName ∧ subpath.val.head? ≠ some SLASH := by
  unfold lookupSubpath at h
  split at h
  · cases h
  · rename_i hne
    cases h
    exact ⟨rfl, hne, pathRest_head path⟩

theorem lookupSubpath_none (h : lookupSubpath path = none) : pathRest path = noName := by
  unfold lookupSubpath at h
  split at h
  · assumption
  · cases h

/-- A relative path whose last component is a name. -/
structure Relative (path : Name) : Prop where
  nonempty : path ≠ noName
  head : path.val.head? ≠ some SLASH
  last : ∀ c ∈ (components path).getLast?, c ≠ DOT.val ∧ c ≠ DOTDOT.val ∧ c.length ≤ SFS_MAX_FNAME_LEN

theorem Relative.sub (h : Relative path) (hsub : lookupSubpath path = some subpath) :
    Relative subpath ∧ components path = (pathComp path).val :: components subpath := by
  obtain ⟨rfl, hne, hhead⟩ := lookupSubpath_some hsub
  have hcomp := components_eq h.nonempty h.head
  refine ⟨⟨hne, hhead, fun c hc => h.last c ?_⟩, hcomp⟩
  rw [hcomp, components_eq hne hhead, List.getLast?_cons_cons, ← components_eq hne hhead]
  exact hc

/-- The component is the last one. -/
theorem Relative.comp (h : Relative path) (hsub : lookupSubpath path = none) :
    components path = [(pathComp path).val] ∧ pathComp path ≠ DOT ∧ pathComp path ≠ DOTDOT ∧
      strlen (pathComp path) ≤ SFS_MAX_FNAME_LEN := by
  have hcomp := components_eq h.nonempty h.head
  rw [lookupSubpath_none hsub, components_noName] at hcomp
  obtain ⟨hdot, hdotdot, hlen⟩ := h.last (pathComp path).val (by rw [hcomp]; rfl)
  exact ⟨hcomp, fun he => hdot (congrArg Subtype.val he), fun he => hdotdot (congrArg Subtype.val he), hlen⟩

theorem lookupComp_name {comp : Name} (hdotdot : comp ≠ DOTDOT) (hlen : strlen comp ≤ SFS_MAX_FNAME_LEN) :
    lookupComp node comp = lookupLast node comp := by
  unfold lookupComp lookupLast
  rw [if_neg hdotdot, if_neg (Nat.not_lt.mpr hlen)]

/-- The induction is on the components that the loops take off. -/
theorem lookupNext_eq : ∀ (n : ℕ) (path : Name) (node : ℕ), strlen path ≤ n → Relative path →
    lookupNext node path = lookupParentNext node path >>= fun p => lookupLast p.1 p.2 := by
  intro n
  induction n with
  | zero =>
    intro path node hn h
    exact absurd (Subtype.ext (List.eq_nil_of_length_eq_zero (Nat.le_zero.mp hn))) h.nonempty
  | succ n ih =>
    intro path node hn h
    cases hsub : lookupSubpath path with
    | none =>
      obtain ⟨-, hdot, hdotdot, hlen⟩ := h.comp hsub
      rw [lookupNext_none hsub, lookupParentNext_none hsub, if_neg hdot, lookupComp_name hdotdot hlen]
      rfl
    | some subpath =>
      have hlt := lookupSubpath_lt hsub
      have hnext : ∀ node, lookupNext node subpath =
          lookupParentNext node subpath >>= fun p => lookupLast p.1 p.2 := fun node =>
        ih subpath node (by omega) (h.sub hsub).1
      rw [lookupNext_some hsub, lookupParentNext_some hsub]
      split
      · exact hnext node
      · rw [Op.bind_assoc]
        congr 1
        funext subnode
        rw [Op.bind_assoc, hnext]

theorem sfsLookup_eq (h : Relative path) (node : ℕ) :
    sfsLookup node path = sfsLookupParent node path >>= fun p => lookupLast p.1 p.2 := by
  unfold sfsLookup sfsLookupParent
  simp only [Op.bind_assoc, lookupNext_eq _ path _ le_rfl h]

end Loops

/-! ## What a path leads to -/

/-- What one component leads to. -/
inductive Step (t : Tree) (d : ℕ) (c : List UInt8) : Except Err ℕ → Prop where
  | notDir {n : Node} (hd : t d = some n) (htype : n.type ≠ SFS_TYPE_DIR) : Step t d c (.error .notDir)
  | dot (hd : t.isDir d) (hc : c = DOT.val) : Step t d c (.ok d)
  | dotdot {n : Node} (hd : t d = some n) (htype : n.type = SFS_TYPE_DIR) (hc : c = DOTDOT.val) :
    Step t d c (.ok n.parent)
  | tooBig (hd : t.isDir d) (hdot : c ≠ DOT.val) (hdotdot : c ≠ DOTDOT.val)
    (hlen : SFS_MAX_FNAME_LEN < c.length) : Step t d c (.error .tooBig)
  | entry {j i : ℕ} {nm : Name} (hd : t.isDir d) (hdot : c ≠ DOT.val) (hdotdot : c ≠ DOTDOT.val)
    (hlen : c.length ≤ SFS_MAX_FNAME_LEN) (he : t.ent (d, j) = some (i, nm)) (hc : nm.val = c) :
    Step t d c (.ok i)
  | noEnt (hd : t.isDir d) (hdot : c ≠ DOT.val) (hdotdot : c ≠ DOTDOT.val)
    (hlen : c.length ≤ SFS_MAX_FNAME_LEN) (hno : ∀ j i nm, t.ent (d, j) = some (i, nm) → nm.val ≠ c) :
    Step t d c (.error .noEnt)

/-- What the components lead to, one after the other. -/
inductive Resolves (t : Tree) : ℕ → List (List UInt8) → Except Err ℕ → Prop where
  | nil {d : ℕ} : Resolves t d [] (.ok d)
  | fail {d : ℕ} {c : List UInt8} {cs : List (List UInt8)} {e : Err} (h : Step t d c (.error e)) :
    Resolves t d (c :: cs) (.error e)
  | cons {d i : ℕ} {c : List UInt8} {cs : List (List UInt8)} {r : Except Err ℕ} (h : Step t d c (.ok i))
    (hr : Resolves t i cs r) : Resolves t d (c :: cs) r

/-- A node that is linked. -/
def Linked (t : Tree) (i : ℕ) : Prop := ∃ n, t i = some n ∧ n.removed = false ∧ 0 < t.total i

section Walk

variable {t : Tree} {fs : Fs} {d i : ℕ} {n : Node}

/-- A node that nobody holds stays when a reference to it comes and goes. -/
theorem Linked.stays (h : Linked t i) (hs : Sound t none) (hi : t i = some n) (href : n.ref = 0) :
    n.nlinks ≠ 0 := by
  obtain ⟨n', hn', hlive, hpos⟩ := h
  rw [hi] at hn'
  cases hn'
  have hsmall : t.total i < 65536 := by
    by_contra hbig
    have := hs.big i n hi (Nat.not_lt.mp hbig)
    omega
  rw [hs.links i n hi hlive, Nat.mod_eq_of_lt hsmall]
  omega

theorem Linked.of_dir (hi : t i = some n) (hdir : n.type = SFS_TYPE_DIR) (hlive : n.removed = false) :
    Linked t i := by
  refine ⟨n, hi, hlive, ?_⟩
  unfold Tree.total Tree.own
  rw [if_pos ⟨n, hi, hdir⟩]
  split <;> omega

/-- An entry leads to a linked node. -/
theorem Linked.of_ent {p : ℕ × ℕ} {nm : Name} (hs : Sound t none) (he : t.ent p = some (i, nm)) :
    Linked t i := by
  obtain ⟨n, hi⟩ := Option.ne_none_iff_exists'.mp (hs.target p i nm he).1
  refine ⟨n, hi, ?_, ?_⟩
  · cases hr : n.removed with
    | false => rfl
    | true => exact absurd he ((hs.gone i n hi hr).2.2.2 p nm)
  · have hnames : t.names i ≠ 0 := Occurrence.occ_ne_zero (finite_names hs.finite i) ⟨nm, he⟩
    unfold Tree.total
    omega

/-- The parent of a directory in the tree is one, too. -/
theorem Linked.parent (hs : Sound t none) (hi : t i = some n) (hdir : n.type = SFS_TYPE_DIR)
    (hlive : n.removed = false) : Linked t n.parent := by
  by_cases hroot : i = SFS_BLKN_ROOT
  · obtain ⟨r, hr, hrdir, hrlive, hparent⟩ := hs.root
    rw [hroot, hr] at hi
    cases hi
    rw [hparent]
    exact .of_dir hr hrdir hrlive
  · obtain ⟨j, nm, he⟩ := hs.holder i n hi hdir hlive hroot nofun
    obtain ⟨m, hm⟩ : ∃ m, t n.parent = some m := by
      cases hm : t n.parent with
      | none =>
        unfold Tree.ent at he
        rw [hm] at he
        cases he
      | some m => exact ⟨m, rfl⟩
    rw [ent_of hm] at he
    have hne : m.ents j ≠ none := by
      rw [he]
      nofun
    refine .of_dir hm (hs.inside n.parent m j hm hne).1 ?_
    cases hr : m.removed with
    | false => rfl
    | true => exact absurd ((hs.gone n.parent m hm hr).2.2.1 j) hne

theorem hold_apply (k : ℕ) : t.hold d k = if k = d then (t k).map fun n => { n with ref := n.ref + 1 } else t k :=
  rfl

/-- A reference is taken and given up. -/
theorem Node.hold_drop (hstay : n.ref = 0 → n.nlinks ≠ 0) : Node.drop { n with ref := n.ref + 1 } = some n := by
  unfold Node.drop
  by_cases href : n.ref = 0
  · rw [if_neg (by simpa using href), if_neg (hstay href), ← href]
  · rw [if_pos (by simpa using href)]
    rfl

/-- A reference to `d` is given up after one to `i` has been taken. -/
theorem hold_hold_drop (hd : t d = some n) (hstay : n.ref = 0 → n.nlinks ≠ 0) :
    ((t.hold d).hold i).drop d = t.hold i := by
  funext k
  unfold Tree.drop
  by_cases hk : k = d
  · subst hk
    rw [Function.update_self, hold_apply, hold_apply, hold_apply, if_pos rfl, hd]
    by_cases hki : k = i
    · rw [if_pos hki, if_pos hki]
      rfl
    · rw [if_neg hki, if_neg hki]
      exact Node.hold_drop hstay
  · rw [Function.update_of_ne hk, hold_apply, hold_apply, hold_apply, if_neg hk]

theorem hold_drop (hd : t d = some n) (hstay : n.ref = 0 → n.nlinks ≠ 0) : (t.hold d).drop d = t := by
  funext k
  unfold Tree.drop
  by_cases hk : k = d
  · subst hk
    rw [Function.update_self, hold_apply, if_pos rfl, hd]
    exact Node.hold_drop hstay
  · rw [Function.update_of_ne hk, hold_apply, if_neg hk]

theorem hold_some (hd : t d = some n) : t.hold d d = some { n with ref := n.ref + 1 } := edit_self hd

/-- A reference is given up. -/
theorem refDec_hold {t' : Tree} {n' : Node} (h : Refines fs t') (hd : t' d = some n') (href : 0 < n'.ref)
    (hlive : n'.removed = false) : ∃ fs', refDec d fs = some (.ok (), fs') ∧ Refines fs' (t'.drop d) := by
  obtain ⟨fs', b, hrun, -, hb, href'⟩ := refDec_spec h.stores hd href fun hr => by
    rw [hlive] at hr
    cases hr
  rw [hb fun hf => hf.1, Node.fade_self] at href'
  refine ⟨fs', hrun, ?_⟩
  unfold Tree.drop
  rw [hd]
  exact href'.refines

theorem loadInode_hold (h : Refines fs t) (hi : t i = some n) :
    ∃ fs', loadInode i fs = some (.ok (), fs') ∧ Refines fs' (t.hold i) := by
  obtain ⟨fs', hrun, href⟩ := loadInode_spec h.stores hi
  refine ⟨fs', hrun, ?_⟩
  unfold Tree.hold
  rw [edit_eq hi]
  exact href.refines

end Walk

section Lookup

variable {t : Tree} {fs : Fs} {d i : ℕ} {n : Node} {name comp : Name}

/-- `sfs_lookup_once`, in a directory that the caller holds. -/
theorem lookupOnce_spec (h : Refines fs (t.hold d)) (hs : Sound t none) (hd : t d = some n)
    (hdir : n.type = SFS_TYPE_DIR) (hlive : n.removed = false) (hlen : strlen name ≤ SFS_MAX_FNAME_LEN) :
    (∃ i j fs', lookupOnce d name fs = some (.ok i, fs') ∧ Refines fs' ((t.hold d).hold i) ∧
      t.ent (d, j) = some (i, name)) ∨
    lookupOnce d name fs = some (.error .noEnt, fs) ∧ ∀ j i nm, t.ent (d, j) = some (i, nm) → nm.val ≠ name.val := by
  have hhold := hold_some hd
  have htry := trylockSin_eq h.stores hhold (Nat.succ_pos _)
  rw [if_neg (by simp [hlive])] at htry
  obtain ⟨r, hsearch, hscan⟩ := search_spec h.stores hhold (Nat.succ_pos _) hdir hlen
  unfold lookupOnce
  rw [Op.bind_of_ok htry, Op.bind_of_ok hsearch]
  cases hfound : r.found with
  | none =>
    refine Or.inr ⟨rfl, fun j i nm he heq => ?_⟩
    rw [ent_of hd, Subtype.ext heq] at he
    exact hscan.miss hfound j i he
  | some p =>
    obtain ⟨i, j⟩ := p
    have he : t.ent (d, j) = some (i, name) := by
      rw [ent_of hd]
      exact (hscan.hit i j hfound).1
    have hhas : (t.hold d).has i := has_edit.mpr (hs.target (d, j) i name he).1
    obtain ⟨m, hm⟩ := Option.ne_none_iff_exists'.mp hhas
    obtain ⟨fs', hload, href⟩ := loadInode_hold h hm
    refine Or.inl ⟨i, j, fs', ?_, href, he⟩
    dsimp only
    rw [Op.bind_of_ok hload]
    rfl

/-- `sfs_load_parent`, of a directory in the tree. -/
theorem loadParent_spec (h : Refines fs (t.hold d)) (hs : Sound t none) (hd : t d = some n)
    (hdir : n.type = SFS_TYPE_DIR) (hlive : n.removed = false) :
    ∃ fs', loadParent d fs = some (.ok n.parent, fs') ∧ Refines fs' ((t.hold d).hold n.parent) := by
  obtain ⟨s, hcache, hnode⟩ := h.stores.cached (hold_some hd) (Nat.succ_pos _)
  have hparent : s.din.parent = n.parent := congrArg Node.parent hnode
  obtain ⟨p, hp, -⟩ := Linked.parent hs hd hdir hlive
  have hhas : (t.hold d).has n.parent := has_edit.mpr (has_of hp)
  obtain ⟨m, hm⟩ := Option.ne_none_iff_exists'.mp hhas
  obtain ⟨fs', hload, href⟩ := loadInode_hold h hm
  refine ⟨fs', ?_, href⟩
  unfold loadParent
  rw [Op.bind_of_ok (sinOf_eq hcache), hparent, Op.bind_of_ok hload]
  rfl

/-- What the references are when a lookup ends. -/
def heldBy (t : Tree) : Except Err ℕ → Tree
  | .ok i => t.hold i
  | .error _ => t

theorem lookupComp_spec (h : Refines fs (t.hold d)) (hs : Sound t none) (hd : t d = some n)
    (hdir : n.type = SFS_TYPE_DIR) (hlive : n.removed = false) (hdot : comp ≠ DOT) :
    ∃ r fs', lookupComp d comp fs = some (r, fs') ∧ Refines fs' (heldBy t r) ∧ Step t d comp.val r ∧
      ∀ i, r = .ok i → Linked t i := by
  have hlinked := Linked.of_dir hd hdir hlive
  have hdirOf : t.isDir d := ⟨n, hd, hdir⟩
  have hval : comp.val ≠ DOT.val := fun he => hdot (Subtype.ext he)
  -- whatever the component leads to, the reference to `d` goes
  have hdone : ∀ {x : Op Fs Err ℕ} {r : Except Err ℕ} {fs₁ : Fs} {t₁ : Tree}, x fs = some (r, fs₁) →
      Refines fs₁ t₁ → (t₁ d = some { n with ref := n.ref + 1 } ∨ t₁ d = some { n with ref := n.ref + 1 + 1 }) →
      t₁.drop d = heldBy t r → ∃ fs', (Op.attempt x >>= fun r => refDec d >>= fun _ =>
        match r with
        | .ok subnode => (pure subnode : Op Fs Err ℕ)
        | .error e => Op.throw e) fs = some (r, fs') ∧ Refines fs' (heldBy t r) := by
    intro x r fs₁ t₁ hx href hnode hdrop
    have hatt : Op.attempt x fs = some (.ok r, fs₁) := by
      unfold Op.attempt
      rw [hx]
      rfl
    obtain ⟨fs', hdec, href'⟩ : ∃ fs', refDec d fs₁ = some (.ok (), fs') ∧ Refines fs' (t₁.drop d) := by
      rcases hnode with hnode | hnode
      · exact refDec_hold href hnode (Nat.succ_pos _) hlive
      · exact refDec_hold href hnode (Nat.succ_pos _) hlive
    rw [Op.bind_of_ok hatt, Op.bind_of_ok hdec]
    rw [hdrop] at href'
    cases r with
    | ok i => exact ⟨fs', rfl, href'⟩
    | error e => exact ⟨fs', rfl, href'⟩
  have hself := hold_some hd
  have hagain : ∀ i, (t.hold d).hold i d = some { n with ref := n.ref + 1 } ∨
      (t.hold d).hold i d = some { n with ref := n.ref + 1 + 1 } := by
    intro i
    rw [hold_apply, hself]
    split
    · exact Or.inr rfl
    · exact Or.inl rfl
  have hstay := hlinked.stays hs hd
  unfold lookupComp
  by_cases hdotdot : comp = DOTDOT
  · obtain ⟨fs₁, hx, href⟩ := loadParent_spec h hs hd hdir hlive
    rw [if_pos hdotdot]
    obtain ⟨fs', hrun, href'⟩ := hdone hx href (hagain _) (hold_hold_drop hd hstay)
    refine ⟨_, fs', hrun, href', .dotdot hd hdir (by rw [hdotdot]), fun i hi => ?_⟩
    cases hi
    exact .parent hs hd hdir hlive
  · have hvals : comp.val ≠ DOTDOT.val := fun he => hdotdot (Subtype.ext he)
    rw [if_neg hdotdot]
    by_cases hlen : SFS_MAX_FNAME_LEN < strlen comp
    · rw [if_pos hlen]
      obtain ⟨fs', hrun, href'⟩ := hdone (r := .error .tooBig) (x := Op.throw .tooBig) rfl h (Or.inl hself)
        (hold_drop hd hstay)
      exact ⟨_, fs', hrun, href', .tooBig hdirOf hval hvals hlen, nofun⟩
    · rw [if_neg hlen]
      rcases lookupOnce_spec h hs hd hdir hlive (Nat.not_lt.mp hlen) with
        ⟨i, j, fs₁, hx, href, he⟩ | ⟨hx, hno⟩
      · obtain ⟨fs', hrun, href'⟩ := hdone hx href (hagain _) (hold_hold_drop hd hstay)
        refine ⟨_, fs', hrun, href', .entry hdirOf hval hvals (Nat.not_lt.mp hlen) he rfl, fun i' hi => ?_⟩
        cases hi
        exact .of_ent hs he
      · obtain ⟨fs', hrun, href'⟩ := hdone hx h (Or.inl hself) (hold_drop hd hstay)
        exact ⟨_, fs', hrun, href', .noEnt hdirOf hval hvals (Nat.not_lt.mp hlen) hno, nofun⟩

theorem checkDir_spec (h : Refines fs (t.hold d)) (hs : Sound t none) (hd : t d = some n)
    (hlinked : Linked t d) :
    (n.type = SFS_TYPE_DIR ∧ checkDir d fs = some (.ok (), fs)) ∨
    n.type ≠ SFS_TYPE_DIR ∧ ∃ fs', checkDir d fs = some (.error .notDir, fs') ∧ Refines fs' t := by
  obtain ⟨s, hcache, hnode⟩ := h.stores.cached (hold_some hd) (Nat.succ_pos _)
  have htype : s.din.type = n.type := congrArg Node.type hnode
  have hlive : n.removed = false := by
    obtain ⟨n', hn', hlive, -⟩ := hlinked
    rw [hd] at hn'
    cases hn'
    exact hlive
  unfold checkDir
  rw [Op.bind_of_ok (sinOf_eq hcache), htype]
  by_cases hdir : n.type = SFS_TYPE_DIR
  · rw [if_neg (not_not.mpr hdir)]
    exact Or.inl ⟨hdir, rfl⟩
  · rw [if_pos hdir]
    obtain ⟨fs', hdec, href⟩ := refDec_hold h (hold_some hd) (Nat.succ_pos _) hlive
    rw [hold_drop hd (hlinked.stays hs hd)] at href
    refine Or.inr ⟨hdir, fs', ?_, href⟩
    rw [Op.bind_of_ok hdec]
    rfl

/-- The loop of `sfs_lookup` resolves the components, and holds no other node. -/
theorem lookupNext_spec (hs : Sound t none) : ∀ (k : ℕ) (path : Name) (d : ℕ) (n : Node) (fs : Fs),
    strlen path ≤ k → path ≠ noName → path.val.head? ≠ some SLASH → Refines fs (t.hold d) →
    t d = some n → n.type = SFS_TYPE_DIR → n.removed = false →
    ∃ r fs', lookupNext d path fs = some (r, fs') ∧ Refines fs' (heldBy t r) ∧ Resolves t d (components path) r := by
  intro k
  induction k with
  | zero =>
    intro path d n fs hk hne
    exact absurd (Subtype.ext (List.eq_nil_of_length_eq_zero (Nat.le_zero.mp hk))) hne
  | succ k ih =>
    intro path d n fs hk hne hhead h hd hdir hlive
    have hcomp := components_eq hne hhead
    have hdirOf : t.isDir d := ⟨n, hd, hdir⟩
    cases hsub : lookupSubpath path with
    | none =>
      rw [lookupSubpath_none hsub, components_noName] at hcomp
      rw [lookupNext_none hsub, hcomp]
      by_cases hdot : pathComp path = DOT
      · rw [if_pos hdot]
        exact ⟨.ok d, fs, rfl, h, .cons (.dot hdirOf (by rw [hdot])) .nil⟩
      · rw [if_neg hdot]
        obtain ⟨r, fs', hrun, href, hstep, -⟩ := lookupComp_spec h hs hd hdir hlive hdot
        refine ⟨r, fs', hrun, href, ?_⟩
        cases r with
        | ok i => exact .cons hstep .nil
        | error e => exact .fail hstep
    | some subpath =>
      obtain ⟨rfl, hne', hhead'⟩ := lookupSubpath_some hsub
      have hk' : strlen (pathRest path) ≤ k := by
        have hlt := lookupSubpath_lt hsub
        omega
      rw [lookupNext_some hsub, hcomp]
      by_cases hdot : pathComp path = DOT
      · rw [if_pos hdot]
        obtain ⟨r, fs', hrun, href, hres⟩ := ih _ d n fs hk' hne' hhead' h hd hdir hlive
        exact ⟨r, fs', hrun, href, .cons (.dot hdirOf (by rw [hdot])) hres⟩
      · rw [if_neg hdot]
        obtain ⟨r, fs₁, hrun, href, hstep, hlinked⟩ := lookupComp_spec h hs hd hdir hlive hdot
        cases r with
        | error e => exact ⟨.error e, fs₁, Op.bind_of_error hrun, href, .fail hstep⟩
        | ok i =>
          have hlinked := hlinked i rfl
          obtain ⟨m, hm, hmlive, hpos⟩ := hlinked
          rw [Op.bind_of_ok hrun]
          rcases checkDir_spec href hs hm ⟨m, hm, hmlive, hpos⟩ with ⟨hmdir, hcheck⟩ | ⟨hmfile, fs₂, hcheck, href₂⟩
          · rw [Op.bind_of_ok hcheck]
            obtain ⟨r, fs', hrun', href', hres⟩ := ih _ i m fs₁ hk' hne' hhead' href hm hmdir hmlive
            exact ⟨r, fs', hrun', href', .cons hstep hres⟩
          · refine ⟨.error .notDir, fs₂, Op.bind_of_error hcheck, href₂, .cons hstep ?_⟩
            rw [components_eq hne' hhead']
            exact .fail (.notDir hm hmfile)

end Lookup

theorem refInc_spec {fs : Fs} {t : Tree} {d : ℕ} {n : Node} (h : Refines fs t) (hd : t d = some n)
    (href : 0 < n.ref) : ∃ fs', refInc d fs = some (.ok (), fs') ∧ Refines fs' (t.hold d) := by
  obtain ⟨s, hcache, -⟩ := h.stores.cached hd href
  obtain ⟨fs', hload, href'⟩ := loadInode_hold h hd
  refine ⟨fs', ?_, href'⟩
  unfold loadInode at hload
  rw [Op.bind_of_ok (rfl : Op.gets _ fs = some (.ok (fs.cache d), fs)), hcache] at hload
  unfold refInc
  rw [Op.bind_of_ok (sinOf_eq hcache)]
  exact hload

theorem refDec_outcome {fs fs' : Fs} {i : ℕ} {r : Except Err Unit} (h : refDec i fs = some (r, fs')) :
    r = .ok () := by
  unfold refDec at h
  cases hcache : fs.cache i with
  | none =>
    have hnone : sinOf i fs = none := by
      unfold sinOf
      rw [hcache]
    rw [Op.bind_of_none hnone] at h
    cases h
  | some s =>
    rw [Op.bind_of_ok (sinOf_eq hcache)] at h
    by_cases href : 0 < s.ref
    · rw [Op.bind_of_ok (if_pos href : Op.assert _ fs = some (.ok (), fs)), Op.bind_of_ok (setSin_eq _)] at h
      split at h
      · rename_i hone
        generalize fs.put i _ _ = fs₁ at h
        cases hx : reclaim i fs₁ with
        | none =>
          have hatt : Op.attempt (reclaim i) fs₁ = none := by
            unfold Op.attempt
            rw [hx]
            rfl
          rw [Op.bind_of_none hatt] at h
          cases h
        | some p =>
          have hatt : Op.attempt (reclaim i) fs₁ = some (.ok p.1, p.2) := by
            unfold Op.attempt
            rw [hx]
            rfl
          rw [Op.bind_of_ok hatt] at h
          cases h
          rfl
      · cases h
        rfl
    · rw [Op.bind_of_none (if_neg href : Op.assert _ fs = none)] at h
      cases h

/-- What `lookupLast` returns is what `sfs_lookup_once` has returned. -/
theorem lookupLast_outcome {fs fs' : Fs} {d : ℕ} {name : Name} {r : Except Err ℕ}
    (h : lookupLast d name fs = some (r, fs')) : ∃ fs₂, lookupOnce d name fs = some (r, fs₂) := by
  unfold lookupLast at h
  cases hx : lookupOnce d name fs with
  | none =>
    have hatt : Op.attempt (lookupOnce d name) fs = none := by
      unfold Op.attempt
      rw [hx]
      rfl
    rw [Op.bind_of_none hatt] at h
    cases h
  | some p =>
    obtain ⟨r₂, fs₂⟩ := p
    have hatt : Op.attempt (lookupOnce d name) fs = some (.ok r₂, fs₂) := by
      unfold Op.attempt
      rw [hx]
      rfl
    rw [Op.bind_of_ok hatt] at h
    cases hdec : refDec d fs₂ with
    | none =>
      rw [Op.bind_of_none hdec] at h
      cases h
    | some q =>
      obtain ⟨u, fs₃⟩ := q
      obtain rfl := refDec_outcome hdec
      rw [Op.bind_of_ok hdec] at h
      refine ⟨fs₂, ?_⟩
      cases r₂ with
      | ok i =>
        cases h
        rfl
      | error e =>
        cases h
        rfl

/-! ## A file system with one directory -/

theorem ents_live {k : Lk} {j : ℕ} (htype : k.din.type = SFS_TYPE_DIR) (hj : j < k.din.blocks)
    (h0 : (k.entry j).ino ≠ 0) : k.ents j = some ((k.entry j).ino, (k.entry j).name) := by
  unfold Lk.ents
  rw [if_pos ⟨htype, hj⟩, if_neg h0]

theorem ents_hole {k : Lk} {j : ℕ} (h0 : (k.entry j).ino = 0) : k.ents j = none := by
  unfold Lk.ents
  rw [if_pos h0, ite_self]

section Dir

open Occurrence Bytes

variable {name : Name} {i : ℕ}

/-- The root; block 3 is its slot. -/
def topInode : DiskInode := ⟨1, SFS_BLKN_ROOT, SFS_TYPE_DIR, 3, 1, fun j => if j = 0 then 3 else 0, 0, 0⟩

def subInode : DiskInode := ⟨0, SFS_BLKN_ROOT, SFS_TYPE_DIR, 2, 0, fun _ => 0, 0, 0⟩

/-- Directory 4 in the root. -/
def dirFs (name : Name) : Fs where
  vol := ⟨9, 4, true, fun b => decide (5 ≤ b ∧ b < 9), fun b =>
    if b = 3 then splice (fun _ => 0) 0 ENTRY_SIZE (Entry.toBytes 4 name) else fun _ => 0⟩
  info := fun _ => 0
  cache := fun i =>
    if i = SFS_BLKN_ROOT then some ⟨topInode, true, false, 1⟩
    else if i = 4 then some ⟨subInode, true, false, 1⟩
    else none

def topNode (name : Name) : Node :=
  ⟨SFS_TYPE_DIR, 3, 1, SFS_BLKN_ROOT, 1, false, 1, fun j => if j = 0 then some (4, name) else none⟩

def subNode : Node := ⟨SFS_TYPE_DIR, 2, 0, SFS_BLKN_ROOT, 0, false, 1, fun _ => none⟩

def dirTree (name : Name) : Tree := fun i =>
  if i = SFS_BLKN_ROOT then some (topNode name) else if i = 4 then some subNode else none

theorem dirTree_some {n : Node} (h : dirTree name i = some n) :
    (i = SFS_BLKN_ROOT ∧ n = topNode name) ∨ (i = 4 ∧ n = subNode) := by
  unfold dirTree at h
  split at h
  · rename_i hi
    exact .inl ⟨hi, (Option.some.inj h).symm⟩
  · split at h
    · rename_i hi
      exact .inr ⟨hi, (Option.some.inj h).symm⟩
    · cases h

theorem dirTree_has : (dirTree name).has i ↔ i = SFS_BLKN_ROOT ∨ i = 4 := by
  unfold Tree.has dirTree
  split
  · simp_all
  · split <;> simp_all

theorem dirTree_ent (p : ℕ × ℕ) : (dirTree name).ent p = if p = (SFS_BLKN_ROOT, 0) then some (4, name) else none := by
  obtain ⟨d, j⟩ := p
  by_cases hd : d = SFS_BLKN_ROOT
  · subst hd
    have hroot : dirTree name SFS_BLKN_ROOT = some (topNode name) := rfl
    rw [ent_of hroot]
    unfold topNode
    simp
  · have hne : (d, j) ≠ (SFS_BLKN_ROOT, 0) := fun he => hd (congrArg Prod.fst he)
    rw [if_neg hne]
    unfold Tree.ent
    cases h : dirTree name d with
    | none => rfl
    | some n =>
      rcases dirTree_some h with ⟨hi, -⟩ | ⟨-, rfl⟩
      · exact absurd hi hd
      · rfl

theorem dirTree_ent_some {p : ℕ × ℕ} {nm : Name} (h : (dirTree name).ent p = some (i, nm)) :
    p = (SFS_BLKN_ROOT, 0) ∧ i = 4 ∧ nm = name := by
  rw [dirTree_ent] at h
  split at h
  · rename_i hp
    cases h
    exact ⟨hp, rfl, rfl⟩
  · cases h

/-- The only entry is counted once by what it satisfies. -/
theorem dirTree_occ {α : Type} (P : Option (ℕ × Name) → Prop) (hnone : ¬ P none) (g : α → ℕ × ℕ) (a : α)
    (ha : g a = (SFS_BLKN_ROOT, 0)) (hinj : ∀ b, g b = (SFS_BLKN_ROOT, 0) → b = a) (hP : P (some (4, name))) :
    occ (fun b => (dirTree name).ent (g b)) P = 1 := by
  unfold occ
  have hset : {b | P ((dirTree name).ent (g b))} = {a} := by
    ext b
    rw [Set.mem_ofPred_eq, Set.mem_singleton_iff, dirTree_ent]
    constructor
    · intro hb
      by_contra hne
      rw [if_neg fun he => hne (hinj b he)] at hb
      exact hnone hb
    · rintro rfl
      rw [if_pos ha]
      exact hP
  rw [hset, Set.ncard_singleton]

theorem dirTree_occ_zero {α : Type} (P : Option (ℕ × Name) → Prop) (hnone : ¬ P none) (g : α → ℕ × ℕ)
    (hP : ∀ a, g a = (SFS_BLKN_ROOT, 0) → ¬ P (some (4, name))) :
    occ (fun b => (dirTree name).ent (g b)) P = 0 := by
  unfold occ
  have hset : {b | P ((dirTree name).ent (g b))} = ∅ := Set.eq_empty_iff_forall_notMem.mpr fun b hb => by
    rw [Set.mem_ofPred_eq, dirTree_ent] at hb
    split at hb
    · rename_i hp
      exact hP b hp hb
    · exact hnone hb
  rw [hset, Set.ncard_empty]

theorem dirTree_sound (name : Name) : Sound (dirTree name) none := by
  have hdirs : ∀ i, (dirTree name).has i → (dirTree name).isDir i := by
    intro i hi
    rcases dirTree_has.mp hi with rfl | rfl
    · exact ⟨_, rfl, rfl⟩
    · exact ⟨_, rfl, rfl⟩
  have htop : (dirTree name).isDir SFS_BLKN_ROOT := hdirs _ (dirTree_has.mpr (.inl rfl))
  have hsub : (dirTree name).isDir 4 := hdirs _ (dirTree_has.mpr (.inr rfl))
  have hnames : occ (dirTree name).ent (Tree.Names SFS_BLKN_ROOT) = 0 :=
    dirTree_occ_zero _ (fun h => h.ne_none rfl) id fun _ _ h => absurd (names_some.mp h) (by decide)
  have hnames₄ : occ (dirTree name).ent (Tree.Names 4) = 1 :=
    dirTree_occ _ (fun h => h.ne_none rfl) id (SFS_BLKN_ROOT, 0) rfl (fun _ h => h) (names_some.mpr rfl)
  have hrow : ∀ d, d ≠ SFS_BLKN_ROOT → ∀ P : Option (ℕ × Name) → Prop, ¬ P none →
      occ ((dirTree name).row d) P = 0 := fun d hd P hP =>
    dirTree_occ_zero P hP (fun j => (d, j)) fun j hj => absurd (congrArg Prod.fst hj) hd
  have hrow₁ : ∀ P : Option (ℕ × Name) → Prop, ¬ P none → P (some (4, name)) →
      occ ((dirTree name).row SFS_BLKN_ROOT) P = 1 := fun P hP hQ =>
    dirTree_occ P hP (fun j => (SFS_BLKN_ROOT, j)) 0 rfl (fun j hj => congrArg Prod.snd hj) hQ
  have hnone : ¬ (dirTree name).NamesDir none := fun h => h.ne_none rfl
  have htotal₁ : (dirTree name).total SFS_BLKN_ROOT = 3 := by
    unfold Tree.total Tree.own Tree.names Tree.subs
    rw [hnames, if_pos htop, if_pos rfl, hrow₁ _ hnone (namesDir_some.mpr hsub)]
  have htotal₄ : (dirTree name).total 4 = 2 := by
    unfold Tree.total Tree.own Tree.names Tree.subs
    rw [hnames₄, if_pos hsub, if_neg (by decide), hrow 4 (by decide) _ hnone]
  refine ⟨⟨_, rfl, rfl, rfl, rfl⟩, ?_, ?_, ?_, ?_, ?_, ?_, ?_, ?_, ?_, nofun, ?_⟩
  · refine (Set.finite_singleton (SFS_BLKN_ROOT, 0)).subset fun p hp => ?_
    by_contra hne
    refine hp ?_
    rw [dirTree_ent, if_neg fun he => hne (Set.mem_singleton_iff.mpr he)]
  · intro d n j hd he
    rcases dirTree_some hd with ⟨-, rfl⟩ | ⟨-, rfl⟩
    · refine ⟨rfl, ?_⟩
      by_contra hj
      refine he (if_neg fun h0 => hj ?_)
      rw [h0]
      exact Nat.one_pos
    · exact absurd rfl he
  · intro p i nm he
    obtain ⟨-, rfl, -⟩ := dirTree_ent_some he
    exact ⟨dirTree_has.mpr (.inr rfl), by decide⟩
  · intro d j j' i i' nm he he'
    exact (congrArg Prod.snd (dirTree_ent_some he).1).trans (congrArg Prod.snd (dirTree_ent_some he').1).symm
  · intro d n hd _
    rcases dirTree_some hd with ⟨rfl, rfl⟩ | ⟨rfl, rfl⟩
    · exact (hrow₁ (· ≠ none) (fun h => h rfl) nofun).symm
    · exact (hrow 4 (by decide) (· ≠ none) fun h => h rfl).symm
  · intro i n hi _
    rcases dirTree_some hi with ⟨rfl, rfl⟩ | ⟨rfl, rfl⟩
    · rw [htotal₁]
      rfl
    · rw [htotal₄]
      rfl
  · intro i n hi hr
    rcases dirTree_some hi with ⟨-, rfl⟩ | ⟨-, rfl⟩ <;> cases hr
  · intro i n hi _ _ hne _
    rcases dirTree_some hi with ⟨rfl, rfl⟩ | ⟨rfl, rfl⟩
    · exact absurd rfl hne
    · exact ⟨0, name, by rw [dirTree_ent]; rfl⟩
  · intro i p p' nm nm' _ he he'
    rw [(dirTree_ent_some he).1, (dirTree_ent_some he').1]
  · intro i n hi _
    rcases dirTree_some hi with ⟨-, rfl⟩ | ⟨-, rfl⟩ <;> exact Nat.one_pos

theorem dirFs_role_top (r : Role) : (dirFs name).role SFS_BLKN_ROOT r = if r = .leaf 0 then 3 else 0 := by
  show roleAt (dirFs name).vol.disk topInode r = _
  have hmid : ∀ j, roleAt (dirFs name).vol.disk topInode (.mid j) = 0 := by
    intro j
    show ite _ (entryAt _ 0 _) _ = _
    rw [entryAt_zero, ite_self]
  cases r with
  | ind => rfl
  | dbl => rfl
  | mid j => exact hmid j
  | leaf j =>
    have hleaf : (Role.leaf j = .leaf 0) = (j = 0) := propext ⟨fun h => Role.leaf.inj h, fun h => h ▸ rfl⟩
    rw [if_congr (iff_of_eq hleaf) rfl rfl]
    rcases leaf_cases j with hj | ⟨k, hk, rfl⟩ | ⟨i, k, hi, hk, rfl⟩ | hj
    · exact roleAt_direct hj
    · rw [roleAt_indirect hk, if_neg (by omega)]
      exact entryAt_zero k
    · rw [roleAt_double hi hk, hmid, entryAt_zero, if_neg (by omega)]
    · have hbig : 0 < NLEAF := by decide
      rw [roleAt_beyond hj, if_neg (by omega)]

theorem dirFs_role_sub (r : Role) : (dirFs name).role 4 r = 0 := roleAt_empty (fun _ => rfl) rfl rfl r

/-- Block 3 is the only one with a role. -/
theorem dirFs_role {r : Role} (hi : (dirTree name).has i) (h0 : (dirFs name).role i r ≠ 0) :
    i = SFS_BLKN_ROOT ∧ r = .leaf 0 ∧ (dirFs name).role i r = 3 := by
  rcases dirTree_has.mp hi with rfl | rfl
  · rw [dirFs_role_top] at h0 ⊢
    by_cases hr : r = .leaf 0
    · exact ⟨rfl, hr, if_pos hr⟩
    · rw [if_neg hr] at h0
      exact absurd rfl h0
  · exact absurd (dirFs_role_sub r) h0

theorem dirFs_meta {b : ℕ} : (dirFs name).vol.isMeta b ↔ b = 0 ∨ b = 2 := by
  have hone : (dirFs name).vol.freemapBlocks = 1 := (by decide : roundupDiv 9 SFS_BLKBITS = 1)
  unfold Vol.isMeta
  rw [hone]
  omega

theorem topInode_fits : topInode.Fits := by
  refine ⟨by decide, by decide, by decide, by decide, by decide, fun j => ?_, fun j hj => if_neg ?_, by decide,
    by decide⟩
  · show (if j = 0 then 3 else 0) < 2 ^ 32
    split <;> decide
  · unfold SFS_NDIRECT at hj
    omega

theorem subInode_fits : subInode.Fits :=
  ⟨by decide, by decide, by decide, by decide, by decide, fun _ => Nat.two_pow_pos 32, fun _ _ => rfl, by decide,
    by decide⟩

theorem dirFs_space (name : Name) : Space (dirFs name) (dirTree name).has := by
  refine ⟨⟨fun b hb => ?_, ?_⟩, (by decide : 9 ≤ 2 ^ 32), fun i hi => ?_, fun i hi => ?_, fun i hi => ?_,
    fun i j r r' hi hj h0 he => ?_, fun i j r hi hj h0 he => ?_, fun i r hi h0 => ?_, fun b hb => ?_,
      fun i hi j => ?_⟩
  · have hb : 5 ≤ b ∧ b < 9 := of_decide_eq_true hb
    exact ⟨by omega, hb.2⟩
  · have hset : {b | (dirFs name).vol.freemap b = true} = (Finset.Ico 5 9 : Set ℕ) := by
      ext b
      rw [Set.mem_ofPred_eq, Finset.mem_coe, Finset.mem_Ico]
      exact decide_eq_true_iff
    show 4 = Set.ncard {b | (dirFs name).vol.freemap b = true}
    rw [hset, Set.ncard_coe_finset]
    rfl
  · rw [dirFs_meta]
    rcases dirTree_has.mp hi with rfl | rfl
    · exact ⟨by decide, (by decide : 1 < 9)⟩
    · exact ⟨by decide, (by decide : 4 < 9)⟩
  · refine dirTree_has.mpr ?_
    by_contra hne
    rw [not_or] at hne
    exact hi ((if_neg hne.1).trans (if_neg hne.2))
  · rcases dirTree_has.mp hi with rfl | rfl
    · exact topInode_fits
    · exact subInode_fits
  · obtain ⟨rfl, rfl, h3⟩ := dirFs_role hi h0
    obtain ⟨rfl, rfl, -⟩ := dirFs_role hj (by rwa [← he])
    exact ⟨rfl, rfl⟩
  · obtain ⟨rfl, rfl, h3⟩ := dirFs_role hi h0
    rw [h3] at he
    rcases dirTree_has.mp hj with rfl | rfl <;> cases he
  · obtain ⟨rfl, rfl, h3⟩ := dirFs_role hi h0
    rw [h3, dirFs_meta]
    exact ⟨by decide, (by decide : 3 < 9)⟩
  · have hlt : b < 9 := hb
    have hfree : (dirFs name).vol.freemap b = false ↔ ¬ (5 ≤ b ∧ b < 9) := decide_eq_false_iff_not
    have hrole : (dirFs name).role SFS_BLKN_ROOT (.leaf 0) = 3 := dirFs_role_top _
    rw [hfree, dirFs_meta, dirTree_has]
    constructor
    · intro hne
      by_cases h3 : b = 3
      · exact .inr (.inr ⟨SFS_BLKN_ROOT, .leaf 0, dirTree_has.mpr (.inl rfl),
        by rw [hrole]; decide, by rw [hrole, h3]⟩)
      · unfold SFS_BLKN_ROOT
        omega
    · unfold SFS_BLKN_ROOT
      rintro (hm | hI | ⟨i, r, hi, h0, he⟩)
      · omega
      · omega
      · obtain ⟨-, -, h3⟩ := dirFs_role hi h0
        omega
  · rcases dirTree_has.mp hi with rfl | rfl
    · rw [dirFs_role_top]
      show _ ↔ j < 1
      by_cases hj : j = 0
      · subst hj
        simp
      · have hne : Role.leaf j ≠ .leaf 0 := fun h => hj (Role.leaf.inj h)
        rw [if_neg hne]
        omega
    · rw [dirFs_role_sub]
      show _ ↔ j < 0
      simp

theorem dirFs_refines (hlen : strlen name ≤ SFS_MAX_FNAME_LEN) : Refines (dirFs name) (dirTree name) := by
  have hcache : ∀ i s, (dirFs name).cache i = some s → s.ref = 1 ∧ s.dirty = true := by
    intro i s hs
    unfold dirFs at hs
    dsimp only at hs
    split at hs
    · cases hs
      exact ⟨rfl, rfl⟩
    · split at hs
      · cases hs
        exact ⟨rfl, rfl⟩
      · cases hs
  refine ⟨dirFs_space name, fun b hb => ?_, fun i n hi => ?_, fun i n hi => ?_, fun i n hi hc => ?_,
    fun i s hs => ?_, fun i s hs hd => ?_, nofun⟩
  · rw [dirFs_meta] at hb
    show b < 9
    omega
  · rcases dirTree_some hi with ⟨rfl, rfl⟩ | ⟨rfl, rfl⟩
    · have hents : ((dirFs name).lk ⟨topInode, true, false, 1⟩).ents = (topNode name).ents := by
        funext j
        by_cases hj : j = 0
        · subst hj
          have hentry : ((dirFs name).lk ⟨topInode, true, false, 1⟩).entry 0 = ⟨4, name⟩ :=
            ofBytes_toBytes (fun _ => 0) (by decide) (by decide) hlen
          have h0 : (((dirFs name).lk ⟨topInode, true, false, 1⟩).entry 0).ino ≠ 0 := by
            rw [hentry]
            exact (by decide : (4 : ℕ) ≠ 0)
          rw [ents_live rfl Nat.one_pos h0, hentry]
          rfl
        · rw [Lk.ents_beyond (show 1 ≤ j by omega)]
          exact (if_neg hj).symm
      rw [Fs.node_cached (s := ⟨topInode, true, false, 1⟩) rfl]
      unfold Sin.node nodeOf
      rw [hents]
      rfl
    · have hents : ((dirFs name).lk ⟨subInode, true, false, 1⟩).ents = fun _ => none := by
        funext j
        exact Lk.ents_beyond (Nat.zero_le j)
      rw [Fs.node_cached (s := ⟨subInode, true, false, 1⟩) rfl]
      unfold Sin.node nodeOf
      rw [hents]
      rfl
  · rcases dirTree_some hi with ⟨-, rfl⟩ | ⟨-, rfl⟩ <;> exact .inl rfl
  · rcases dirTree_some hi with ⟨rfl, -⟩ | ⟨rfl, -⟩ <;> cases hc
  · rw [(hcache i s hs).1]
    exact Nat.one_pos
  · rw [(hcache i s hs).2] at hd
    cases hd

def dirName : Name := ⟨[97], by decide⟩

end Dir

/-! ## Agreement -/

/-- `sfs_lookup` from a directory of the tree that the caller holds. -/
theorem sfsLookup_spec {path : Name} {fs : Fs} {t : Tree} {dir : ℕ} {n : Node} (hne : path ≠ noName)
    (hhead : path.val.head? ≠ some SLASH) (h : Refines fs t) (hs : Sound t none) (hd : t dir = some n)
    (hdir : n.type = SFS_TYPE_DIR) (hlive : n.removed = false) (href : 0 < n.ref) :
    ∃ r fs', sfsLookup dir path fs = some (r, fs') ∧ Refines fs' (heldBy t r) ∧
      Resolves t dir (components path) r := by
  obtain ⟨fs₁, hinc, hhold⟩ := refInc_spec h hd href
  obtain ⟨r, fs', hnext, href', hres⟩ := lookupNext_spec hs _ path dir n fs₁ le_rfl hne hhead hhold hd hdir hlive
  refine ⟨r, fs', ?_, href', hres⟩
  unfold sfsLookup
  rw [Op.bind_of_ok (if_pos ⟨hne, hhead⟩ : Op.assert _ fs = some (.ok (), fs)), Op.bind_of_ok hinc]
  rcases checkDir_spec hhold hs hd (.of_dir hd hdir hlive) with ⟨-, hcheck⟩ | ⟨hfile, -⟩
  · rw [Op.bind_of_ok hcheck, hnext]
  · exact absurd hdir hfile

/-- **Lookup and lookup-parent agree.**  In every state `sfs_lookup` does what `sfs_lookup_parent` and a
look for the last component do.  From a directory of the tree both return, a failed `sfs_lookup_parent`
fails as `sfs_lookup` does, and the node is the one to which the components lead. -/
theorem lookup_lookupParent {path : Name} (hp : Relative path) :
    (∀ fs node, sfsLookup node path fs =
      (sfsLookupParent node path >>= fun p => lookupLast p.1 p.2) fs) ∧
    ∀ fs t dir n, Refines fs t → Sound t none → t dir = some n → n.type = SFS_TYPE_DIR →
      n.removed = false → 0 < n.ref →
      ∃ r fs', sfsLookup dir path fs = some (r, fs') ∧ Refines fs' (heldBy t r) ∧
        Resolves t dir (components path) r ∧ ∃ p fs₁, sfsLookupParent dir path fs = some (p, fs₁) ∧
          match p with
          | .ok (d, name) => ∃ fs₂, lookupOnce d name fs₁ = some (r, fs₂)
          | .error e => r = .error e := by
  refine ⟨fun fs node => congrFun (sfsLookup_eq hp node) fs,
    fun fs t dir n h hs hd hdir hlive href => ?_⟩
  obtain ⟨r, fs', hrun, href', hres⟩ := sfsLookup_spec hp.nonempty hp.head h hs hd hdir hlive href
  refine ⟨r, fs', hrun, href', hres, ?_⟩
  have heq := congrFun (sfsLookup_eq hp dir) fs
  rw [hrun] at heq
  cases hparent : sfsLookupParent dir path fs with
  | none =>
    rw [Op.bind_of_none hparent] at heq
    cases heq
  | some q =>
    obtain ⟨p, fs₂⟩ := q
    refine ⟨p, fs₂, rfl, ?_⟩
    cases p with
    | error e =>
      rw [Op.bind_of_error hparent] at heq
      cases heq
      rfl
    | ok p =>
      rw [Op.bind_of_ok hparent] at heq
      exact lookupLast_outcome heq.symm

/-- The path `./a//../a`, where `a` is a directory. -/
theorem lookup_lookupParent_dots : ∃ path : Name, path.val = [46, 47, 97, 47, 47, 46, 46, 47, 97] ∧ ∃ r fs',
    sfsLookup SFS_BLKN_ROOT path (dirFs dirName) = some (r, fs') ∧
    Resolves (dirTree dirName) SFS_BLKN_ROOT [[46], [97], [46, 46], [97]] r ∧
    ∃ p fs₁, sfsLookupParent SFS_BLKN_ROOT path (dirFs dirName) = some (p, fs₁) ∧
      match p with
      | .ok (d, name) => ∃ fs₂, lookupOnce d name fs₁ = some (r, fs₂)
      | .error e => r = .error e := by
  refine ⟨⟨[46, 47, 97, 47, 47, 46, 46, 47, 97], by decide⟩, rfl, ?_⟩
  have hp : Relative ⟨[46, 47, 97, 47, 47, 46, 46, 47, 97], by decide⟩ := by
    refine ⟨by decide, by decide, fun c hc => ?_⟩
    have hc : c ∈ some [97] := hc
    cases hc
    decide
  obtain ⟨r, fs', hrun, -, hres, hparent⟩ := (lookup_lookupParent hp).2 _ _ SFS_BLKN_ROOT _
    (dirFs_refines (by decide : strlen dirName ≤ SFS_MAX_FNAME_LEN)) (dirTree_sound dirName) rfl rfl rfl Nat.one_pos
  exact ⟨r, fs', hrun, hres, hparent⟩

end Ucore.Sfs
