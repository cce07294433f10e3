import Ucore.Sfs.Act

/-!
# The operations keep the invariant of the tree

* `Tree.Small` — no link count has wrapped around.
* `Act.Fits` — what a call must leave room for.
* `Eff.sound` — every operation keeps the invariant.
-/

namespace Ucore.Sfs

open Occurrence Sfs.Tree

/-- No node should have more links than its counter can count. -/
def Tree.Small (t : Tree) : Prop := ∀ i, t.total i < 65536

/-- No link is added to a node whose counter is at its end, and `..` is not asked of a directory that has
been removed. -/
def Act.Fits (t : Tree) : Act → Prop
  | .mkdir d _ => ∀ n, t d = some n → n.nlinks < 65535
  | .link _ _ i => ∀ n, t i = some n → n.nlinks < 65535
  | .rename d nm d' _ => d ≠ d' → ∀ j i n, t.ent (d, j) = some (i, nm) → t.isDir i → t d' = some n →
    n.nlinks < 65535
  | .lookup d nm => nm = DOTDOT → ∀ n, t d = some n → n.removed = false
  | _ => True

section Facts

variable {t : Tree} {x : Option ℕ} {d j i b : ℕ} {nm : Name} {n ni nd : Node}

theorem Sound.nlinks_eq (h : Sound t x) (hsm : t.Small) (hi : t i = some n) (hr : n.removed = false) :
    n.nlinks = t.total i := by
  rw [h.links i n hi hr, Nat.mod_eq_of_lt (hsm i)]

/-- Both ends of an entry. -/
theorem Sound.ends (h : Sound t x) (he : t.ent (d, j) = some (i, nm)) :
    (∃ nd, t d = some nd ∧ nd.type = SFS_TYPE_DIR ∧ nd.removed = false ∧ nd.ents j = some (i, nm) ∧
      j < nd.blocks) ∧ ∃ ni, t i = some ni ∧ ni.removed = false := by
  obtain ⟨nd, hd, hj⟩ : ∃ nd, t d = some nd ∧ nd.ents j = some (i, nm) := by
    unfold ent at he
    cases hd : t d with
    | none => rw [hd] at he; cases he
    | some nd => exact ⟨nd, rfl, by rw [hd] at he; exact he⟩
  have hne : nd.ents j ≠ none := by
    rw [hj]
    nofun
  obtain ⟨hdir, hlt⟩ := h.inside d nd j hd hne
  obtain ⟨ni, hi⟩ := Option.ne_none_iff_exists'.mp (h.target _ _ _ he).1
  refine ⟨⟨nd, hd, hdir, ?_, hj, hlt⟩, ni, hi, ?_⟩
  · cases hr : nd.removed with
    | false => rfl
    | true => exact absurd ((h.gone d nd hd hr).2.2.1 j) hne
  · cases hr : ni.removed with
    | false => rfl
    | true => exact absurd he ((h.gone i ni hi hr).2.2.2 (d, j) nm)

/-- The links that go with an entry are counted. -/
theorem Sound.del_le (h : Sound t x) (hsm : t.Small) (he : t.ent (d, j) = some (i, nm)) {dir : Bool}
    (hkind : t.isDir i ↔ dir = true) {k : ℕ} (hk : t k = some n) :
    (if k = i then 1 else 0) + (if k = d ∧ dir then 1 else 0) ≤ n.nlinks := by
  obtain ⟨⟨nd, hd, hdir, hdlive, -⟩, ni, hi, hilive⟩ := h.ends he
  have hsum := total_del h.finite ⟨nd, hd, hdir⟩ he hkind k
  by_cases hki : k = i ∨ k = d
  · have hlive : n.removed = false := by
      rcases hki with rfl | rfl
      · rw [hi] at hk
        cases hk
        exact hilive
      · rw [hd] at hk
        cases hk
        exact hdlive
    rw [h.nlinks_eq hsm hk hlive]
    omega
  · obtain ⟨h1, h2⟩ := not_or.mp hki
    rw [if_neg h1, if_neg fun hc => h2 hc.1]
    exact Nat.zero_le _

theorem total_of_edit (hi : t i = some ni) (htype : n.type = ni.type) (hents : n.ents = ni.ents) (k : ℕ) :
    Tree.total (Function.update t i (some n)) k = t.total k := by
  rw [← edit_eq (f := fun _ => n) hi]
  have hnode : ∀ m, t i = some m → ni = m := fun m hm => Option.some.inj (hi.symm.trans hm)
  have hisDir : (t.edit i fun _ => n).isDir = t.isDir := isDir_edit fun m hm => by rw [← hnode m hm, htype]
  exact total_congr (ent_edit fun m hm => by rw [← hnode m hm, hents]) (fun _ _ => by rw [hisDir])
    (by rw [hisDir])

theorem ent_hold : (t.hold i).ent = t.ent := ent_edit fun _ _ => rfl

theorem isDir_hold : (t.hold i).isDir = t.isDir := isDir_edit fun _ _ => rfl

theorem total_hold (k : ℕ) : (t.hold i).total k = t.total k :=
  total_congr ent_hold (fun _ _ => by rw [isDir_hold]) (by rw [isDir_hold])

theorem hold_self (hi : t i = some ni) : t.hold i i = some { ni with ref := ni.ref + 1 } := edit_self hi

/-- What a node was before a reference to some node was dropped. -/
theorem drop_node {k : ℕ} {n' : Node} (hk : t.drop i k = some n') :
    ∃ n, t k = some n ∧ n' = { n with ref := n'.ref } := by
  unfold Tree.drop at hk
  by_cases hki : k = i
  · rw [hki, Function.update_self] at hk
    obtain ⟨n, hn, hdrop⟩ := Option.bind_eq_some_iff.mp hk
    refine ⟨n, hki ▸ hn, ?_⟩
    unfold Node.drop at hdrop
    split at hdrop
    · cases hdrop
      rfl
    · split at hdrop
      · cases hdrop
      · cases hdrop
        rfl
  · rw [Function.update_of_ne hki] at hk
    exact ⟨n', hk, rfl⟩

/-- What a node is after a reference to it has been taken. -/
theorem hold_node {k : ℕ} (hk : t k = some n) : ∃ r, n.ref ≤ r ∧ (k = i → 0 < r) ∧
    t.hold i k = some { n with ref := r } := by
  by_cases hki : k = i
  · subst hki
    exact ⟨n.ref + 1, Nat.le_succ _, fun _ => Nat.succ_pos _, edit_self hk⟩
  · exact ⟨n.ref, le_rfl, fun hc => absurd hc hki, (edit_of_ne hki).trans hk⟩

variable {k : ℕ} {dir : Bool}

variable (d j i nm dir) in
/-- What a node keeps when an entry is added. -/
theorem add_node (hk : t k = some n) : ∃ m, t.add d j i nm dir k = some m ∧ m.type = n.type ∧
    m.removed = n.removed ∧ m.ref = n.ref := by
  unfold Tree.add
  rw [hk]
  exact ⟨_, rfl, rfl, rfl, rfl⟩

variable (d j i dir) in
/-- What a node keeps when an entry is deleted. -/
theorem del_node (hk : t k = some n) : ∃ m, t.del d j i dir k = some m ∧ m.type = n.type ∧
    m.removed = n.removed ∧ m.ref = n.ref ∧ m.blocks = n.blocks ∧ (k ≠ d → m.info = n.info) := by
  unfold Tree.del
  rw [hk]
  exact ⟨_, rfl, rfl, rfl, rfl, rfl, fun hd => if_neg hd⟩

end Facts

section Small

variable {t : Tree} {d j i b : ℕ} {nm : Name} {n ni nd : Node}

theorem Tree.Small.hold (h : t.Small) : (t.hold i).Small := fun k => (total_hold k).trans_lt (h k)

/-- A node without links has no entries, not even for itself. -/
theorem Sound.bare (h : Sound t none) (hsm : t.Small) (hi : t i = some ni) (hl : ni.nlinks = 0) (j : ℕ) :
    ni.ents j = none := by
  by_contra hne
  have hdir := (h.inside i ni j hi hne).1
  cases hr : ni.removed with
  | true => exact hne ((h.gone i ni hi hr).2.2.1 j)
  | false =>
    have hlinks := h.nlinks_eq hsm hi hr
    unfold total own at hlinks
    rw [if_pos ⟨ni, hi, hdir⟩] at hlinks
    split at hlinks <;> omega

/-- The entries are there after a reference has been dropped. -/
theorem Sound.ent_drop (h : Sound t none) (hsm : t.Small) : (t.drop i).ent = t.ent := by
  cases hi : t i with
  | none =>
    unfold Tree.drop
    rw [hi]
    exact ent_update_bare (fun m hm => nomatch hi.symm.trans hm) nofun
  | some ni =>
    unfold Tree.drop
    rw [hi]
    show Tree.ent (Function.update t i ni.drop) = t.ent
    unfold Node.drop
    by_cases h1 : ni.ref = 1
    · rw [if_neg (not_not.mpr h1)]
      by_cases hl : ni.nlinks = 0
      · rw [if_pos hl]
        exact ent_update_bare (fun m hm => by cases hi.symm.trans hm; exact h.bare hsm hi hl) nofun
      · rw [if_neg hl, ← edit_eq (f := fun n => { n with ref := 0 }) hi]
        exact ent_edit fun _ _ => rfl
    · rw [if_pos h1, ← edit_eq (f := fun n => { n with ref := n.ref - 1 }) hi]
      exact ent_edit fun _ _ => rfl

/-- A reference is dropped: if the node goes, nothing was due to it. -/
theorem Tree.Small.drop (hsm : t.Small) (h : Sound t none) (hi : t i = some ni) : (t.drop i).Small := by
  intro k
  have hent := h.ent_drop hsm (i := i)
  unfold Tree.drop at hent ⊢
  rw [hi] at hent ⊢
  show Tree.total (Function.update t i ni.drop) k < 65536
  change Tree.ent (Function.update t i ni.drop) = t.ent at hent
  unfold Node.drop at hent ⊢
  by_cases h1 : ni.ref = 1
  · rw [if_neg (not_not.mpr h1)] at hent ⊢
    by_cases hl : ni.nlinks = 0
    · rw [if_pos hl] at hent ⊢
      -- no entry names a node whose links are all gone
      have hnamed : ∀ k', (∃ p nm, t.ent p = some (k', nm)) → k' ≠ i := by
        rintro k' ⟨⟨d, j⟩, nm, he⟩ rfl
        obtain ⟨-, m, hm, hlive⟩ := h.ends he
        rw [hi] at hm
        cases hm
        have hlinks := h.nlinks_eq hsm hi hlive
        have hpos : t.names k' ≠ 0 := occ_ne_zero (a := (d, j)) (finite_names h.finite k') ⟨nm, he⟩
        unfold total at hlinks
        omega
      by_cases hk : k = i
      · have hzero : Tree.own (Function.update t i none) i = 0 := by
          unfold own
          rw [if_neg]
          rintro ⟨m, hm, -⟩
          rw [Function.update_self] at hm
          cases hm
        have hle : t.names i ≤ t.total i := Nat.le_add_right _ _
        rw [hk]
        unfold total names
        rw [hzero, hent]
        exact Nat.lt_of_le_of_lt hle (hsm i)
      · have hsame : Tree.total (Function.update t i none) k = t.total k :=
          total_congr hent (fun k' hk' => isDir_update_of_ne (hnamed k' hk')) (isDir_update_of_ne hk)
        rw [hsame]
        exact hsm k
    · rw [if_neg hl]
      exact (total_of_edit (n := { ni with ref := 0 }) hi rfl rfl k).trans_lt (hsm k)
  · rw [if_pos h1]
    exact (total_of_edit (n := { ni with ref := ni.ref - 1 }) hi rfl rfl k).trans_lt (hsm k)

/-- The entry that makes room for a link takes it away first. -/
theorem Tree.Small.del (hsm : t.Small) (h : Sound t none) (he : t.ent (d, j) = some (i, nm)) {dir : Bool}
    (hkind : t.isDir i ↔ dir = true) : (t.del d j i dir).Small := by
  intro k
  obtain ⟨⟨nd, hd, hdir, -⟩, -⟩ := h.ends he
  have hsum := total_del h.finite ⟨nd, hd, hdir⟩ he hkind k
  have := hsm k
  omega

theorem Tree.Small.remove (hsm : t.Small) (hi : t i = some ni) : (t.remove i).Small := fun k => by
  unfold Tree.remove
  rw [edit_eq hi]
  exact (total_of_edit (n := { ni with nlinks := ni.nlinks - 1, removed := true }) hi rfl rfl k).trans_lt (hsm k)

theorem Sound.small_add {x : Option ℕ} (h : Sound t x) (hd : t.isDir d) (hempty : t.ent (d, j) = none)
    {dir : Bool} (hkind : t.isDir i ↔ dir = true)
    (hfit : ∀ k, t.total k + (if k = i then 1 else 0) + (if k = d ∧ dir then 1 else 0) < 65536) :
    (t.add d j i nm dir).Small := fun k =>
  (total_add h.finite hd hempty hkind k).trans_lt (hfit k)

/-- A slot that is free for an entry is so after a node has been added. -/
theorem Tree.Room.insert (hr : t.Room d j nm nd) (hb : t b = none) (hbare : ∀ j, n.ents j = none) :
    (t.insert b n).Room d j nm nd := by
  have hne : d ≠ b := by
    rintro rfl
    rw [hr.node] at hb
    cases hb
  have hent : (t.insert b n).ent = t.ent :=
    ent_update_bare (fun m hm => by rw [hb] at hm; cases hm) fun m hm => by cases hm; exact hbare
  exact ⟨(Function.update_of_ne hne ..).trans hr.node, hr.dir, hr.live, hr.held, by rw [hent]; exact hr.empty,
    by rw [hent]; exact hr.fresh, hr.cap⟩

end Small

/-! ## Every operation -/

section Sound

variable {t t' : Tree} {d j i b : ℕ} {nm : Name} {n ni nd : Node}

/-- A new node gets its entry. -/
theorem Sound.enter (h : Sound t none) (hsm : t.Small) (hr : t.Room d j nm nd) (hb : t b = none) {dir : Bool}
    (hkind : dir = true ↔ n.type = SFS_TYPE_DIR) (hrem : n.removed = false)
    (hnlinks : n.nlinks = if dir then 1 else 0) (hbare : ∀ j, n.ents j = none) (hinfo : n.info = 0)
    (href : 0 < n.ref) (hfit : dir = true → nd.nlinks < 65535) :
    Sound ((t.insert b n).add d j b nm dir) none ∧ ((t.insert b n).add d j b nm dir).Small := by
  have hs : Sound (t.insert b n) (if dir then some b else none) := h.insert hb hkind hrem hnlinks hbare hinfo
  have hr' := hr.insert hb hbare
  have hself : t.insert b n b = some n := Function.update_self ..
  have hbroot : b ≠ SFS_BLKN_ROOT := by
    rintro rfl
    obtain ⟨m, hm, -⟩ := h.root
    rw [hb] at hm
    cases hm
  have hdb : d ≠ b := by
    rintro rfl
    have := hr.node
    rw [hb] at this
    cases this
  refine ⟨hs.add hr'.node hr'.dir hr'.live hr'.held hr'.empty hr'.fresh hr'.cap hself hrem href hbroot rfl hkind,
    hs.small_add ⟨nd, hr'.node, hr'.dir⟩ hr'.empty ((Sound.isDir_iff hself).trans hkind.symm) fun k => ?_⟩
  have htotal : Tree.total (t.insert b n) k = if k = b then (if dir then 1 else 0) else t.total k :=
    h.total_insert hb hkind hbare k
  have hd := h.nlinks_eq hsm hr.node hr.live
  have hk := hsm k
  rw [htotal]
  by_cases hkb : k = b
  · have hkd : ¬ (k = d ∧ dir = true) := fun hc => hdb (hc.1.symm.trans hkb)
    rw [if_pos hkb, if_pos hkb, if_neg hkd]
    split <;> omega
  · rw [if_neg hkb, if_neg hkb]
    by_cases hkd : k = d ∧ dir = true
    · have := hfit hkd.2
      rw [if_pos hkd, hkd.1]
      omega
    · rw [if_neg hkd]
      omega

/-- An entry leaves its directory, while somebody holds the node. -/
theorem Sound.leave (h : Sound t none) (hsm : t.Small) (he : t.ent (d, j) = some (i, nm)) (hi : t i = some ni)
    {dir : Bool} (hkind : dir = true ↔ ni.type = SFS_TYPE_DIR) :
    Sound ((t.hold i).del d j i dir) (if dir then some i else none) ∧ ((t.hold i).del d j i dir).Small := by
  have he' : (t.hold i).ent (d, j) = some (i, nm) := by rwa [ent_hold]
  have hdirs : (t.hold i).isDir i ↔ dir = true := by rw [isDir_hold, Sound.isDir_iff hi, hkind]
  exact ⟨h.hold.del he' (edit_self hi) hkind fun k m hk => h.hold.del_le hsm.hold he' hdirs hk,
    hsm.hold.del h.hold he' hdirs⟩

/-- The tree before the reference that `sfs_unlink_nolock` holds is dropped, and the same for the other operations
that hold a node while they run. -/
structure Settled (t : Tree) (i : ℕ) : Prop where
  sound : Sound t none
  small : t.Small
  held : ∃ n, t i = some n ∧ 0 < n.ref

theorem Settled.drop (h : Settled t i) : Sound (t.drop i) none ∧ (t.drop i).Small := by
  obtain ⟨n, hn, href⟩ := h.held
  exact ⟨h.sound.drop hn (fun _ => h.small i) href, h.small.drop h.sound hn⟩

/-- `sfs_mkdir_nolock`. -/
theorem Sound.made (h : Sound t none) (hsm : t.Small) (hr : t.Room d j nm nd) (hb : t b = none)
    (hfit : nd.nlinks < 65535) : Settled ((t.insert b freshDir).add d j b nm true) b := by
  have hkind : true = true ↔ freshDir.type = SFS_TYPE_DIR := iff_of_true rfl rfl
  obtain ⟨hs, hsm'⟩ := h.enter hsm hr hb hkind rfl rfl (fun _ => rfl) rfl Nat.one_pos fun _ => hfit
  have hself : t.insert b freshDir b = some freshDir := Function.update_self ..
  obtain ⟨m, hm, -, -, href⟩ := add_node d j b nm true hself
  exact ⟨hs, hsm', m, hm, href ▸ Nat.one_pos⟩

/-- `sfs_unlink_nolock` of a file. -/
theorem Sound.unlinked (h : Sound t none) (hsm : t.Small) (he : t.ent (d, j) = some (i, nm)) (hi : t i = some ni)
    (hfile : ni.type ≠ SFS_TYPE_DIR) : Settled ((t.hold i).del d j i false) i := by
  have hkind : false = true ↔ ni.type = SFS_TYPE_DIR := iff_of_false nofun hfile
  obtain ⟨hs, hsm'⟩ := h.leave hsm he hi hkind
  obtain ⟨m, hm, -, -, href, -⟩ := del_node d j i false (hold_self hi)
  exact ⟨hs, hsm', m, hm, href ▸ Nat.succ_pos _⟩

/-- `sfs_unlink_nolock` of an empty directory. -/
theorem Sound.emptied (h : Sound t none) (hsm : t.Small) (he : t.ent (d, j) = some (i, nm)) (hi : t i = some ni)
    (hdir : ni.type = SFS_TYPE_DIR) (hne : d ≠ i) (hinfo : ni.info = 0) :
    Settled (((t.hold i).del d j i true).remove i) i := by
  have hkind : true = true ↔ ni.type = SFS_TYPE_DIR := iff_of_true rfl hdir
  obtain ⟨hs, hsm'⟩ := h.leave hsm he hi hkind
  have hs' : Sound ((t.hold i).del d j i true) (some i) := hs
  obtain ⟨m, hm, -, -, href, -, hsame⟩ := del_node d j i true (hold_self hi)
  exact ⟨hs'.remove hm ((hsame (Ne.symm hne)).trans hinfo), hsm'.remove hm, _, edit_self hm,
    (href ▸ Nat.succ_pos _ : 0 < m.ref)⟩

/-- The table of entries after one has left. -/
theorem Sound.ent_leave (h : Sound t none) (he : t.ent (d, j) = some (i, nm)) (dir : Bool) :
    ((t.hold i).del d j i dir).ent = Function.update t.ent (d, j) none := by
  obtain ⟨⟨nd, hd, -⟩, -⟩ := h.ends he
  obtain ⟨r, -, -, hd'⟩ := hold_node (i := i) hd
  rw [ent_del (has_of hd'), ent_hold]

/-- `sfs_rename2_nolock`. -/
theorem Sound.moved {d' j' : ℕ} {nm' : Name} {nd' : Node} {dir : Bool} (h : Sound t none) (hsm : t.Small)
    (hne : d ≠ d') (he : t.ent (d, j) = some (i, nm)) (hr : t.Room d' j' nm' nd') (hi : t i = some ni)
    (hkind : dir = true ↔ ni.type = SFS_TYPE_DIR) (hfit : dir = true → nd'.nlinks < 65535) :
    Settled (((t.hold i).del d j i dir).add d' j' i nm' dir) i := by
  obtain ⟨hs, hsm'⟩ := h.leave hsm he hi hkind
  obtain ⟨⟨nd, hd, hdir, -⟩, n, hn, hlive⟩ := h.ends he
  rw [hi] at hn
  cases hn
  have hother : ∀ m, ((t.hold i).del d j i dir).ent (d', m) = t.ent (d', m) := fun m => by
    rw [h.ent_leave he, Function.update_of_ne fun hc => hne (Prod.mk.inj hc).1.symm]
  -- both directories, and the node, are still there
  obtain ⟨r, hle, -, hd₁⟩ := hold_node (i := i) hr.node
  obtain ⟨m', hm', ht', hr', hf', hb', -⟩ := del_node d j i dir hd₁
  obtain ⟨m, hm, ht, hrem, href, -⟩ := del_node d j i dir (hold_self hi)
  have hkind' : dir = true ↔ m.type = SFS_TYPE_DIR := by rw [ht, hkind]
  have hempty : ((t.hold i).del d j i dir).ent (d', j') = none := (hother j').trans hr.empty
  have hs₂ := hs.add hm' (ht'.trans hr.dir) (hr'.trans hr.live) (hf' ▸ hr.held.trans_le hle) hempty
    (fun a k => by rw [hother a]; exact hr.fresh a k) (by rw [hb']; exact hr.cap) hm (hrem.trans hlive)
    (href ▸ Nat.succ_pos _) (h.target _ _ _ he).2 rfl hkind'
  have hsm₂ : ((((t.hold i).del d j i dir).add d' j' i nm' dir)).Small :=
    hs.small_add ⟨m', hm', ht'.trans hr.dir⟩ hempty ((Sound.isDir_iff hm).trans hkind'.symm) fun k => by
      obtain ⟨r₀, -, -, hd₀⟩ := hold_node (i := i) hd
      have hdirs : (t.hold i).isDir i ↔ dir = true := by rw [isDir_hold, Sound.isDir_iff hi, hkind]
      have he₀ : (t.hold i).ent (d, j) = some (i, nm) := by rwa [ent_hold]
      have hsum := total_del h.hold.finite ⟨_, hd₀, hdir⟩ he₀ hdirs k
      rw [total_hold] at hsum
      by_cases hkd : k = d' ∧ dir = true
      · have hlt := hfit hkd.2
        rw [h.nlinks_eq hsm hr.node hr.live, ← hkd.1] at hlt
        rw [if_pos hkd]
        omega
      · have := hsm k
        rw [if_neg hkd]
        omega
  obtain ⟨m₂, hm₂, -, -, href₂⟩ := add_node d' j' i nm' dir hm
  exact ⟨hs₂, hsm₂, m₂, hm₂, href₂ ▸ href ▸ Nat.succ_pos _⟩

/-- Every operation keeps the invariant, as long as the link counts do not wrap around. -/
theorem Eff.sound {a : Act} {o : Option ℕ} (he : Eff t a o t') (h : Sound t none) (hsm : t.Small) (hfit : a.Fits t) :
    Sound t' none ∧ t'.Small := by
  cases he with
  | reopen he hi hfile => exact ⟨h.hold, hsm.hold⟩
  | create hr hb =>
    exact h.enter hsm hr hb (by decide) rfl rfl (fun _ => rfl) rfl Nat.one_pos nofun
  | mkdir hr hb => exact (h.made hsm hr hb (hfit _ hr.node)).drop
  | link hr hi hfile href =>
    rename_i d j i nm nd ni
    have hlive : ni.removed = false := by
      cases hrem : ni.removed with
      | false => rfl
      | true => exact absurd (h.gone i ni hi hrem).1 hfile
    have hroot : i ≠ SFS_BLKN_ROOT := by
      rintro rfl
      obtain ⟨m, hm, hdir, -⟩ := h.root
      rw [hi] at hm
      cases hm
      exact hfile hdir
    have hkind : false = true ↔ ni.type = SFS_TYPE_DIR := iff_of_false nofun hfile
    refine ⟨h.add hr.node hr.dir hr.live hr.held hr.empty hr.fresh hr.cap hi hlive href hroot rfl hkind,
      h.small_add ⟨nd, hr.node, hr.dir⟩ hr.empty ((Sound.isDir_iff hi).trans hkind.symm) fun k => ?_⟩
    have hi' := h.nlinks_eq hsm hi hlive
    have hlt := hfit ni hi
    have hk := hsm k
    rw [if_neg (fun hc => nomatch hc.2 : ¬ (k = d ∧ false = true))]
    by_cases hki : k = i
    · rw [if_pos hki, hki]
      omega
    · rw [if_neg hki]
      omega
  | unlink he hi hfile => exact (h.unlinked hsm he hi hfile).drop
  | rmdir he hi hdir hne hinfo => exact (h.emptied hsm he hi hdir hne hinfo).drop
  | renameSame => exact ⟨h, hsm⟩
  | rename1 he hfresh =>
    rename_i d j i nm nm'
    refine ⟨h.put he hfresh, fun k => ?_⟩
    obtain ⟨⟨nd, hd, hdir, -⟩, -⟩ := h.ends he
    have hent : (t.put d j i nm').ent = Function.update t.ent (d, j) (some (i, nm')) :=
      ent_edit_slot (has_of hd) fun _ _ => rfl
    rw [total_rename h.finite he hent (isDir_edit fun _ _ => rfl) ⟨nd, hd, hdir⟩]
    exact hsm k
  | rename2 hne he hr hi hkind =>
    exact (h.moved hsm hne he hr hi hkind fun hdir =>
      hfit hne _ _ _ he ((Sound.isDir_iff hi).mpr (hkind.mp hdir)) hr.node).drop
  | lookup hi hl => exact ⟨h.hold, hsm.hold⟩
  | root => exact ⟨h.hold, hsm.hold⟩
  | drop hi href => exact ⟨h.drop hi (fun _ => hsm _) href, hsm.drop h hi⟩

end Sound

end Ucore.Sfs
