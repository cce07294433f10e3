import Ucore.Sfs.ActSpec

/-!
# The operations on the tree

Each operation of `sfs_inode.c` on directories has the effect `Eff` if it succeeds, and none if it fails: an
entry that has left its directory is put back, and an inode that has been created is freed again.

* `create_spec`, `mkdir_spec`, `link_spec`, `unlink_spec`, `rename_spec`, `lookup_spec` — the operations.
* `exec_spec` — every call ends as `Outcome` says, or meets one of the panics in `Act.Jams`.
-/

namespace Ucore.Sfs

open Bytes Sfs.Tree

section Ends

variable {fs : Fs} {t t' : Tree} {c : ℕ → ℕ → UInt8} {X : Prop} {d i j b : ℕ} {nm : Name} {n nd ni : Node}

theorem Lost.refl : Lost X t t := .inl rfl

/-- No node is new. -/
theorem Stores.kept_old (h : Stores fs t' c X) (hold : ∀ k, t'.has k → t.has k) : Stores fs t' (t.kept c) X :=
  h.contents fun j _ hj _ => if_neg (hold j (has_of hj))

theorem Stores.kept (h : Stores fs t c X) : Stores fs t (t.kept c) X := h.kept_old fun _ => id

/-- The nodes are those that were there, and one that is new. -/
theorem Stores.kept_new (h : Stores fs t' (Function.update c b fun _ => 0) X) (hb : t b = none)
    (hold : ∀ k, k ≠ b → t' k ≠ none → t k ≠ none) : Stores fs t' (t.kept c) X := by
  refine h.contents fun k n hk _ => ?_
  unfold Tree.kept
  by_cases hkb : k = b
  · rw [hkb, if_pos hb, Function.update_self]
  · rw [if_neg (hold k hkb (by rw [hk]; nofun)), Function.update_of_ne hkb]

/-- The call has failed, and left no trace. -/
theorem Outcome.fail {a : Act} {e : Err} (h : Stores fs t c X) (hf : Fails t a e) : Outcome t c X a (.error e) fs :=
  ⟨hf, t, Lost.refl, h.kept⟩

theorem Stores.blocks_le (h : Stores fs t c X) (hn : t d = some n) (href : 0 < n.ref)
    (hdir : n.type = SFS_TYPE_DIR) : n.blocks ≤ NLEAF := by
  obtain ⟨s, hs, rfl⟩ := h.cached hn href
  exact (h.filled_lk hs hdir).blocks_le

/-- The name is new, and the search has found a slot for it. -/
theorem Scan.room {r : Search} (hr : Scan n nm r) (h : Stores fs t c X) (hd : t d = some n) (href : 0 < n.ref)
    (hdir : n.type = SFS_TYPE_DIR) (hlive : n.removed = false) (hmiss : r.found = none) :
    t.Room d r.empty nm n := by
  have hle := h.blocks_le hd href hdir
  have hslot := hr.empty.1
  refine ⟨hd, hdir, hlive, href, ?_, fun j' i' => ?_, ?_⟩
  · rw [ent_of hd]
    exact hr.empty.2 hmiss
  · rw [ent_of hd]
    exact hr.miss hmiss j' i'
  · unfold NLEAF at hle
    omega

/-- The slot is beyond the last block that a directory can have. -/
theorem Scan.full {r : Search} (hr : Scan n nm r) (h : Stores fs t c X) (hd : t d = some n) (href : 0 < n.ref)
    (hdir : n.type = SFS_TYPE_DIR) (he : r.empty = NLEAF) : n.blocks = NLEAF := by
  have hle := hr.empty.1
  exact Nat.le_antisymm (h.blocks_le hd href hdir) (he ▸ hle)

theorem Scan.ent {r : Search} (hr : Scan n nm r) (hd : t d = some n) (hhit : r.found = some (i, j)) :
    t.ent (d, j) = some (i, nm) := by
  rw [ent_of hd]
  exact (hr.hit i j hhit).1

theorem Scan.none {r : Search} (hr : Scan n nm r) (hd : t d = some n) (hmiss : r.found = none) (j i : ℕ) :
    t.ent (d, j) ≠ some (i, nm) := by
  rw [ent_of hd]
  exact hr.miss hmiss j i

/-- `sfs_load_inode` of a node. -/
theorem loadInode_stores (h : Stores fs t c X) (hi : t.has i) :
    ∃ fs', loadInode i fs = some (.ok (), fs') ∧ Stores fs' (t.hold i) c X := by
  obtain ⟨n, hn⟩ := Option.ne_none_iff_exists'.mp hi
  obtain ⟨fs', heq, hst⟩ := loadInode_spec h hn
  refine ⟨fs', heq, ?_⟩
  unfold Tree.hold
  rwa [edit_eq hn]

theorem Lost.has {k : ℕ} (h : Lost X t t') (hk : t'.has k) : t.has k := by
  rcases h with rfl | ⟨i, n, b, -, hn, -, -, rfl⟩
  · exact hk
  · rwa [Tree.has_update (has_of hn)] at hk

theorem has_hold {k : ℕ} : (t.hold i).has k ↔ t.has k := has_edit

theorem has_add {k : ℕ} {dir : Bool} : (t.add d j i nm dir).has k ↔ t.has k := by
  unfold Tree.has Tree.add
  simp

theorem has_del {k : ℕ} {dir : Bool} : (t.del d j i dir).has k ↔ t.has k := by
  unfold Tree.has Tree.del
  simp

theorem has_insert_of_ne {k : ℕ} (hk : k ≠ b) : (t.insert b n).has k ↔ t.has k := by
  unfold Tree.has Tree.insert
  rw [Function.update_of_ne hk]

theorem has_drop {k : ℕ} (h : (t.drop i).has k) : t.has k := by
  unfold Tree.has Tree.drop at *
  by_cases hk : k = i
  · rw [hk, Function.update_self] at h
    rw [hk]
    intro hi
    rw [hi] at h
    exact h rfl
  · rwa [Function.update_of_ne hk] at h

/-- A node that an entry names is held and dropped again. -/
theorem hold_drop_ent (hs : Sound t none) (he : t.ent (d, j) = some (i, nm)) (hi : t i = some ni) :
    (t.hold i).drop i = t := hold_drop hi ((Linked.of_ent hs he).stays hs hi)

/-- `vop_ref_dec`: a directory is dropped with all of its slots. -/
theorem refDec_stores (h : Stores fs t c X) (hi : t i = some ni) (href : 0 < ni.ref)
    (hrem : ni.removed = true → ni.nlinks = 0) : ∃ fs' t', refDec i fs = some (.ok (), fs') ∧
      Lost X (t.drop i) t' ∧ (ni.type = SFS_TYPE_DIR → t' = t.drop i) ∧ Stores fs' t' c X := by
  obtain ⟨fs', b, heq, hle, hb, hst⟩ := refDec_spec h hi href hrem
  have hdrop : t.drop i = Function.update t i ni.drop := by
    unfold Tree.drop
    rw [hi]
    rfl
  by_cases hx : X ∧ ni.type = SFS_TYPE_FILE
  · refine ⟨fs', _, heq, ?_, fun hdir => ?_, hst⟩
    · unfold Node.fade
      cases hm : ni.drop with
      | none =>
        rw [hdrop, hm]
        exact .inl rfl
      | some m =>
        have hsame : m.type = ni.type ∧ m.blocks = ni.blocks := by
          unfold Node.drop at hm
          split at hm
          · cases hm
            exact ⟨rfl, rfl⟩
          · split at hm
            · cases hm
            · cases hm
              exact ⟨rfl, rfl⟩
        refine .inr ⟨i, m, b, hx.1, ?_, hsame.1.trans hx.2, hsame.2 ▸ hle, ?_⟩
        · rw [hdrop, hm, Function.update_self]
        · rw [hdrop, hm, Function.update_idem]
          rfl
    · rw [hx.2] at hdir
      exact absurd hdir (by decide)
  · rw [hb hx, Node.fade_self, ← hdrop] at hst
    exact ⟨fs', _, heq, Lost.refl, fun _ => rfl, hst⟩

/-- `vop_ref_dec` of a node that an entry names, and that has been loaded. -/
theorem release_spec (hs : Sound t none) (h : Stores fs (t.hold i) c X) (he : t.ent (d, j) = some (i, nm))
    (hi : t i = some ni) : ∃ fs' t', refDec i fs = some (.ok (), fs') ∧ Lost X t t' ∧
      (ni.type = SFS_TYPE_DIR → t' = t) ∧ Stores fs' t' c X := by
  obtain ⟨-, m, hm, hlive⟩ := hs.ends he
  cases hi.symm.trans hm
  have hdrop := refDec_stores h (hold_self hi) (Nat.succ_pos _) fun hr => nomatch hlive.symm.trans hr
  rwa [hold_drop_ent hs he hi] at hdrop

end Ends

/-! ## Creating -/

section Create

variable {fs : Fs} {t t' : Tree} {c : ℕ → ℕ → UInt8} {X : Prop} {d i j b : ℕ} {nm : Name} {n nd ni : Node}

/-- The checks of the names at the start of an operation. -/
theorem checkName_wpx {α : Type} {a : Act} {e : Err} {x : Op Fs Err α} {F : Prop} {Q : Except Err α → Fs → Prop}
    (hname : nm ∈ a.names) (hdots : (nm, e) ∈ a.dots) (hfail : ∀ e, Fails t a e → Q (.error e) fs)
    (hgo : strlen nm ≤ SFS_MAX_FNAME_LEN → Op.wpx F x Q fs) : Op.wpx F (do checkName nm e; x) Q fs := by
  unfold checkName
  by_cases hlen : SFS_MAX_FNAME_LEN < strlen nm
  · rw [if_pos hlen]
    exact hfail _ (.tooBig hname hlen)
  · rw [if_neg hlen]
    by_cases hdot : nm = DOT ∨ nm = DOTDOT
    · rw [if_pos hdot]
      exact hfail _ (.dots hdots hdot)
    · rw [if_neg hdot]
      exact Op.wpx_bind_of_ok rfl (hgo (Nat.not_lt.mp hlen))

theorem asDir_wpx {α : Type} {a : Act} {x : Op Fs Err α} {F : Prop} {Q : Except Err α → Fs → Prop}
    (h : Stores fs t c X) (hd : t d = some n) (href : 0 < n.ref) (hdirs : a.dirs.head? = some d)
    (hfail : ∀ e, Fails t a e → Q (.error e) fs) (hgo : n.type = SFS_TYPE_DIR → Op.wpx F x Q fs) :
    Op.wpx F (do asDir d; x) Q fs := by
  have hdir := asDir_eq h hd href
  by_cases htype : n.type = SFS_TYPE_DIR
  · rw [if_pos htype] at hdir
    exact Op.wpx_bind_of_ok hdir (hgo htype)
  · rw [if_neg htype] at hdir
    exact Op.wpx_bind_of_error hdir (hfail _ (.notDir hdirs hd htype))

theorem trylock_wpx {α : Type} {a : Act} {x : Op Fs Err α} {F : Prop} {Q : Except Err α → Fs → Prop}
    (h : Stores fs t c X) (hd : t d = some n) (href : 0 < n.ref) (hdirs : d ∈ a.dirs)
    (hfail : ∀ e, Fails t a e → Q (.error e) fs) (hgo : n.removed = false → Op.wpx F x Q fs) :
    Op.wpx F (do trylockSin d; x) Q fs := by
  have hlock := trylockSin_eq h hd href
  cases hrem : n.removed with
  | true =>
    rw [if_pos hrem] at hlock
    exact Op.wpx_bind_of_error hlock (hfail _ (.removed hdirs hd hrem))
  | false =>
    rw [if_neg (by rw [hrem]; nofun)] at hlock
    exact Op.wpx_bind_of_ok hlock (hgo hrem)

/-- How `sfs_create`, `sfs_mkdir` and `sfs_unlink` begin. -/
theorem enter_wpx {α : Type} {a : Act} {e : Err} {x : Op Fs Err α} {F : Prop} {Q : Except Err α → Fs → Prop}
    (h : Stores fs t c X) (hd : t d = some n) (href : 0 < n.ref) (hdirs : a.dirs.head? = some d)
    (hname : nm ∈ a.names)
    (hdots : (nm, e) ∈ a.dots) (hfail : ∀ e, Fails t a e → Q (.error e) fs)
    (hgo : n.type = SFS_TYPE_DIR → strlen nm ≤ SFS_MAX_FNAME_LEN → n.removed = false → Op.wpx F x Q fs) :
    Op.wpx F (do asDir d; checkName nm e; trylockSin d; x) Q fs :=
  asDir_wpx h hd href hdirs hfail fun hdir => checkName_wpx hname hdots hfail fun hlen =>
    trylock_wpx h hd href (List.mem_of_mem_head? hdirs) hfail (hgo hdir hlen)

/-- The other nodes stay. -/
theorem insert_node (hb : t b = none) (hd : t d = some n) {m : Node} : t.insert b m d = some n := by
  refine (Function.update_of_ne ?_ ..).trans hd
  rintro rfl
  rw [hb] at hd
  cases hd

/-- The inode that was created goes again. -/
theorem discard_spec {type : ℕ} (h : Stores fs (t.insert b (freshNode type)) c X) (hb : t b = none) :
    ∃ fs', refDec b fs = some (.ok (), fs') ∧ Stores fs' t c X := by
  have hself : t.insert b (freshNode type) b = some (freshNode type) := Function.update_self ..
  obtain ⟨fs', e, heq, -, -, hst⟩ := refDec_spec h hself Nat.one_pos nofun
  have hgone : (freshNode type).fade e = none := rfl
  unfold Tree.insert at hst
  rw [hgone, Function.update_idem, ← hb, Function.update_eq_self] at hst
  exact ⟨fs', heq, hst⟩

theorem create_spec (h : Stores fs t c X) (hs : Sound t none) (hd : t.Held d) (excl : Bool) :
    Op.wpx ((Act.create d nm excl).Jams t) (create d nm excl)
      (fun r fs' => Outcome t c X (.create d nm excl) (r.map some) fs') fs := by
  obtain ⟨n, hn, href⟩ := hd
  unfold create
  refine enter_wpx h hn href rfl List.mem_cons_self List.mem_cons_self (fun e he => Outcome.fail h he)
    fun hdir hlen hlive => ?_
  obtain ⟨r, hsearch, hscan⟩ := search_spec h hn href hdir hlen
  unfold createNolock
  refine Op.wpx_bind_of_ok hsearch ?_
  cases hfound : r.found with
  | some p =>
    obtain ⟨i, j⟩ := p
    have he := hscan.ent hn hfound
    dsimp only
    cases excl with
    | true => exact Outcome.fail h (.present rfl he nofun)
    | false =>
      obtain ⟨ni, hni⟩ := Option.ne_none_iff_exists'.mp (hs.target _ _ _ he).1
      obtain ⟨fs₁, hload, h₁⟩ := loadInode_stores h (has_of hni)
      obtain ⟨s, hsin, -, htype, -⟩ := sinOf_node h₁ (hold_self hni) (Nat.succ_pos _)
      rw [if_neg nofun]
      refine Op.wpx_bind_of_ok hload (Op.wpx_bind_of_ok hsin ?_)
      rw [htype]
      by_cases hfile : ni.type = SFS_TYPE_FILE
      · rw [if_pos hfile]
        have hne : ni.type ≠ SFS_TYPE_DIR := by
          rw [hfile]
          decide
        exact ⟨_, _, .reopen he hni hne, Lost.refl, h₁.kept_old fun k => has_hold.mp⟩
      · rw [if_neg hfile]
        have hisdir : ni.type = SFS_TYPE_DIR := (h.type i ni hni).resolve_right hfile
        obtain ⟨fs₂, t₂, hdec, -, hsame, h₂⟩ := release_spec hs h₁ he hni
        rw [hsame hisdir] at h₂
        exact Op.wpx_bind_of_ok hdec (Outcome.fail h₂ (.present rfl he fun _ _ _ => ⟨ni, hni, hisdir⟩))
  | none =>
    refine Op.wpx_bind (Op.wpx_mono (Op.wpx_of_wp (direntCreateInode_spec h (.inr rfl))) ?_)
    rintro r' fs₁ (⟨b, rfl, hb, -, -, -, h₁⟩ | ⟨rfl, rfl⟩)
    · have hself : t.insert b (freshNode SFS_TYPE_FILE) b = some (freshNode SFS_TYPE_FILE) := Function.update_self ..
      refine Op.wpx_bind (Op.wpx_attempt (Op.wpx_mono (direntLink_spec h₁ (insert_node hb hn) href hdir
        hscan.empty.1 ⟨_, hself, Nat.one_pos⟩ hlen fun he => ⟨n, hn, hscan.full h hn href hdir he⟩) ?_))
      · rintro r'' fs₂ (⟨rfl, h₂⟩ | ⟨rfl, -, h₂⟩)
        · have hroom := hscan.room h hn href hdir hlive hfound
          refine ⟨_, _, .create hroom hb, Lost.refl, h₂.kept_new hb fun k hk hhas => ?_⟩
          exact (has_insert_of_ne hk).mp (has_add.mp hhas)
        · obtain ⟨fs₃, hdec, h₃⟩ := discard_spec h₂ hb
          refine Op.wpx_bind_of_ok hdec ⟨.noMem nofun, t, Lost.refl, h₃.kept_new hb fun _ _ => id⟩
    · exact Outcome.fail h (.noMem nofun)

/-- What the steps of `sfs_mkdir_nolock` come to. -/
theorem mkdir_eq_edits (hb : t b = none) (hd : t d = some n) :
    ((((t.insert b (freshNode SFS_TYPE_DIR)).add d j b nm false).edit b fun n => { n with parent := d }).edit b
      fun n => { n with nlinks := (n.nlinks + 1) % 65536 }).edit d (fun n =>
        { n with nlinks := (n.nlinks + 1) % 65536 }) = (t.insert b freshDir).add d j b nm true := by
  have hne : d ≠ b := by
    rintro rfl
    rw [hb] at hd
    cases hd
  funext k
  rw [edit_apply, edit_apply, edit_apply]
  show ((((t.insert b _ k).map _).map _).map _).map _ = (t.insert b _ k).map _
  simp only [Option.map_map]
  by_cases hk : k = b
  · subst hk
    have hself : ∀ m, t.insert k m k = some m := fun m => Function.update_self ..
    rw [hself, hself]
    simp [freshDir, freshNode, Ne.symm hne]
  · have hother : ∀ m, t.insert b m k = t k := fun m => Function.update_of_ne hk ..
    rw [hother, hother]
    congr 1
    funext m
    rcases eq_or_ne k d with rfl | hkd
    · simp [hk]
    · simp [hk, hkd]

theorem mkdir_spec (h : Stores fs t c X) (hd : t.Held d) :
    Op.wpx ((Act.mkdir d nm).Jams t) (mkdir d nm)
      (fun r fs' => Outcome t c X (.mkdir d nm) (r.map fun _ => none) fs') fs := by
  obtain ⟨n, hn, href⟩ := hd
  unfold mkdir
  refine enter_wpx h hn href rfl List.mem_cons_self List.mem_cons_self (fun e he => Outcome.fail h he)
    fun hdir hlen hlive => ?_
  obtain ⟨r, hsearch, hscan⟩ := search_spec h hn href hdir hlen
  unfold mkdirNolock
  refine Op.wpx_bind_of_ok hsearch ?_
  cases hfound : r.found with
  | some p =>
    rw [if_pos (Option.isSome_some : (some p).isSome = true)]
    exact Outcome.fail h (.present rfl (hscan.ent hn hfound) nofun)
  | none =>
    rw [if_neg (by simp)]
    refine Op.wpx_bind (Op.wpx_mono (Op.wpx_of_wp (direntCreateInode_spec h (.inl rfl))) ?_)
    rintro r' fs₁ (⟨b, rfl, hb, -, -, -, h₁⟩ | ⟨rfl, rfl⟩)
    · have h₁ : Stores fs₁ (t.insert b (freshNode SFS_TYPE_DIR)) (Function.update c b fun _ => 0) X := h₁
      have hself : t.insert b (freshNode SFS_TYPE_DIR) b = some (freshNode SFS_TYPE_DIR) := Function.update_self ..
      refine Op.wpx_bind (Op.wpx_attempt (Op.wpx_mono (direntLink_spec h₁ (insert_node hb hn) href hdir
        hscan.empty.1 ⟨_, hself, Nat.one_pos⟩ hlen fun he => ⟨n, hn, hscan.full h hn href hdir he⟩) ?_))
      · rintro r'' fs₂ (⟨rfl, h₂⟩ | ⟨rfl, -, h₂⟩)
        · have hroom := hscan.room h hn href hdir hlive hfound
          obtain ⟨m, hm, -, -, hmref⟩ := add_node d r.empty b nm false hself
          obtain ⟨m', hm', -, -, hmref'⟩ := add_node d r.empty b nm false (insert_node hb hn)
          have hheld : Tree.Held ((t.insert b (freshNode SFS_TYPE_DIR)).add d r.empty b nm false) b :=
            ⟨m, hm, hmref ▸ Nat.one_pos⟩
          have hheld' : Tree.Held ((t.insert b (freshNode SFS_TYPE_DIR)).add d r.empty b nm false) d :=
            ⟨m', hm', hmref' ▸ href⟩
          obtain ⟨fs₃, hx₃, h₃⟩ := setParent_edit h₂ hheld (h.number hn).2
          obtain ⟨fs₄, hx₄, h₄⟩ := nlinksInc_edit (i := b) h₃ (hheld.edit fun _ => rfl)
          obtain ⟨fs₅, hx₅, h₅⟩ := nlinksInc_edit (i := d) h₄ (Tree.Held.edit (hheld'.edit fun _ => rfl) fun _ => rfl)
          rw [mkdir_eq_edits hb hn] at h₅
          have hself' : t.insert b freshDir b = some freshDir := Function.update_self ..
          obtain ⟨m₅, hm₅, htype₅, hrem₅, href₅⟩ := add_node d r.empty b nm true hself'
          obtain ⟨fs₆, t₆, hx₆, -, hsame, h₆⟩ := refDec_stores h₅ hm₅ (href₅ ▸ Nat.one_pos) fun hr => by
            rw [hrem₅] at hr
            cases hr
          refine Op.wpx_bind_of_ok hx₃ (Op.wpx_bind_of_ok hx₄ (Op.wpx_bind_of_ok hx₅ (Op.wpx_of_eq hx₆ ?_)))
          rw [hsame htype₅] at h₆
          refine ⟨_, _, .mkdir hroom hb, Lost.refl, h₆.kept_new hb fun k hk hhas => ?_⟩
          exact (has_insert_of_ne hk).mp (has_add.mp (has_drop hhas))
        · obtain ⟨s, hsin, -, -, hnlinks, -⟩ := sinOf_node h₂ hself Nat.one_pos
          obtain ⟨fs₃, hdec, h₃⟩ := discard_spec h₂ hb
          refine Op.wpx_bind_of_ok hsin (Op.wpx_bind_assert hnlinks (Op.wpx_bind_of_ok hdec ?_))
          exact ⟨.noMem nofun, t, Lost.refl, h₃.kept_new hb fun _ _ => id⟩
    · exact Outcome.fail h (.noMem nofun)

theorem link_spec (h : Stores fs t c X) (hd : t.Held d) (hi : t.Held i) :
    Op.wpx ((Act.link d nm i).Jams t) (link d nm i)
      (fun r fs' => Outcome t c X (.link d nm i) (r.map fun _ => none) fs') fs := by
  obtain ⟨n, hn, href⟩ := hd
  obtain ⟨ni, hni, hiref⟩ := hi
  obtain ⟨s, hsin, -, htype, -⟩ := sinOf_node h hni hiref
  unfold link
  refine asDir_wpx h hn href rfl (fun e he => Outcome.fail h he) fun hdir => ?_
  refine checkName_wpx List.mem_cons_self List.mem_cons_self (fun e he => Outcome.fail h he) fun hlen => ?_
  refine Op.wpx_bind_of_ok hsin ?_
  rw [htype]
  by_cases hidir : ni.type = SFS_TYPE_DIR
  · rw [if_pos hidir]
    exact Outcome.fail h (.linkDir ⟨ni, hni, hidir⟩)
  · rw [if_neg hidir]
    refine trylock_wpx h hn href List.mem_cons_self (fun e he => Outcome.fail h he) fun hlive => ?_
    obtain ⟨r, hsearch, hscan⟩ := search_spec h hn href hdir hlen
    unfold linkNolock
    refine Op.wpx_bind_of_ok hsearch ?_
    cases hfound : r.found with
    | some p =>
      rw [if_pos (Option.isSome_some : (some p).isSome = true)]
      exact Outcome.fail h (.present rfl (hscan.ent hn hfound) nofun)
    | none =>
      rw [if_neg (by simp)]
      refine Op.wpx_mono (direntLink_spec h hn href hdir hscan.empty.1 ⟨ni, hni, hiref⟩ hlen fun he =>
        ⟨n, hn, hscan.full h hn href hdir he⟩) ?_
      · rintro r' fs₁ (⟨rfl, h₁⟩ | ⟨rfl, -, h₁⟩)
        · exact ⟨_, _, .link (hscan.room h hn href hdir hlive hfound) hni hidir hiref, Lost.refl,
            h₁.kept_old fun k => has_add.mp⟩
        · exact Outcome.fail h₁ (.noMem nofun)

end Create

/-! ## Removing -/

section Remove

variable {fs : Fs} {t t' : Tree} {c : ℕ → ℕ → UInt8} {X : Prop} {d i j b : ℕ} {nm : Name} {n nd ni : Node}

/-- A directory counts the entries that it has. -/
theorem Sound.info_ne_zero (hs : Sound t none) (he : t.ent (d, j) = some (i, nm)) (hd : t d = some nd) :
    nd.info ≠ 0 := by
  obtain ⟨⟨m, hm, hdir, -⟩, -⟩ := hs.ends he
  rw [hd] at hm
  cases hm
  rw [hs.slots d nd hd hdir]
  refine Occurrence.occ_ne_zero (a := j) (P := (· ≠ none)) (finite_row hs.finite d fun _ => id) ?_
  show t.ent (d, j) ≠ none
  rw [he]
  nofun

/-- A node that an entry names has a link, and a directory one more. -/
theorem Sound.nlinks_pos (hs : Sound t none) (hsm : t.Small) (he : t.ent (d, j) = some (i, nm))
    (hi : t i = some ni) : 0 < ni.nlinks ∧ (ni.type = SFS_TYPE_DIR → 2 ≤ ni.nlinks) := by
  obtain ⟨-, m, hm, hlive⟩ := hs.ends he
  rw [hi] at hm
  cases hm
  have hlinks := hs.nlinks_eq hsm hi hlive
  have hnames : t.names i ≠ 0 := Occurrence.occ_ne_zero (finite_names hs.finite i) ⟨nm, he⟩
  unfold Tree.total at hlinks
  refine ⟨by omega, fun hdir => ?_⟩
  unfold Tree.own at hlinks
  rw [if_pos ⟨ni, hi, hdir⟩] at hlinks
  split at hlinks <;> omega

/-- A link leaves: `sfs_dirent_unlink_nolock` where the entry is. -/
theorem unlinkEntry_spec (h : Stores fs t c X) (hs : Sound t none) (hsm : t.Small) (hd : t.Held d)
    (he : t.ent (d, j) = some (i, nm)) (hi : t.Held i) :
    ∃ fs', direntUnlink d j i fs = some (.ok (), fs') ∧ Stores fs' (t.del d j i false) c X := by
  obtain ⟨nd, hd, hdref⟩ := hd
  obtain ⟨ni, hi, hiref⟩ := hi
  obtain ⟨⟨m, hm, hdir, -, -, hlt⟩, -⟩ := hs.ends he
  rw [hd] at hm
  cases hm
  exact direntUnlink_spec h hd hdref hdir hlt (hs.info_ne_zero he hd) hi hiref
    (Nat.pos_iff_ne_zero.mp (hs.nlinks_pos hsm he hi).1)

/-- The directory case of `sfs_unlink_nolock`. -/
theorem unlinkDir_spec (h : Stores fs t c X) (hs : Sound t none) (hsm : t.Small) (hd : t.Held d)
    (he : t.ent (d, j) = some (i, nm)) (hi : t i = some ni) (hiref : 0 < ni.ref) (hdir : ni.type = SFS_TYPE_DIR) :
    Op.wpx (i = d) (unlinkDir d j i) (fun r fs' =>
      r = .ok () ∧ ni.info = 0 ∧ d ≠ i ∧ Stores fs' ((t.del d j i true).remove i) c X ∨
      r = .error .notEmpty ∧ ni.info ≠ 0 ∧ Stores fs' t c X) fs := by
  unfold unlinkDir
  by_cases hne : i = d
  · exact Op.wpx_of_none (Op.bind_of_none (if_neg (not_not.mpr hne))) hne
  · refine Op.wpx_bind_assert hne ?_
    obtain ⟨-, m, hm, hlive⟩ := hs.ends he
    rw [hi] at hm
    cases hm
    have hlock := trylockSin_eq h hi hiref
    rw [if_neg (by rw [hlive]; nofun)] at hlock
    obtain ⟨s, hsin, -, -, -, hinfo, -⟩ := sinOf_node h hi hiref
    refine Op.wpx_bind_of_ok hlock (Op.wpx_bind_of_ok hsin ?_)
    rw [hinfo]
    by_cases h0 : ni.info ≠ 0
    · rw [if_pos h0]
      exact .inr ⟨rfl, h0, h⟩
    · rw [if_neg h0]
      obtain ⟨fs₁, hx₁, h₁⟩ := unlinkEntry_spec h hs hsm hd he ⟨ni, hi, hiref⟩
      -- the links that are left: its own, and the `..` of it
      have hnode : t.del d j i false i = some { ni with nlinks := ni.nlinks - 1 } := by
        unfold Tree.del
        rw [hi]
        simp [hne]
      obtain ⟨s₁, fs₂, hs₁, hx₂, h₂⟩ := flag_edit h₁ hnode hiref
      have hl := (hs.nlinks_pos hsm he hi).2 hdir
      obtain ⟨fs₃, hx₃, h₃⟩ := nlinksDec_edit h₂ (edit_self hnode) hiref (by dsimp only; omega)
      obtain ⟨nd, hnd, hdref⟩ := hd
      have hle := hs.del_le hsm he ((Sound.isDir_iff hi).trans (iff_of_true hdir rfl)) hnd
      have hnode' : t.del d j i false d = some { nd with
          info := nd.info - 1, ents := Function.update nd.ents j none } := by
        unfold Tree.del
        rw [hnd]
        simp [Ne.symm hne]
      have hkeep : ∀ f g : Node → Node, ((t.del d j i false).edit i f).edit i g d = some { nd with
          info := nd.info - 1, ents := Function.update nd.ents j none } := fun f g =>
        (edit_of_ne (Ne.symm hne)).trans ((edit_of_ne (Ne.symm hne)).trans hnode')
      obtain ⟨fs₄, hx₄, h₄⟩ := nlinksDec_edit h₃ (hkeep _ _) hdref (by
        rw [if_neg (Ne.symm hne), if_pos ⟨rfl, rfl⟩] at hle
        show nd.nlinks ≠ 0
        omega)
      rw [remove_eq_edits (Ne.symm hne)] at h₄
      refine Op.wpx_bind_of_ok hx₁ (Op.wpx_bind_of_ok hs₁ (Op.wpx_bind_of_ok hx₂ (Op.wpx_bind_of_ok hx₃ ?_)))
      exact Op.wpx_of_eq hx₄ (.inl ⟨rfl, not_not.mp h0, Ne.symm hne, h₄⟩)

theorem unlink_spec (h : Stores fs t c X) (hs : Sound t none) (hsm : t.Small) (hd : t.Held d) :
    Op.wpx ((Act.unlink d nm).Jams t) (unlink d nm)
      (fun r fs' => Outcome t c X (.unlink d nm) (r.map fun _ => none) fs') fs := by
  obtain ⟨n, hn, href⟩ := hd
  unfold unlink
  refine enter_wpx h hn href rfl List.mem_cons_self List.mem_cons_self (fun e he => Outcome.fail h he)
    fun hdir hlen hlive => ?_
  obtain ⟨r, hsearch, hscan⟩ := search_spec h hn href hdir hlen
  unfold unlinkNolock
  refine Op.wpx_bind_of_ok hsearch ?_
  cases hfound : r.found with
  | none => exact Outcome.fail h (.absent rfl (hscan.none hn hfound))
  | some p =>
    obtain ⟨i, j⟩ := p
    have he := hscan.ent hn hfound
    obtain ⟨-, ni, hni, hilive⟩ := hs.ends he
    obtain ⟨fs₁, hload, h₁⟩ := loadInode_stores h (has_of hni)
    obtain ⟨s, hsin, -, htype, -⟩ := sinOf_node h₁ (hold_self hni) (Nat.succ_pos _)
    have he₁ : (t.hold i).ent (d, j) = some (i, nm) := by rwa [ent_hold]
    have hheld : (t.hold i).Held d := by
      obtain ⟨m, hle, -, hm⟩ := hold_node (i := i) hn
      exact ⟨_, hm, href.trans_le hle⟩
    refine Op.wpx_bind_of_ok hload (Op.wpx_bind_of_ok hsin ?_)
    rw [htype]
    by_cases hfile : ni.type ≠ SFS_TYPE_DIR
    · rw [if_pos hfile]
      obtain ⟨fs₂, hx₂, h₂⟩ := unlinkEntry_spec h₁ hs.hold hsm.hold hheld he₁ ⟨_, hold_self hni, Nat.succ_pos _⟩
      obtain ⟨m, hm, -, hmrem, hmref, -⟩ := del_node d j i false (hold_self hni)
      obtain ⟨fs₃, t₃, hdec, hlost, -, h₃⟩ := refDec_stores h₂ hm (hmref ▸ Nat.succ_pos _) fun hr => by
        rw [hmrem, show ni.removed = false from hilive] at hr
        cases hr
      refine Op.wpx_bind_of_ok (Op.attempt_of_eq hx₂) (Op.wpx_bind_of_ok hdec ?_)
      exact ⟨_, _, .unlink he hni hfile, hlost,
        h₃.kept_old fun k hk => has_hold.mp (has_del.mp (has_drop (hlost.has hk)))⟩
    · rw [if_neg hfile]
      have hidir : ni.type = SFS_TYPE_DIR := not_not.mp hfile
      refine Op.wpx_bind (Op.wpx_attempt (Op.wpx_mono (Op.wpx_imp (fun hid => ?_)
        (unlinkDir_spec h₁ hs.hold hsm.hold hheld he₁ (hold_self hni) (Nat.succ_pos _) hidir)) ?_))
      · subst hid
        exact ⟨j, he⟩
      · rintro r' fs₂ (⟨rfl, hinfo, hne, h₂⟩ | ⟨rfl, hinfo, h₂⟩)
        · obtain ⟨m, hm, hmtype, -, hmref, -⟩ := del_node d j i true (hold_self hni)
          have hm₂ : ((t.hold i).del d j i true).remove i i =
              some { m with nlinks := m.nlinks - 1, removed := true } := edit_self hm
          have hs₂ := (hs.emptied hsm he hni hidir hne hinfo).sound
          obtain ⟨fs₃, t₃, hdec, -, hdrop, h₃⟩ := refDec_stores h₂ hm₂ (hmref ▸ Nat.succ_pos _) fun hr =>
            (hs₂.gone i _ hm₂ hr).2.1
          rw [hdrop (hmtype.trans hidir)] at h₃
          refine Op.wpx_bind_of_ok hdec ⟨_, _, .rmdir he hni hidir hne hinfo, Lost.refl, h₃.kept_old fun k hk => ?_⟩
          exact has_hold.mp (has_del.mp (has_edit.mp (has_drop hk)))
        · obtain ⟨fs₃, t₃, hdec, -, hdrop, h₃⟩ := release_spec hs h₂ he hni
          rw [hdrop hidir] at h₃
          exact Op.wpx_bind_of_ok hdec (Outcome.fail h₃ (.notEmpty he hni hidir hinfo))

end Remove

/-! ## Renaming -/

section Rename

variable {fs : Fs} {t t' : Tree} {c : ℕ → ℕ → UInt8} {X : Prop} {d d' i j j' b : ℕ} {nm nm' : Name}
  {n n' nd ni : Node}

/-- A change that changes nothing. -/
theorem edit_id {f : Node → Node} (hf : ∀ k n, t k = some n → f n = n) : t.edit i f = t := by
  funext k
  rw [edit_apply]
  cases hk : t k with
  | none => rfl
  | some n =>
    rw [Option.map_some, hf k n hk, ite_self]

/-- An entry that has left is put back. -/
theorem del_add (hs : Sound t none) (hsm : t.Small) (h : Stores fs t c X) (he : t.ent (d, j) = some (i, nm))
    (hi : t i = some ni) {dir : Bool} (hkind : dir = true ↔ ni.type = SFS_TYPE_DIR) :
    ((t.del d j i dir).add d j i nm false).edit d (fun n =>
      { n with nlinks := (n.nlinks + if dir then 1 else 0) % 65536 }) = t := by
  have hdirs : t.isDir i ↔ dir = true := by rw [Sound.isDir_iff hi, hkind]
  funext k
  rw [edit_apply]
  show (((t k).map _).map _).map _ = t k
  rw [Option.map_map, Option.map_map]
  cases hk : t k with
  | none => rfl
  | some n =>
    have hle := hs.del_le hsm he hdirs hk
    obtain ⟨hinfo, -, hnlinks⟩ := h.bounds hk
    have hrow : k = d → n.info ≠ 0 ∧ j < n.blocks ∧ n.ents j = some (i, nm) := by
      rintro rfl
      obtain ⟨⟨m, hm, -, -, hj, hlt⟩, -⟩ := hs.ends he
      rw [hk] at hm
      cases hm
      exact ⟨hs.info_ne_zero he hk, hlt, hj⟩
    cases n with
    | mk type nlinks info parent blocks removed ref ents =>
    dsimp only at hle hinfo hnlinks hrow
    have hcount : ∀ a e : ℕ, a + e ≤ nlinks → ((nlinks - a - e + a + 0) % 65536 + e) % 65536 = nlinks := by omega
    simp only [Option.map_some, Function.comp_apply, Option.some.injEq]
    rcases eq_or_ne k d with rfl | hkd
    · obtain ⟨h0, hlt, hj⟩ := hrow rfl
      have hents : Function.update (Function.update ents j none) j (some (i, nm)) = ents := by
        rw [Function.update_idem, ← hj, Function.update_eq_self]
      have hsize : (info - 1 + 1) % 2 ^ 32 = info := by omega
      have hblocks : max blocks (j + 1) = blocks := by omega
      simp only [if_true, true_and, Bool.false_eq_true, and_false, if_false, Node.mk.injEq, hents, hsize,
        hblocks, and_true] at hle ⊢
      exact hcount _ _ hle
    · simp only [hkd, false_and, if_false, Bool.false_eq_true, and_false, Node.mk.injEq, and_true, true_and]
        at hle ⊢
      rw [← Nat.mod_mod]
      exact hcount _ 0 hle

/-- `sfs_rename2_nolock` after the entry has left. -/
def arrive (isdir : Prop) [Decidable isdir] (dir slot : ℕ) (name : Name) (newDir slot' : ℕ) (newName : Name)
    (lnk : ℕ) : Op Fs Err Unit := do
  match ← Op.attempt (direntLink newDir slot' lnk newName) with
  | .ok _ =>
    if isdir then
      nlinksInc newDir
      setParent lnk newDir
  | .error e =>
    match ← Op.attempt (direntLink dir slot lnk name) with
    | .ok _ => if isdir then nlinksInc dir
    | .error _ => pure ()
    Op.throw e

theorem moveEntry_eq (dir slot : ℕ) (name : Name) (newDir slot' : ℕ) (newName : Name) (lnk : ℕ) :
    moveEntry dir slot name newDir slot' newName lnk = (do
      direntUnlink dir slot lnk
      let s ← sinOf lnk
      if s.din.type = SFS_TYPE_DIR then nlinksDec dir
      arrive (s.din.type = SFS_TYPE_DIR) dir slot name newDir slot' newName lnk) := rfl

/-- The entry enters the new directory, or is put back. -/
theorem arrive_spec {dir : Bool} {isdir : Prop} [Decidable isdir] (hkind : dir = true ↔ isdir)
    (h : Stores fs (t.del d j i dir) c X) (hback : ((t.del d j i dir).add d j i nm false).edit d (fun n =>
      { n with nlinks := (n.nlinks + if dir then 1 else 0) % 65536 }) = t) (hd : t d = some nd) (hdref : 0 < nd.ref)
    (hdir : nd.type = SFS_TYPE_DIR) (hj : j < nd.blocks) (hi : t.Held i) (hd' : t d' = some n')
    (href' : 0 < n'.ref) (hdir' : n'.type = SFS_TYPE_DIR) (hslot : j' ≤ n'.blocks)
    (hlen : strlen nm ≤ SFS_MAX_FNAME_LEN) (hlen' : strlen nm' ≤ SFS_MAX_FNAME_LEN) {F : Prop}
    (hF : j' = NLEAF → F) :
    Op.wpx F (arrive isdir d j nm d' j' nm' i) (fun r fs' =>
      r = .ok () ∧ Stores fs' ((t.del d j i dir).add d' j' i nm' dir) c X ∨
      r = .error .noMem ∧ Stores fs' t c X) fs := by
  obtain ⟨ni, hni, hiref⟩ := hi
  obtain ⟨mi, hmi, -, -, hmiref, -⟩ := del_node d j i dir hni
  have hheld : (t.del d j i dir).Held i := ⟨mi, hmi, hmiref ▸ hiref⟩
  obtain ⟨m', hm', htype', -, hmref', hblocks', -⟩ := del_node d j i dir hd'
  obtain ⟨m, hm, htype, -, hmref, hblocks, -⟩ := del_node d j i dir hd
  unfold arrive
  refine Op.wpx_bind (Op.wpx_attempt (Op.wpx_mono (direntLink_spec h hm' (hmref' ▸ href') (htype'.trans hdir')
    (hblocks' ▸ hslot) hheld hlen' hF) ?_))
  rintro r fs₁ (⟨rfl, h₁⟩ | ⟨rfl, -, h₁⟩)
  · dsimp only
    cases dir with
    | true =>
      rw [if_pos (hkind.mp rfl)]
      obtain ⟨e', he', -, -, heref'⟩ := add_node d' j' i nm' false hm'
      obtain ⟨e, he, -, -, heref⟩ := add_node d' j' i nm' false hmi
      have hheld₁ : Tree.Held ((t.del d j i true).add d' j' i nm' false) i := ⟨e, he, heref ▸ hmiref ▸ hiref⟩
      obtain ⟨fs₂, hx₂, h₂⟩ := nlinksInc_edit h₁ ⟨e', he', heref' ▸ hmref' ▸ href'⟩
      obtain ⟨fs₃, hx₃, h₃⟩ := setParent_edit (i := i) h₂ (hheld₁.edit fun _ => rfl) (h.number hm').2
      rw [add_true] at h₃
      exact Op.wpx_bind_of_ok hx₂ (Op.wpx_of_eq hx₃ (.inl ⟨rfl, h₃⟩))
    | false =>
      rw [if_neg fun hc => nomatch hkind.mpr hc]
      exact .inl ⟨rfl, h₁⟩
  · have hnot : j ≠ nd.blocks := Nat.ne_of_lt hj
    have hle := h₁.blocks_le hm (hmref ▸ hdref) (htype.trans hdir)
    refine Op.wpx_bind (Op.wpx_attempt (Op.wpx_mono (direntLink_spec h₁ hm (hmref ▸ hdref) (htype.trans hdir)
      (hblocks ▸ hj.le) hheld hlen fun hc => ?_) ?_))
    · omega
    · rintro r' fs₂ (⟨rfl, h₂⟩ | ⟨-, hc, -⟩)
      · dsimp only
        cases dir with
        | true =>
          rw [if_pos (hkind.mp rfl)]
          obtain ⟨e, he, -, -, heref⟩ := add_node d j i nm false hm
          obtain ⟨fs₃, hx₃, h₃⟩ := nlinksInc_edit h₂ ⟨e, he, heref ▸ hmref ▸ hdref⟩
          have h₃ : Stores fs₃ t c X := by rwa [← hback]
          exact Op.wpx_bind_of_ok hx₃ (.inr ⟨rfl, h₃⟩)
        | false =>
          rw [if_neg fun hc => nomatch hkind.mpr hc]
          have hsame := edit_id (t := (t.del d j i false).add d j i nm false) (i := d)
            (f := fun n => { n with nlinks := (n.nlinks + 0) % 65536 }) fun k n hk =>
              congrArg (fun l => { n with nlinks := l }) (Nat.mod_eq_of_lt (h₂.bounds hk).2.2)
          rw [if_neg nofun, hsame] at hback
          have h₂ : Stores fs₂ t c X := by rwa [← hback]
          exact .inr ⟨rfl, h₂⟩
      · exact absurd (hc.trans hblocks) hnot

theorem moveEntry_spec (h : Stores fs t c X) (hs : Sound t none) (hsm : t.Small) (hd : t.Held d)
    (he : t.ent (d, j) = some (i, nm)) (hi : t i = some ni) (hiref : 0 < ni.ref) (hd' : t d' = some n')
    (href' : 0 < n'.ref) (hdir' : n'.type = SFS_TYPE_DIR) (hslot : j' ≤ n'.blocks)
    (hlen : strlen nm ≤ SFS_MAX_FNAME_LEN) (hlen' : strlen nm' ≤ SFS_MAX_FNAME_LEN) {F : Prop}
    (hF : j' = NLEAF → F) {dir : Bool} (hkind : dir = true ↔ ni.type = SFS_TYPE_DIR) :
    Op.wpx F (moveEntry d j nm d' j' nm' i) (fun r fs' =>
      r = .ok () ∧ Stores fs' ((t.del d j i dir).add d' j' i nm' dir) c X ∨
      r = .error .noMem ∧ Stores fs' t c X) fs := by
  obtain ⟨fs₁, hx₁, h₁⟩ := unlinkEntry_spec h hs hsm hd he ⟨ni, hi, hiref⟩
  obtain ⟨m, hm, hmtype, -, hmref, -⟩ := del_node d j i false hi
  obtain ⟨s, hsin, -, htype, -⟩ := sinOf_node h₁ hm (hmref ▸ hiref)
  obtain ⟨nd, hnd, hdref⟩ := hd
  obtain ⟨⟨m', hm', hdir, -, -, hlt⟩, -⟩ := hs.ends he
  rw [hnd] at hm'
  cases hm'
  have hsin' : s.din.type = ni.type := htype.trans hmtype
  have hback := del_add hs hsm h he hi hkind
  have hgo : ∀ fs₂, Stores fs₂ (t.del d j i dir) c X →
    Op.wpx F (arrive (s.din.type = SFS_TYPE_DIR) d j nm d' j' nm' i)
      (fun r fs' => r = .ok () ∧ Stores fs' ((t.del d j i dir).add d' j' i nm' dir) c X ∨
        r = .error .noMem ∧ Stores fs' t c X) fs₂ := fun fs₂ h₂ =>
    arrive_spec (hsin' ▸ hkind) h₂ hback hnd hdref hdir hlt ⟨ni, hi, hiref⟩ hd' href' hdir' hslot hlen hlen' hF
  rw [moveEntry_eq]
  refine Op.wpx_bind_of_ok hx₁ (Op.wpx_bind_of_ok hsin ?_)
  cases dir with
  | true =>
    rw [if_pos (hsin'.trans (hkind.mp rfl))]
    obtain ⟨md, hmd, -, -, hmdref, -⟩ := del_node d j i false hnd
    have hnlinks : md.nlinks ≠ 0 := by
      have hle := hs.del_le hsm he ((Sound.isDir_iff hi).trans hkind.symm) hnd
      unfold Tree.del at hmd
      rw [hnd] at hmd
      cases hmd
      simp only [true_and, if_true, Bool.false_eq_true, and_false, if_false] at hle ⊢
      omega
    obtain ⟨fs₂, hx₂, h₂⟩ := nlinksDec_edit h₁ hmd (hmdref ▸ hdref) hnlinks
    rw [del_true] at h₂
    exact Op.wpx_bind_of_ok hx₂ (hgo fs₂ h₂)
  | false =>
    rw [if_neg fun hc => nomatch hkind.mpr (hsin'.symm.trans hc)]
    exact hgo fs₁ h₁

/-- A renaming within a directory. -/
theorem rename1_spec (h : Stores fs t c X) (hs : Sound t none) (hn : t d = some n) (href : 0 < n.ref)
    (hdir : n.type = SFS_TYPE_DIR) (hlen : strlen nm ≤ SFS_MAX_FNAME_LEN) (hlen' : strlen nm' ≤ SFS_MAX_FNAME_LEN)
    {F : Prop} : Op.wpx F (rename1Nolock d nm nm')
      (fun r fs' => Outcome t c X (.rename d nm d nm') (r.map fun _ => none) fs') fs := by
  unfold rename1Nolock
  by_cases hsame : nm = nm'
  · rw [if_pos hsame]
    subst hsame
    exact ⟨_, _, .renameSame, Lost.refl, h.kept⟩
  · rw [if_neg hsame]
    obtain ⟨r, hsearch, hscan⟩ := search_spec h hn href hdir hlen
    obtain ⟨r', hsearch', hscan'⟩ := search_spec h hn href hdir hlen'
    refine Op.wpx_bind_of_ok hsearch ?_
    cases hfound : r.found with
    | none => exact Outcome.fail h (.absent rfl (hscan.none hn hfound))
    | some p =>
      obtain ⟨i, j⟩ := p
      have he := hscan.ent hn hfound
      refine Op.wpx_bind_of_ok hsearch' ?_
      cases hfound' : r'.found with
      | some p' =>
        rw [if_pos (Option.isSome_some : (some p').isSome = true)]
        exact Outcome.fail h (.present rfl (hscan'.ent hn hfound') nofun)
      | none =>
        rw [if_neg (by simp)]
        obtain ⟨ni, hni⟩ := Option.ne_none_iff_exists'.mp (hs.target _ _ _ he).1
        obtain ⟨h0, hlt⟩ := h.number hni
        obtain ⟨fs₁, hx₁, h₁⟩ := writeSlot_spec h hn href hdir (hscan.hit i j hfound).2 hlt fun _ => hlen'
        have hput : Function.update t d (some { n with ents := Function.update n.ents j (slotOf i nm') }) =
            t.put d j i nm' := by
          unfold slotOf Tree.put
          rw [if_neg h0, edit_eq hn]
        rw [hput] at h₁
        exact Op.wpx_of_eq hx₁ ⟨_, _, .rename1 he (hscan'.none hn hfound'), Lost.refl,
          h₁.kept_old fun k => has_edit.mp⟩

/-- A renaming from one directory to another. -/
theorem rename2_spec (h : Stores fs t c X) (hs : Sound t none) (hsm : t.Small) (hn : t d = some n) (href : 0 < n.ref)
    (hdir : n.type = SFS_TYPE_DIR) (hn' : t d' = some n') (href' : 0 < n'.ref) (hdir' : n'.type = SFS_TYPE_DIR)
    (hlive' : n'.removed = false) (hne : d ≠ d') (hlen : strlen nm ≤ SFS_MAX_FNAME_LEN)
    (hlen' : strlen nm' ≤ SFS_MAX_FNAME_LEN) : Op.wpx (n'.blocks = NLEAF) (rename2Nolock d nm d' nm')
      (fun r fs' => Outcome t c X (.rename d nm d' nm') (r.map fun _ => none) fs') fs := by
  obtain ⟨r, hsearch, hscan⟩ := search_spec h hn href hdir hlen
  obtain ⟨r', hsearch', hscan'⟩ := search_spec h hn' href' hdir' hlen'
  unfold rename2Nolock
  refine Op.wpx_bind_of_ok hsearch ?_
  cases hfound : r.found with
  | none => exact Outcome.fail h (.absent rfl (hscan.none hn hfound))
  | some p =>
    obtain ⟨i, j⟩ := p
    have he := hscan.ent hn hfound
    refine Op.wpx_bind_of_ok hsearch' ?_
    cases hfound' : r'.found with
    | some p' =>
      rw [if_pos (Option.isSome_some : (some p').isSome = true)]
      exact Outcome.fail h (.present rfl (hscan'.ent hn' hfound') nofun)
    | none =>
      rw [if_neg (by simp)]
      obtain ⟨-, ni, hni, hilive⟩ := hs.ends he
      obtain ⟨fs₁, hload, h₁⟩ := loadInode_stores h (has_of hni)
      have he₁ : (t.hold i).ent (d, j) = some (i, nm) := by rwa [ent_hold]
      obtain ⟨e, hle, -, hd₁⟩ := hold_node (i := i) hn
      obtain ⟨e', hle', -, hd₁'⟩ := hold_node (i := i) hn'
      have hkind : decide (ni.type = SFS_TYPE_DIR) = true ↔ ni.type = SFS_TYPE_DIR := decide_eq_true_iff
      generalize decide (ni.type = SFS_TYPE_DIR) = dir at hkind
      refine Op.wpx_bind_of_ok hload (Op.wpx_bind (Op.wpx_attempt (Op.wpx_mono (moveEntry_spec h₁ hs.hold hsm.hold
        ⟨_, hd₁, href.trans_le hle⟩ he₁ (hold_self hni) (Nat.succ_pos _) hd₁' (href'.trans_le hle') hdir'
        hscan'.empty.1 hlen hlen' (hscan'.full h hn' href' hdir') hkind) ?_)))
      · rintro r'' fs₂ (⟨rfl, h₂⟩ | ⟨rfl, h₂⟩)
        · obtain ⟨m, hm, -, hmrem, hmref, -⟩ := del_node d j i dir (hold_self hni)
          obtain ⟨m', hm', -, hmrem', hmref'⟩ := add_node d' r'.empty i nm' dir hm
          obtain ⟨fs₃, t₃, hdec, hlost, -, h₃⟩ := refDec_stores h₂ hm' (hmref' ▸ hmref ▸ Nat.succ_pos _) fun hr => by
            rw [hmrem', hmrem, show ni.removed = false from hilive] at hr
            cases hr
          refine Op.wpx_bind_of_ok hdec ?_
          exact ⟨_, _, .rename2 hne he (hscan'.room h hn' href' hdir' hlive' hfound') hni hkind, hlost,
            h₃.kept_old fun k hk => has_hold.mp (has_del.mp (has_add.mp (has_drop (hlost.has hk))))⟩
        · obtain ⟨fs₃, t₃, hdec, hlost, -, h₃⟩ := release_spec hs h₂ he hni
          exact Op.wpx_bind_of_ok hdec ⟨.noMem nofun, t₃, hlost, h₃.kept_old fun k => hlost.has⟩

theorem rename_spec (h : Stores fs t c X) (hs : Sound t none) (hsm : t.Small) (hd : t.Held d) (hd' : t.Held d')
    (hdir' : t.isDir d') : Op.wpx ((Act.rename d nm d' nm').Jams t) (rename d nm d' nm')
      (fun r fs' => Outcome t c X (.rename d nm d' nm') (r.map fun _ => none) fs') fs := by
  obtain ⟨n, hn, href⟩ := hd
  obtain ⟨n', hn', href'⟩ := hd'
  have hfail : ∀ e, Fails t (.rename d nm d' nm') e → Outcome t c X (.rename d nm d' nm') (.error e) fs :=
    fun e he => Outcome.fail h he
  have hsecond : ∀ {α : Type} {x : α} {l : List α} {y : α}, y ∈ x :: y :: l :=
    List.mem_cons_of_mem _ List.mem_cons_self
  unfold rename
  refine asDir_wpx h hn href rfl hfail fun hdir => ?_
  by_cases hbig : SFS_MAX_FNAME_LEN < strlen nm'
  · rw [if_pos hbig]
    exact hfail _ (.tooBig hsecond hbig)
  · rw [if_neg hbig]
    refine checkName_wpx List.mem_cons_self List.mem_cons_self hfail fun hlen => ?_
    refine checkName_wpx hsecond hsecond hfail fun hlen' => ?_
    refine trylock_wpx h hn href List.mem_cons_self hfail fun hlive => ?_
    by_cases hsame : d = d'
    · rw [if_pos hsame]
      subst hsame
      exact rename1_spec h hs hn href hdir hlen hlen'
    · rw [if_neg hsame]
      refine trylock_wpx h hn' href' hsecond hfail fun hlive' => ?_
      refine Op.wpx_imp (fun hfull => ⟨hsame, n', hn', hfull⟩) ?_
      exact rename2_spec h hs hsm hn href hdir hn' href' ((Sound.isDir_iff hn').mp hdir') hlive' hsame hlen hlen'

end Rename

/-! ## Every call -/

section Exec

variable {fs : Fs} {t t' : Tree} {c : ℕ → ℕ → UInt8} {X : Prop} {d i j : ℕ} {nm : Name} {n ni : Node}

theorem lookup_spec (h : Stores fs t c X) (hs : Sound t none) (hd : t.Held d)
    (hfit : (Act.lookup d nm).Fits t) : Op.wpx ((Act.lookup d nm).Jams t) (lookup d nm)
      (fun r fs' => Outcome t c X (.lookup d nm) (r.map some) fs') fs := by
  obtain ⟨n, hn, href⟩ := hd
  obtain ⟨s, hsin, hcache, -, -, -, hparent, -⟩ := sinOf_node h hn href
  have hfail : ∀ e, Fails t (.lookup d nm) e → Outcome t c X (.lookup d nm) (.error e) fs :=
    fun e he => Outcome.fail h he
  have hheld : ∀ i, t.has i → t.Leads d nm i → ∀ fs', Stores fs' (t.hold i) c X →
      Outcome t c X (.lookup d nm) (.ok (some i)) fs' := fun i hi hl fs' h' =>
    ⟨_, _, .lookup hi hl, Lost.refl, h'.kept_old fun k => has_hold.mp⟩
  unfold lookup
  refine asDir_wpx h hn href rfl hfail fun hdir => ?_
  by_cases hdot : nm = DOT
  · rw [if_pos hdot]
    obtain ⟨L, -, ho⟩ := h.owned
    have hfits := ho.fits_lk hcache
    have hns := h.node_of hcache
    rw [hn] at hns
    cases hns
    obtain ⟨heq, h₁⟩ := h.edit hcache { s with ref := s.ref + 1 } rfl hfits.info hfits.parent hfits.nlinks
      (Nat.succ_pos _) (fun hd => ⟨hd, rfl⟩) (fun _ => rfl) hn
    refine Op.wpx_bind_of_ok hsin (Op.wpx_bind_of_ok heq (hheld d (has_of hn) ?_ _ ?_))
    · unfold Tree.Leads
      rw [if_pos hdot]
    · unfold Tree.hold
      rw [edit_eq hn]
      exact h₁
  · rw [if_neg hdot]
    by_cases hdotdot : nm = DOTDOT
    · rw [if_pos hdotdot]
      obtain ⟨m, hm, -⟩ := Linked.parent hs hn hdir (hfit hdotdot n hn)
      obtain ⟨fs₁, hload, h₁⟩ := loadInode_stores h (has_of hm)
      unfold loadParent
      refine Op.wpx_bind_of_ok hsin ?_
      rw [hparent]
      refine Op.wpx_bind_of_ok hload (hheld _ (has_of hm) ?_ _ h₁)
      unfold Tree.Leads
      rw [if_neg hdot, if_pos hdotdot]
      exact ⟨n, hn, rfl⟩
    · rw [if_neg hdotdot]
      by_cases hbig : SFS_MAX_FNAME_LEN < strlen nm
      · rw [if_pos hbig]
        exact hfail _ (.tooBig List.mem_cons_self hbig)
      · rw [if_neg hbig]
        unfold lookupOnce
        refine trylock_wpx h hn href List.mem_cons_self hfail fun hlive => ?_
        obtain ⟨r, hsearch, hscan⟩ := search_spec h hn href hdir (Nat.not_lt.mp hbig)
        refine Op.wpx_bind_of_ok hsearch ?_
        cases hfound : r.found with
        | none => exact hfail _ (.absent rfl (hscan.none hn hfound))
        | some p =>
          obtain ⟨i, j⟩ := p
          have he := hscan.ent hn hfound
          have hhas := (hs.target _ _ _ he).1
          obtain ⟨fs₁, hload, h₁⟩ := loadInode_stores h hhas
          refine Op.wpx_bind_of_ok hload (hheld i hhas ?_ _ h₁)
          unfold Tree.Leads
          rw [if_neg hdot, if_neg hdotdot]
          exact ⟨j, he⟩

/-- Every call has the effect that it should have, or fails for a reason and leaves the tree as it was; a panic
is one of those in `Act.Jams`. -/
theorem exec_spec (h : Stores fs t c X) (hs : Sound t none) (hsm : t.Small) {a : Act} (hheld : a.Held t)
    (hfit : a.Fits t) : Op.wpx (a.Jams t) a.exec (Outcome t c X a) fs := by
  cases a with
  | create d nm excl => exact Op.wpx_map (create_spec h hs hheld excl)
  | mkdir d nm => exact Op.wpx_map (mkdir_spec h hheld)
  | link d nm i => exact Op.wpx_map (link_spec h hheld.1 hheld.2)
  | unlink d nm => exact Op.wpx_map (unlink_spec h hs hsm hheld)
  | rename d nm d' nm' => exact Op.wpx_map (rename_spec h hs hsm hheld.1 hheld.2.1 hheld.2.2)
  | lookup d nm => exact Op.wpx_map (lookup_spec h hs hheld hfit)
  | root =>
    obtain ⟨n, hn, -⟩ := hs.root
    obtain ⟨fs₁, hload, h₁⟩ := loadInode_stores h (has_of hn)
    exact Op.wpx_bind_of_ok hload ⟨_, _, .root, Lost.refl, h₁.kept_old fun k => has_hold.mp⟩
  | drop i =>
    obtain ⟨n, hn, href⟩ := hheld
    obtain ⟨fs₁, t₁, hdec, hlost, -, h₁⟩ := refDec_stores h hn href fun hr => (hs.gone i n hn hr).2.1
    exact Op.wpx_bind_of_ok hdec ⟨_, _, .drop hn href, hlost, h₁.kept_old fun k hk => has_drop (hlost.has hk)⟩

end Exec

end Ucore.Sfs
