import Ucore.Sfs.ActSound
import Ucore.Sfs.PathSpec

/-!
# Calls, and what they are made of

What a call of an operation of `sfs_inode.c` on directories may end with, and the steps that these operations
share.

* `Fails` — which error is returned for what.
* `Outcome` — the effect of a call, or its error, on the tree that the file system stores.
* `del_eq_edits`, `add_eq_edits` — the steps on inodes that an entry more or less is made of.
* `direntUnlink_spec`, `direntLink_spec` — an entry leaves a directory, or enters one.
-/

namespace Ucore.Sfs

open Bytes Sfs.Tree

namespace Act

/-- The directories that a call is about. -/
def dirs : Act → List ℕ
  | .create d _ _ => [d]
  | .mkdir d _ => [d]
  | .link d _ _ => [d]
  | .unlink d _ => [d]
  | .rename d _ d' _ => [d, d']
  | .lookup d _ => [d]
  | .root => []
  | .drop _ => []

def names : Act → List Name
  | .create _ nm _ => [nm]
  | .mkdir _ nm => [nm]
  | .link _ nm _ => [nm]
  | .unlink _ nm => [nm]
  | .rename _ nm _ nm' => [nm, nm']
  | .lookup _ nm => [nm]
  | .root => []
  | .drop _ => []

/-- The error for a name that may not be `.` or `..`. -/
def dots : Act → List (Name × Err)
  | .create _ nm _ => [(nm, .exists)]
  | .mkdir _ nm => [(nm, .exists)]
  | .link _ nm _ => [(nm, .exists)]
  | .unlink _ nm => [(nm, .isDir)]
  | .rename _ nm _ nm' => [(nm, .inval), (nm', .exists)]
  | .lookup _ _ => []
  | .root => []
  | .drop _ => []

/-- The slot that the call has to fill, as directory and name. -/
def enters : Act → Option (ℕ × Name)
  | .create d nm _ => some (d, nm)
  | .mkdir d nm => some (d, nm)
  | .link d nm _ => some (d, nm)
  | .rename _ _ d' nm' => some (d', nm')
  | _ => none

/-- The entry that must be there. -/
def leaves : Act → Option (ℕ × Name)
  | .unlink d nm => some (d, nm)
  | .rename d nm _ _ => some (d, nm)
  | .lookup d nm => some (d, nm)
  | _ => none

/-- The call as the file system runs it; the result is the node that the caller then holds. -/
def exec : Act → Op Fs Err (Option ℕ)
  | .create d nm excl => do pure (some (← Sfs.create d nm excl))
  | .mkdir d nm => do Sfs.mkdir d nm; pure none
  | .link d nm i => do Sfs.link d nm i; pure none
  | .unlink d nm => do Sfs.unlink d nm; pure none
  | .rename d nm d' nm' => do Sfs.rename d nm d' nm'; pure none
  | .lookup d nm => do pure (some (← Sfs.lookup d nm))
  | .root => do loadInode SFS_BLKN_ROOT; pure (some SFS_BLKN_ROOT)
  | .drop i => do refDec i; pure none

end Act

/-- Somebody holds node `i`. -/
def Tree.Held (t : Tree) (i : ℕ) : Prop := ∃ n, t i = some n ∧ 0 < n.ref

/-- The caller holds the nodes that a call is about.  `vop_lookup_parent` only returns directories, so that the
second one of a renaming is one. -/
def Act.Held (t : Tree) : Act → Prop
  | .create d _ _ => t.Held d
  | .mkdir d _ => t.Held d
  | .link d _ i => t.Held d ∧ t.Held i
  | .unlink d _ => t.Held d
  | .rename d _ d' _ => t.Held d ∧ t.Held d' ∧ t.isDir d'
  | .lookup d _ => t.Held d
  | .root => True
  | .drop i => t.Held i

/-- Which error a call returns, and why. -/
inductive Fails (t : Tree) : Act → Err → Prop where
  | notDir {a : Act} {d : ℕ} {n : Node} (hd : a.dirs.head? = some d) (hn : t d = some n)
    (htype : n.type ≠ SFS_TYPE_DIR) : Fails t a .notDir
  | tooBig {a : Act} {nm : Name} (hnm : nm ∈ a.names) (hlen : SFS_MAX_FNAME_LEN < strlen nm) : Fails t a .tooBig
  | dots {a : Act} {nm : Name} {e : Err} (hnm : (nm, e) ∈ a.dots) (hdot : nm = DOT ∨ nm = DOTDOT) : Fails t a e
  | removed {a : Act} {d : ℕ} {n : Node} (hd : d ∈ a.dirs) (hn : t d = some n) (hrem : n.removed = true) :
    Fails t a .noEnt
  | linkDir {d i : ℕ} {nm : Name} (hi : t.isDir i) : Fails t (.link d nm i) .isDir
  | present {a : Act} {d j i : ℕ} {nm : Name} (ha : a.enters = some (d, nm)) (he : t.ent (d, j) = some (i, nm))
    (hexcl : ∀ d' nm', a = .create d' nm' false → t.isDir i) : Fails t a .exists
  | absent {a : Act} {d : ℕ} {nm : Name} (ha : a.leaves = some (d, nm)) (hno : ∀ j i, t.ent (d, j) ≠ some (i, nm)) :
    Fails t a .noEnt
  | notEmpty {d j i : ℕ} {nm : Name} {ni : Node} (he : t.ent (d, j) = some (i, nm)) (hi : t i = some ni)
    (hdir : ni.type = SFS_TYPE_DIR) (hinfo : ni.info ≠ 0) : Fails t (.unlink d nm) .notEmpty
  /-- There is no free block for an inode or for a slot. -/
  | noMem {a : Act} (ha : a.enters ≠ none) : Fails t a .noMem

/-- The assertions that a call may fail: a directory cannot get another slot, or is its own entry, so that it
would be locked twice. -/
def Act.Jams (t : Tree) : Act → Prop
  | .create d _ _ => ∃ n, t d = some n ∧ n.blocks = NLEAF
  | .mkdir d _ => ∃ n, t d = some n ∧ n.blocks = NLEAF
  | .link d _ _ => ∃ n, t d = some n ∧ n.blocks = NLEAF
  | .unlink d nm => ∃ j, t.ent (d, j) = some (d, nm)
  | .rename d _ d' _ => d ≠ d' ∧ ∃ n, t d' = some n ∧ n.blocks = NLEAF
  | _ => False

/-- One file is found on disk with fewer blocks. -/
def Lost (X : Prop) (t t' : Tree) : Prop := t' = t ∨
  ∃ i n b, X ∧ t i = some n ∧ n.type = SFS_TYPE_FILE ∧ b ≤ n.blocks ∧
    t' = Function.update t i (some { n with blocks := b })

open Classical in
/-- The contents of the files that were there; new ones have none. -/
noncomputable def Tree.kept (t : Tree) (c : ℕ → ℕ → UInt8) : ℕ → ℕ → UInt8 := fun i =>
  if t i = none then fun _ => 0 else c i

/-- How a call ends. -/
def Outcome (t : Tree) (c : ℕ → ℕ → UInt8) (X : Prop) (a : Act) : Except Err (Option ℕ) → Fs → Prop
  | .ok o, fs' => ∃ t₁ t', Eff t a o t₁ ∧ Lost X t₁ t' ∧ Stores fs' t' (t.kept c) X
  | .error e, fs' => Fails t a e ∧ ∃ t', Lost X t t' ∧ Stores fs' t' (t.kept c) X

section Edits

variable {fs : Fs} {t : Tree} {c : ℕ → ℕ → UInt8} {X : Prop} {d i k : ℕ} {n nd ni : Node}

theorem Tree.Held.edit {f : Node → Node} (h : t.Held k) (hf : ∀ n, (f n).ref = n.ref) : (t.edit i f).Held k := by
  obtain ⟨n, hn, href⟩ := h
  refine ⟨_, edit_some.mpr ⟨n, hn, rfl⟩, ?_⟩
  split
  · rw [hf]
    exact href
  · exact href

/-- The inode of a node that somebody holds. -/
theorem sinOf_node (h : Stores fs t c X) (hn : t i = some n) (href : 0 < n.ref) :
    ∃ s, sinOf i fs = some (.ok s, fs) ∧ fs.cache i = some s ∧ s.din.type = n.type ∧ s.din.nlinks = n.nlinks ∧
      s.din.info = n.info ∧ s.din.parent = n.parent ∧ s.removed = n.removed := by
  obtain ⟨s, hs, rfl⟩ := h.cached hn href
  exact ⟨s, sinOf_eq hs, hs, rfl, rfl, rfl, rfl, rfl⟩

theorem nlinksInc_edit (h : Stores fs t c X) (hi : t.Held i) : ∃ fs', nlinksInc i fs = some (.ok (), fs') ∧
    Stores fs' (t.edit i fun n => { n with nlinks := (n.nlinks + 1) % 65536 }) c X := by
  obtain ⟨n, hn, href⟩ := hi
  obtain ⟨fs', heq, hst⟩ := nlinksInc_spec h hn href
  refine ⟨fs', heq, ?_⟩
  rwa [edit_eq hn]

theorem nlinksDec_edit (h : Stores fs t c X) (hn : t i = some n) (href : 0 < n.ref) (h0 : n.nlinks ≠ 0) :
    ∃ fs', nlinksDec i fs = some (.ok (), fs') ∧
      Stores fs' (t.edit i fun n => { n with nlinks := n.nlinks - 1 }) c X := by
  obtain ⟨fs', heq, hst⟩ := nlinksDec_spec h hn href h0
  refine ⟨fs', heq, ?_⟩
  rwa [edit_eq hn]

theorem setParent_edit (h : Stores fs t c X) (hi : t.Held i) {p : ℕ} (hp : p < 2 ^ 32) :
    ∃ fs', setParent i p fs = some (.ok (), fs') ∧ Stores fs' (t.edit i fun n => { n with parent := p }) c X := by
  obtain ⟨n, hn, href⟩ := hi
  obtain ⟨fs', heq, hst⟩ := setParent_spec h hn href hp
  refine ⟨fs', heq, ?_⟩
  rwa [edit_eq hn]

/-- The size of a directory is one entry less. -/
theorem infoDec_edit (h : Stores fs t c X) (hn : t i = some n) (href : 0 < n.ref) (hdir : n.type = SFS_TYPE_DIR) :
    ∃ fs', editDin i (fun d => { d with info := d.info - 1 }) fs = some (.ok (), fs') ∧
      Stores fs' (t.edit i fun n => { n with info := n.info - 1 }) c X := by
  obtain ⟨hinfo, hparent, hnlinks⟩ := h.bounds hn
  obtain ⟨fs', heq, hst⟩ := editDin_spec (f := fun d => { d with info := d.info - 1 }) h hn href
    (fun d h1 h2 h3 => by rw [← h1, ← h2, ← h3]) (by omega : n.info - 1 < 2 ^ 32) hparent hnlinks fun hf => by
      rw [hdir] at hf
      exact absurd hf (by decide)
  refine ⟨fs', heq, ?_⟩
  rwa [edit_eq hn]

/-- The links of a node are one less, where the assertion is made by the caller. -/
theorem linkDec_edit (h : Stores fs t c X) (hn : t i = some n) (href : 0 < n.ref) :
    ∃ fs', editDin i (fun d => { d with nlinks := d.nlinks - 1 }) fs = some (.ok (), fs') ∧
      Stores fs' (t.edit i fun n => { n with nlinks := n.nlinks - 1 }) c X := by
  obtain ⟨hinfo, hparent, hnlinks⟩ := h.bounds hn
  obtain ⟨fs', heq, hst⟩ := editDin_spec (f := fun d => { d with nlinks := d.nlinks - 1 }) h hn href
    (fun d h1 h2 h3 => by rw [← h1, ← h2, ← h3]) hinfo hparent (by omega : n.nlinks - 1 < 2 ^ 16) fun _ => rfl
  refine ⟨fs', heq, ?_⟩
  rwa [edit_eq hn]

/-- A directory is flagged. -/
theorem flag_edit (h : Stores fs t c X) (hn : t i = some n) (href : 0 < n.ref) : ∃ s fs',
    sinOf i fs = some (.ok s, fs) ∧ setSin i { s with removed := true } fs = some (.ok (), fs') ∧
      Stores fs' (t.edit i fun n => { n with removed := true }) c X := by
  obtain ⟨s, hs, rfl⟩ := h.cached hn href
  obtain ⟨L, -, ho⟩ := h.owned
  have hfits := ho.fits_lk hs
  obtain ⟨heq, hst⟩ := h.edit hs { s with removed := true } rfl hfits.info hfits.parent hfits.nlinks
    (h.held i s hs) (fun hd => ⟨hd, rfl⟩) (fun _ => rfl) hn
  refine ⟨s, _, sinOf_eq hs, heq, ?_⟩
  rwa [edit_eq hn]

/-- A slot is emptied. -/
theorem clearSlot_edit (h : Stores fs t c X) (hn : t d = some n) (href : 0 < n.ref) (hdir : n.type = SFS_TYPE_DIR)
    {slot : ℕ} (hslot : slot < n.blocks) : ∃ fs', onSin d (direntWrite slot 0 noName) fs = some (.ok (), fs') ∧
      Stores fs' (t.edit d fun n => { n with ents := Function.update n.ents slot none }) c X := by
  obtain ⟨fs', heq, hst⟩ := @writeSlot_spec fs t c X d n noName h hn href hdir slot 0 hslot (Nat.two_pow_pos 32)
    fun h0 => absurd rfl h0
  refine ⟨fs', heq, ?_⟩
  rw [edit_eq hn]
  exact hst

theorem edit_apply (f : Node → Node) (k : ℕ) : t.edit i f k = (t k).map fun n => if k = i then f n else n := by
  by_cases hk : k = i
  · simp only [Tree.edit, if_pos hk]
  · simp only [Tree.edit, if_neg hk, Option.map_id']

/-- What the steps of `sfs_dirent_unlink_nolock` come to. -/
theorem del_eq_edits (j : ℕ) : t.del d j i false = ((t.edit d fun n => { n with
      ents := Function.update n.ents j none }).edit d fun n => { n with info := n.info - 1 }).edit i fun n =>
        { n with nlinks := n.nlinks - 1 } := by
  funext k
  rw [edit_apply, edit_apply, edit_apply, Option.map_map, Option.map_map]
  show (t k).map _ = (t k).map _
  congr 1
  funext n
  rcases eq_or_ne k i with rfl | hi
  · rcases eq_or_ne k d with rfl | hd
    · simp
    · simp [hd]
  · rcases eq_or_ne k d with rfl | hd
    · simp [hi]
    · simp [hi, hd]

/-- The `..` of a directory is one of the links of the directory that it leaves. -/
theorem del_true (j : ℕ) : (t.del d j i false).edit d (fun n => { n with nlinks := n.nlinks - 1 }) =
    t.del d j i true := by
  funext k
  rw [edit_apply]
  show ((t k).map _).map _ = (t k).map _
  rw [Option.map_map]
  congr 1
  funext n
  rcases eq_or_ne k d with rfl | hd
  · simp
  · simp [hd]

/-- What `sfs_unlink_nolock` does to a directory after its entry is gone. -/
theorem remove_eq_edits (hne : d ≠ i) (j : ℕ) : (((t.del d j i false).edit i fun n =>
      { n with removed := true }).edit i fun n => { n with nlinks := n.nlinks - 1 }).edit d (fun n =>
        { n with nlinks := n.nlinks - 1 }) = (t.del d j i true).remove i := by
  rw [← del_true]
  unfold Tree.remove
  funext k
  simp only [edit_apply, Option.map_map]
  congr 1
  funext n
  rcases eq_or_ne k d with rfl | hd
  · simp [hne]
  · rcases eq_or_ne k i with rfl | hi
    · simp [hd]
    · simp [hd, hi]

/-- What the steps of `sfs_dirent_link_nolock` come to. -/
theorem add_eq_edits (hb : ∀ k n, t k = some n → n.nlinks < 65536) (j : ℕ) (nm : Name) :
    (t.edit d fun n => { n with
      info := (n.info + 1) % 2 ^ 32, blocks := max n.blocks (j + 1),
      ents := Function.update n.ents j (some (i, nm)) }).edit i (fun n =>
        { n with nlinks := (n.nlinks + 1) % 65536 }) = t.add d j i nm false := by
  funext k
  rw [edit_apply, edit_apply, Option.map_map]
  show (t k).map _ = (t k).map _
  cases hk : t k with
  | none => rfl
  | some n =>
    have hn := Nat.mod_eq_of_lt (hb k n hk)
    rcases eq_or_ne k d with rfl | hd
    · rcases eq_or_ne k i with rfl | hi
      · simp
      · simp [hi, hn]
    · rcases eq_or_ne k i with rfl | hi
      · simp [hd]
      · simp [hd, hi, hn]

/-- The `..` of a directory is a link of the directory that it enters. -/
theorem add_true (j : ℕ) (nm : Name) : ((t.add d j i nm false).edit d fun n =>
      { n with nlinks := (n.nlinks + 1) % 65536 }).edit i (fun n => { n with parent := d }) =
    t.add d j i nm true := by
  funext k
  rw [edit_apply, edit_apply, Option.map_map]
  show ((t k).map _).map _ = (t k).map _
  rw [Option.map_map]
  congr 1
  funext n
  rcases eq_or_ne k d with rfl | hd
  · rcases eq_or_ne k i with rfl | hi
    · simp
    · simp [hi]
  · rcases eq_or_ne k i with rfl | hi
    · simp [hd]
    · simp [hd, hi]

end Edits

/-! ## Entries -/

section Entries

variable {fs : Fs} {t : Tree} {c : ℕ → ℕ → UInt8} {X : Prop} {d i j : ℕ} {nm : Name} {n nd ni : Node}

/-- `sfs_dirent_unlink_nolock`. -/
theorem direntUnlink_spec (h : Stores fs t c X) (hd : t d = some nd) (hdref : 0 < nd.ref)
    (hdir : nd.type = SFS_TYPE_DIR) (hslot : j < nd.blocks) (hinfo : nd.info ≠ 0) (hi : t i = some ni)
    (hiref : 0 < ni.ref) (hl : ni.nlinks ≠ 0) :
    ∃ fs', direntUnlink d j i fs = some (.ok (), fs') ∧ Stores fs' (t.del d j i false) c X := by
  obtain ⟨fs₁, hx₁, h₁⟩ := clearSlot_edit h hd hdref hdir hslot
  have hd₁ := edit_self (f := fun n => { n with ents := Function.update n.ents j none }) hd
  obtain ⟨sd, hsd, -, -, -, hinfo', -⟩ := sinOf_node h₁ hd₁ hdref
  obtain ⟨m, hm, hmref, hml⟩ : ∃ m, (t.edit d fun n => { n with ents := Function.update n.ents j none }) i = some m ∧
      0 < m.ref ∧ m.nlinks ≠ 0 := by
    by_cases hid : i = d
    · subst hid
      rw [hd] at hi
      cases hi
      exact ⟨_, hd₁, hdref, hl⟩
    · exact ⟨ni, (edit_of_ne hid).trans hi, hiref, hl⟩
  obtain ⟨si, hsi, -, -, hnlinks, -⟩ := sinOf_node h₁ hm hmref
  obtain ⟨fs₂, hx₂, h₂⟩ := infoDec_edit h₁ hd₁ hdref hdir
  obtain ⟨m₂, hm₂, hmref₂⟩ : Tree.Held ((t.edit d fun n => { n with
      ents := Function.update n.ents j none }).edit d fun n => { n with info := n.info - 1 }) i :=
    Tree.Held.edit ⟨m, hm, hmref⟩ fun _ => rfl
  obtain ⟨fs₃, hx₃, h₃⟩ := linkDec_edit h₂ hm₂ hmref₂
  rw [← del_eq_edits] at h₃
  have hass : sd.din.info ≠ 0 := hinfo'.symm ▸ hinfo
  have hass' : si.din.nlinks ≠ 0 := hnlinks.symm ▸ hml
  refine ⟨fs₃, ?_, h₃⟩
  unfold direntUnlink
  rw [Op.bind_of_ok hx₁, Op.bind_of_ok hsd,
    Op.bind_of_ok (if_pos hass : Op.assert (sd.din.info ≠ 0) fs₁ = some (.ok (), fs₁)), Op.bind_of_ok hsi,
    Op.bind_of_ok (if_pos hass' : Op.assert (si.din.nlinks ≠ 0) fs₁ = some (.ok (), fs₁)), Op.bind_of_ok hx₂]
  exact hx₃

/-- The number of a node. -/
theorem Stores.number (h : Stores fs t c X) (hi : t i = some ni) : i ≠ 0 ∧ i < 2 ^ 32 := by
  obtain ⟨L, -, ho⟩ := h.owned
  obtain ⟨hmeta, hlt⟩ := ho.node i (has_of hi)
  exact ⟨fun h0 => hmeta (.inl h0), hlt.trans_le ho.small⟩

/-- `sfs_dirent_link_nolock`. -/
theorem direntLink_spec (h : Stores fs t c X) (hd : t d = some nd) (hdref : 0 < nd.ref)
    (hdir : nd.type = SFS_TYPE_DIR) (hslot : j ≤ nd.blocks) (hi : t.Held i)
    (hlen : strlen nm ≤ SFS_MAX_FNAME_LEN) {F : Prop} (hF : j = NLEAF → F) :
    Op.wpx F (direntLink d j i nm) (fun r fs' => r = .ok () ∧ Stores fs' (t.add d j i nm false) c X ∨
      r = .error .noMem ∧ j = nd.blocks ∧ Stores fs' t c X) fs := by
  obtain ⟨ni, hni, hiref⟩ := hi
  obtain ⟨h0, hlt⟩ := h.number hni
  unfold direntLink
  refine linkSlot_spec (g := fun _ => nlinksInc i) h hd hdref hdir hslot h0 hlt hlen hF (fun fs₁ h₁ => ?_)
    fun fs₁ hend h₁ => Or.inr ⟨rfl, hend, h₁⟩
  have hedit := edit_eq (f := fun n : Node => { n with
    info := (n.info + 1) % 2 ^ 32, blocks := max n.blocks (j + 1),
    ents := Function.update n.ents j (some (i, nm)) }) hd
  rw [← hedit] at h₁
  obtain ⟨fs₂, hx₂, h₂⟩ := nlinksInc_edit h₁ (Tree.Held.edit ⟨ni, hni, hiref⟩ fun _ => rfl)
  rw [add_eq_edits fun k n hn => (h.bounds hn).2.2] at h₂
  exact Op.wpx_of_eq hx₂ (.inl ⟨rfl, h₂⟩)

end Entries

end Ucore.Sfs
