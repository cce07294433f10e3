import Ucore.Sfs.Namefile
import Ucore.Vfs.Lookup

/-!
# The name of a directory leads back to it

* `callees` — the functions under `vfs_lookup` on a mounted SFS;
* `Down` — the entries on the way down a tree;
* `lookup_cwdPath` — `vfs_lookup` of the device, a colon and the path of a directory;
* `getcwd_lookup` — `sfs_namefile` and that lookup.
-/

namespace Ucore.Sfs

open Sfs.Tree Bytes
open VfsLookup (COLON plain)

/-- `vop_lookup`. -/
def vopLookup (node : ℕ) (path : Name) : Op Fs Err ℕ := do
  asDir node
  sfsLookup node path

/-- `vop_lookup_parent`. -/
def vopLookupParent (node : ℕ) (path : Name) : Op Fs Err (ℕ × Name) := do
  asDir node
  sfsLookupParent node path

/-- `sfs_get_root`: an error is a panic. -/
def sfsGetRoot : Op Fs Err ℕ := do
  match ← Op.attempt (loadInode SFS_BLKN_ROOT) with
  | .ok _ => pure SFS_BLKN_ROOT
  | .error _ => fun _ => none

/-- A node that a variable holds is handed out; `none` is `NULL`. -/
def handOut : Option ℕ → Op Fs Err ℕ
  | none => Op.throw .noEnt
  | some node => do
    refInc node
    pure node

/-- The name of the device with the file system; neither a colon nor a slash may be in it. -/
structure DevName where
  name : Name
  nonempty : name ≠ noName
  colon : COLON ∉ name.val
  slash : SLASH ∉ name.val

/-- What `vfs_lookup` calls on a mounted SFS; `others` are the other devices. -/
def callees (dev : DevName) (others : Name → Op Fs Err ℕ) (pwd bootfs : Option ℕ) : VfsLookup.Callees Fs Err ℕ where
  getCurdir := handOut pwd
  getRoot name := if name = dev.name then sfsGetRoot else others name
  getBootfs := handOut bootfs
  fsRoot _ := sfsGetRoot
  refDec := refDec
  lookup := vopLookup
  lookupParent := vopLookupParent
  inval := .inval

/-! ## The way down -/

/-- The entries with the names `ns` lead from one node to another. -/
inductive Down (t : Tree) : ℕ → List Name → ℕ → Prop where
  | nil {a : ℕ} : Down t a [] a
  | cons {a i d j : ℕ} {name : Name} {ns : List Name} (ha : t.isDir a) (he : t.ent (a, j) = some (i, name))
    (h : Down t i ns d) : Down t a (name :: ns) d

/-- A name that a lookup takes for the name of an entry. -/
structure Proper (name : Name) : Prop where
  nonempty : name ≠ noName
  slash : SLASH ∉ name.val
  length : strlen name ≤ SFS_MAX_FNAME_LEN
  dot : name ≠ DOT
  dotdot : name ≠ DOTDOT

section Ways

variable {t : Tree} {a d i j : ℕ} {name : Name} {ns : List Name} {r : Except Err ℕ}

theorem Down.snoc (h : Down t a ns d) (hd : t.isDir d) (he : t.ent (d, j) = some (i, name)) :
    Down t a (ns ++ [name]) i := by
  induction h with
  | nil => exact .cons hd he .nil
  | cons ha he' _ ih => exact .cons ha he' (ih hd he)

theorem PathTo.down (hs : Sound t none) (h : PathTo t d ns) : Down t SFS_BLKN_ROOT ns d := by
  induction h with
  | root => exact .nil
  | @child d j n name ns hd _ _ _ he hp ih =>
    obtain ⟨m, hm⟩ : ∃ m, t n.parent = some m := by
      cases hm : t n.parent with
      | none =>
        unfold Tree.ent at he
        rw [hm] at he
        cases he
      | some m => exact ⟨m, rfl⟩
    have hent := he
    rw [Tree.ent_of hm] at hent
    exact ih.snoc ⟨m, hm, (hs.inside _ m j hm (by rw [hent]; nofun)).1⟩ he

theorem Down.entries (h : Down t a ns d) (hname : name ∈ ns) : ∃ p i, t.ent p = some (i, name) := by
  induction h with
  | nil => cases hname
  | cons _ he _ ih =>
    rcases List.mem_cons.mp hname with rfl | hname
    · exact ⟨_, _, he⟩
    · exact ih hname

/-- A component that is the name of an entry leads to its node. -/
theorem Step.of_ent (hs : Sound t none) (h : Step t a name.val r) (ha : t.isDir a)
    (he : t.ent (a, j) = some (i, name)) (hname : Proper name) : r = .ok i := by
  cases h with
  | notDir hd htype =>
    obtain ⟨n, hn, hdir⟩ := ha
    rw [hn] at hd
    cases hd
    exact absurd hdir htype
  | dot _ hc => exact absurd (Subtype.ext hc) hname.dot
  | dotdot _ _ hc => exact absurd (Subtype.ext hc) hname.dotdot
  | tooBig _ _ _ hlen => exact absurd hname.length (Nat.not_le.mpr hlen)
  | entry _ _ _ _ he' hc =>
    obtain rfl := Subtype.ext hc
    obtain rfl := hs.unique _ _ _ _ _ _ he he'
    rw [he] at he'
    cases he'
    rfl
  | noEnt _ _ _ _ hno => exact absurd rfl (hno _ _ _ he)

theorem Resolves.of_down (hs : Sound t none) (h : Down t a ns d) (hns : ∀ name ∈ ns, Proper name)
    (hr : Resolves t a (ns.map Subtype.val) r) : r = .ok d := by
  induction h with
  | nil =>
    cases hr
    rfl
  | @cons a i d j name ns ha he _ ih =>
    have hproper := hns name List.mem_cons_self
    cases hr with
    | fail hstep =>
      have := Step.of_ent hs hstep ha he hproper
      cases this
    | cons hstep hr =>
      have := Step.of_ent hs hstep ha he hproper
      cases this
      exact ih (fun nm hnm => hns nm (List.mem_cons_of_mem _ hnm)) hr

/-- The path, as the components that `sfs_lookup` takes off. -/
theorem filter_splitOn_spell (hns : ∀ name ∈ ns, name ≠ noName ∧ SLASH ∉ name.val) :
    ((spell ns).splitOn SLASH).filter (· ≠ []) = ns.map Subtype.val := by
  induction ns with
  | nil => rfl
  | cons name ns ih =>
    obtain ⟨hne, hslash⟩ := hns name List.mem_cons_self
    have hval : name.val ≠ [] := fun he => hne (Subtype.ext he)
    have hspell : spell (name :: ns) = name.val ++ SLASH :: spell ns := by
      unfold spell
      rw [List.flatMap_cons, List.append_assoc]
      rfl
    rw [hspell, List.splitOn_append_cons_self_of_not_mem hslash, List.filter_cons_of_pos (by simpa using hval),
      ih fun nm hnm => hns nm (List.mem_cons_of_mem _ hnm), List.map_cons]

theorem zero_not_mem_spell (ns : List Name) : (0 : UInt8) ∉ spell ns := by
  unfold spell
  rw [List.mem_flatMap]
  rintro ⟨name, -, h0⟩
  rcases List.mem_append.mp h0 with h0 | h0
  · exact name.property h0
  · rw [List.mem_singleton] at h0
    exact absurd h0 (by decide)

/-- The path without its first slash. -/
def spellName (ns : List Name) : Name := ⟨spell ns, zero_not_mem_spell ns⟩

/-- The device, a colon and the path of a directory: what `vfs_getcwd` writes. -/
def cwdPath (dev : DevName) (ns : List Name) : Name := ⟨dev.name.val ++ COLON :: pathBytes ns, fun h0 => by
  rcases List.mem_append.mp h0 with h0 | h0
  · exact dev.name.property h0
  · rcases List.mem_cons.mp h0 with h0 | h0
    · exact absurd h0 (by decide)
    · rcases List.mem_cons.mp h0 with h0 | h0
      · exact absurd h0 (by decide)
      · exact zero_not_mem_spell ns h0⟩

theorem spell_head (hns : ∀ name ∈ ns, name ≠ noName ∧ SLASH ∉ name.val) : (spell ns).head? ≠ some SLASH := by
  cases ns with
  | nil => nofun
  | cons name ns =>
    obtain ⟨hne, hslash⟩ := hns name List.mem_cons_self
    unfold spell
    rw [List.flatMap_cons]
    cases hval : name.val with
    | nil => exact absurd (Subtype.ext hval) hne
    | cons c l =>
      rw [hval] at hslash
      intro he
      cases he
      exact hslash List.mem_cons_self

/-- `get_device` takes the device off. -/
theorem front_cwdPath (dev : DevName) (hns : ∀ name ∈ ns, name ≠ noName ∧ SLASH ∉ name.val) :
    VfsLookup.front (cwdPath dev ns) = .device dev.name (spellName ns) := by
  have hplain : ∀ c ∈ dev.name.val, plain c = true := by
    intro c hc
    have h1 : c ≠ COLON := fun he => dev.colon (he ▸ hc)
    have h2 : c ≠ SLASH := fun he => dev.slash (he ▸ hc)
    simp [plain, h1, h2]
  have hcolon : plain COLON = false := by decide
  have htake : (cwdPath dev ns).val.takeWhile plain = dev.name.val := by
    show (dev.name.val ++ COLON :: pathBytes ns).takeWhile plain = _
    rw [List.takeWhile_append_of_pos hplain, List.takeWhile_cons_of_neg (by simp [hcolon]), List.append_nil]
  have hdrop : (cwdPath dev ns).val.dropWhile plain = COLON :: pathBytes ns := by
    show (dev.name.val ++ COLON :: pathBytes ns).dropWhile plain = _
    rw [List.dropWhile_append_of_pos hplain, List.dropWhile_cons_of_neg (by simp [hcolon])]
  have hname : VfsLookup.devname (cwdPath dev ns) = dev.name := Subtype.ext htake
  have hsub : VfsLookup.subpath (cwdPath dev ns) = spellName ns := by
    refine Subtype.ext ?_
    unfold VfsLookup.subpath
    dsimp only
    rw [hdrop]
    show (SLASH :: spell ns).dropWhile (· = SLASH) = spell ns
    rw [List.dropWhile_cons_of_pos (by simp)]
    have hhead := spell_head hns
    cases hspell : spell ns with
    | nil => rfl
    | cons c l =>
      rw [hspell] at hhead
      have hc : c ≠ SLASH := fun he => hhead (by rw [he]; rfl)
      rw [List.dropWhile_cons_of_neg (by simpa using hc)]
  unfold VfsLookup.front
  rw [hdrop, hname, hsub, List.head?_cons]
  dsimp only
  rw [if_pos rfl, if_neg dev.nonempty]

end Ways

/-! ## The lookup -/

section Lookup

variable {fs : Fs} {t : Tree} {d k : ℕ} {c : List UInt8} {cs : List (List UInt8)} {r : Except Err ℕ}
  {ns : List Name}

/-- A reference does not change what a component leads to. -/
theorem Step.of_hold (h : Step (t.hold k) d c r) : Step t d c r := by
  have hisDir : (t.hold k).isDir = t.isDir := isDir_edit fun _ _ => rfl
  have hdirs : ∀ {i}, (t.hold k).isDir i → t.isDir i := fun hi => by rwa [hisDir] at hi
  have hents : (t.hold k).ent = t.ent := ent_edit fun _ _ => rfl
  have hnode : ∀ {n}, t.hold k d = some n → ∃ m, t d = some m ∧ m.type = n.type ∧ m.parent = n.parent := by
    intro n hn
    obtain ⟨m, hm, rfl⟩ := edit_some.mp hn
    refine ⟨m, hm, ?_⟩
    split
    · exact ⟨rfl, rfl⟩
    · exact ⟨rfl, rfl⟩
  cases h with
  | notDir hd htype =>
    obtain ⟨m, hm, ht, -⟩ := hnode hd
    exact .notDir hm (by rwa [ht])
  | dot hd hc => exact .dot (hdirs hd) hc
  | dotdot hd htype hc =>
    obtain ⟨m, hm, ht, hparent⟩ := hnode hd
    rw [← hparent]
    exact .dotdot hm (ht.trans htype) hc
  | tooBig hd hdot hdotdot hlen => exact .tooBig (hdirs hd) hdot hdotdot hlen
  | entry hd hdot hdotdot hlen he hc => exact .entry (hdirs hd) hdot hdotdot hlen (by rwa [hents] at he) hc
  | noEnt hd hdot hdotdot hlen hno => exact .noEnt (hdirs hd) hdot hdotdot hlen (by rwa [hents] at hno)

theorem Resolves.of_hold (h : Resolves (t.hold k) d cs r) : Resolves t d cs r := by
  induction h with
  | nil => exact .nil
  | fail h => exact .fail h.of_hold
  | cons h _ ih => exact .cons h.of_hold ih

/-- The root that was held for the lookup is given up. -/
theorem release_root {n : Node} (hs : Sound t none) (hn : t k = some n) (hdir : n.type = SFS_TYPE_DIR)
    (hlive : n.removed = false) (h : Refines fs (heldBy (t.hold k) r)) :
    ∃ fs', refDec k fs = some (.ok (), fs') ∧ Refines fs' (heldBy t r) := by
  have hstay := (Linked.of_dir hn hdir hlive).stays hs hn
  cases r with
  | ok i =>
    obtain ⟨m, hm, href, hmlive⟩ : ∃ m, (t.hold k).hold i k = some m ∧ 0 < m.ref ∧ m.removed = false := by
      rw [hold_apply, hold_some hn]
      split
      · exact ⟨_, rfl, Nat.succ_pos _, hlive⟩
      · exact ⟨_, rfl, Nat.succ_pos _, hlive⟩
    have h : Refines fs ((t.hold k).hold i) := h
    obtain ⟨fs', hdec, href'⟩ := refDec_hold h hm href hmlive
    rw [hold_hold_drop hn hstay] at href'
    exact ⟨fs', hdec, href'⟩
  | error e =>
    have h : Refines fs (t.hold k) := h
    obtain ⟨fs', hdec, href'⟩ := refDec_hold h (hold_some hn) (Nat.succ_pos _) hlive
    rw [hold_drop hn hstay] at href'
    exact ⟨fs', hdec, href'⟩

/-- `vfs_lookup` of a path below a device resolves its components from the root on. -/
theorem vfsLookup_cwdPath (dev : DevName) (others : Name → Op Fs Err ℕ) (pwd bootfs : Option ℕ)
    (h : Refines fs t) (hs : Sound t none)
    (hns : ∀ name ∈ ns, name ≠ noName ∧ SLASH ∉ name.val) :
    ∃ r fs', VfsLookup.vfsLookup (callees dev others pwd bootfs) (cwdPath dev ns) fs = some (r, fs') ∧
      Refines fs' (heldBy t r) ∧ Resolves t SFS_BLKN_ROOT (ns.map Subtype.val) r := by
  obtain ⟨n, hn, hdir, hlive, -⟩ := hs.root
  obtain ⟨fs₁, hload, hhold⟩ := loadInode_hold h hn
  have hattempt : Op.attempt (loadInode SFS_BLKN_ROOT) fs = some (.ok (.ok ()), fs₁) := by
    unfold Op.attempt
    rw [hload]
    rfl
  have hroot : (callees dev others pwd bootfs).getRoot dev.name fs = some (.ok SFS_BLKN_ROOT, fs₁) := by
    show (if dev.name = dev.name then sfsGetRoot else others dev.name) fs = _
    unfold sfsGetRoot
    rw [if_pos rfl, Op.bind_of_ok hattempt]
    rfl
  have hdevice : VfsLookup.getDevice (callees dev others pwd bootfs) (cwdPath dev ns) fs =
      some (.ok (spellName ns, SFS_BLKN_ROOT), fs₁) := by
    unfold VfsLookup.getDevice
    rw [front_cwdPath dev hns]
    dsimp only
    rw [Op.bind_of_ok hroot]
    rfl
  unfold VfsLookup.vfsLookup
  rw [Op.bind_of_ok hdevice]
  dsimp only
  cases ns with
  | nil =>
    rw [if_neg (not_not.mpr (Subtype.ext rfl : spellName [] = noName))]
    exact ⟨.ok SFS_BLKN_ROOT, fs₁, rfl, hhold, .nil⟩
  | cons name ns =>
    have hne : spellName (name :: ns) ≠ noName := by
      intro he
      have hval : spell (name :: ns) = [] := congrArg Subtype.val he
      unfold spell at hval
      simp at hval
    have hself : t.hold SFS_BLKN_ROOT SFS_BLKN_ROOT = some { n with ref := n.ref + 1 } := hold_some hn
    have has := asDir_eq hhold.stores hself (Nat.succ_pos _)
    rw [if_pos hdir] at has
    obtain ⟨r, fs₂, hrun, href, hres⟩ := sfsLookup_spec hne (spell_head hns) hhold hs.hold hself hdir hlive
      (Nat.succ_pos _)
    have hcomp : components (spellName (name :: ns)) = (name :: ns).map Subtype.val := filter_splitOn_spell hns
    have hlookup : Op.attempt ((callees dev others pwd bootfs).lookup SFS_BLKN_ROOT (spellName (name :: ns))) fs₁ =
        some (.ok r, fs₂) := by
      unfold Op.attempt
      show Option.map _ ((vopLookup SFS_BLKN_ROOT (spellName (name :: ns))) fs₁) = _
      unfold vopLookup
      rw [Op.bind_of_ok has, hrun]
      rfl
    obtain ⟨fs', hdec, href'⟩ := release_root hs hn hdir hlive href
    refine ⟨r, fs', ?_, href', by rw [← hcomp]; exact hres.of_hold⟩
    have hdec : (callees dev others pwd bootfs).refDec SFS_BLKN_ROOT fs₂ = some (.ok (), fs') := hdec
    rw [if_pos hne]
    unfold Op.cleanup
    rw [Op.bind_of_ok hlookup, Op.bind_of_ok hdec]
    cases r <;> rfl

end Lookup

/-! ## The name of a directory -/

/-- `ref_count` of the inode with a number; 0 if it is not cached. -/
def refCount (fs : Fs) (i : ℕ) : ℕ :=
  match fs.cache i with
  | none => 0
  | some s => s.ref

theorem Refines.refCount_eq {fs fs' : Fs} {t : Tree} (h : Refines fs t) (h' : Refines fs' t) :
    refCount fs' = refCount fs := by
  have hview : ∀ fs i, refCount fs i = (fs.view i).ref := by
    intro fs i
    unfold refCount Fs.view
    cases fs.cache i <;> rfl
  funext i
  cases hi : t i with
  | none =>
    have huncached : ∀ {fs}, Refines fs t → fs.cache i = none := by
      intro fs h
      cases hc : fs.cache i with
      | none => rfl
      | some s => exact absurd hi (h.stores.has hc)
    unfold refCount
    rw [huncached h, huncached h']
  | some n =>
    rw [hview, hview]
    exact congrArg Node.ref ((h'.stores.node i n hi).trans (h.stores.node i n hi).symm)

/-- Every directory hangs in the tree, and the names in it are 1 to 255 bytes without a slash. -/
structure TreeShaped (t : Tree) : Prop where
  path : ∀ d n, t d = some n → n.type = SFS_TYPE_DIR → n.removed = false → ∃ ns, PathTo t d ns
  names : ∀ p i name, t.ent p = some (i, name) → name ≠ noName ∧ SLASH ∉ name.val ∧
    strlen name ≤ SFS_MAX_FNAME_LEN

/-- What becomes of one call of `sfs_namefile`, for the directory with the path `ns`. -/
structure Named (dev : DevName) (others : Name → Op Fs Err ℕ) (pwd bootfs : Option ℕ) (t : Tree) (d : ℕ)
    (ns : List Name) (fs : Fs) (entry : Bool) (iob : Iobuf) (ret : Option Err) (iob' : Iobuf) (fs' : Fs) :
    Prop where
  refines : Refines fs' t
  refs : refCount fs' = refCount fs
  frame : ∀ a, a < iob.base ∨ iob.base + iob.resid ≤ a → iob'.buf a = iob.buf a
  fits : ret = none → (pathBytes ns).length + 1 ≤ iob.resid
  spelled : ret = none → Spelled iob'.buf iob.base (pathBytes ns)
  back : ret = none → ∃ fs'',
    VfsLookup.vfsLookup (callees dev others pwd bootfs) (cwdPath dev ns) fs' = some (.ok d, fs'') ∧
    Refines fs'' (t.hold d)
  short : iob.resid < (pathBytes ns).length + 1 → ret ≠ none
  returns : Succeeds entry iob ns → ret = none

/-- **The name of the current directory leads back to it.**  In a tree without entries called `.` or `..`,
`sfs_namefile` of a directory that the caller holds writes its path into the buffer and nothing outside it, if
the path fits, and `vfs_lookup` of the device, a colon and that path is the directory; if it does not fit an
error is returned, and the references are as before in either case. -/
theorem getcwd_lookup {fs : Fs} {t : Tree} {d : ℕ} {n : Node} (h : Refines fs t) (hs : Sound t none)
    (hshape : TreeShaped t) (hdots : ∀ p i name, t.ent p = some (i, name) → name ≠ DOT ∧ name ≠ DOTDOT)
    (hd : t d = some n) (hdir : n.type = SFS_TYPE_DIR) (hlive : n.removed = false) (href : 0 < n.ref)
    (dev : DevName) (others : Name → Op Fs Err ℕ) (pwd bootfs : Option ℕ) (entry : Bool) (iob : Iobuf) :
    ∃ ns ret iob' fs', PathTo t d ns ∧ sfsNamefile entry d iob fs = some (.ok (ret, iob'), fs') ∧
      Named dev others pwd bootfs t d ns fs entry iob ret iob' fs' := by
  obtain ⟨ns, hp⟩ := hshape.path d n hd hdir hlive
  obtain ⟨iob', fs', hrun, href', hframe, hspelled⟩ := sfsNamefile_spec h hs hd href hp entry iob
  have hdown := hp.down hs
  have hproper : ∀ name ∈ ns, Proper name := by
    intro name hname
    obtain ⟨p, i, he⟩ := hdown.entries hname
    obtain ⟨hne, hslash, hlen⟩ := hshape.names p i name he
    exact ⟨hne, hslash, hlen, (hdots p i name he).1, (hdots p i name he).2⟩
  have hok : (if Succeeds entry iob ns then none else some Err.noMem) = none → Succeeds entry iob ns := by
    intro hret
    by_contra hfail
    rw [if_neg hfail] at hret
    cases hret
  refine ⟨ns, _, iob', fs', hp, hrun, href', h.refCount_eq href', hframe, fun hret => (hok hret).2.2,
    fun hret => hspelled (hok hret), fun _ => ?_, fun hshort hret => ?_, fun hsucc => if_pos hsucc⟩
  · obtain ⟨r, fs'', hlookup, href'', hres⟩ := vfsLookup_cwdPath dev others pwd bootfs href' hs fun name hname =>
      ⟨(hproper name hname).nonempty, (hproper name hname).slash⟩
    obtain rfl := hres.of_down hs hdown hproper
    exact ⟨fs'', hlookup, href''⟩
  · have := (hok hret).2.2
    omega

/-! ## A file system with one directory below the root -/

section Dir

open Occurrence

variable {name : Name} {i : ℕ}

theorem dirTree_path : PathTo (dirTree name) 4 [name] := by
  have hent : (dirTree name).ent (SFS_BLKN_ROOT, 0) = some (4, name) := by rw [dirTree_ent, if_pos rfl]
  have hpath : PathTo (dirTree name) 4 ([] ++ [name]) := .child rfl rfl rfl (by decide) hent .root
  exact hpath

theorem dirTree_shaped (hne : name ≠ noName) (hslash : SLASH ∉ name.val) (hlen : strlen name ≤ SFS_MAX_FNAME_LEN) :
    TreeShaped (dirTree name) := by
  refine ⟨fun d n hd _ _ => ?_, fun p i nm he => ?_⟩
  · rcases dirTree_some hd with ⟨rfl, rfl⟩ | ⟨rfl, rfl⟩
    · exact ⟨[], .root⟩
    · exact ⟨[name], dirTree_path⟩
  · obtain ⟨-, -, rfl⟩ := dirTree_ent_some he
    exact ⟨hne, hslash, hlen⟩

def disk0 : DevName := ⟨⟨[100, 105, 115, 107, 48], by decide⟩, by decide, by decide, by decide⟩

/-- Directory `a`, and a buffer of 16 bytes. -/
theorem getcwd_lookup_a : ∃ ns ret iob' fs', PathTo (dirTree ⟨[97], by decide⟩) 4 ns ∧
    sfsNamefile true 4 (iobufInit (fun _ => 7) 16 0) (dirFs ⟨[97], by decide⟩) = some (.ok (ret, iob'), fs') ∧
    Named disk0 (fun _ => Op.throw .noEnt) none none (dirTree ⟨[97], by decide⟩) 4 ns (dirFs ⟨[97], by decide⟩) true
      (iobufInit (fun _ => 7) 16 0) ret iob' fs' := by
  refine getcwd_lookup (n := subNode) (dirFs_refines (by decide)) (dirTree_sound _)
    (dirTree_shaped (by decide) (by decide) (by decide)) (fun p i nm he => ?_) rfl rfl rfl Nat.one_pos
    disk0 (fun _ => Op.throw .noEnt) none none true (iobufInit (fun _ => 7) 16 0)
  obtain ⟨-, -, rfl⟩ := dirTree_ent_some he
  decide

/-- A directory called `..`: its name is `/../`, and the lookup of that is the root. -/
theorem getcwd_lookup_dotdot : Refines (dirFs DOTDOT) (dirTree DOTDOT) ∧ Sound (dirTree DOTDOT) none ∧
    TreeShaped (dirTree DOTDOT) ∧ dirTree DOTDOT 4 = some subNode ∧ 4 ≠ SFS_BLKN_ROOT ∧
    ∃ iob' fs' fs'',
      sfsNamefile true 4 (iobufInit (fun _ => 7) 16 0) (dirFs DOTDOT) = some (.ok (none, iob'), fs') ∧
      Spelled iob'.buf 0 (pathBytes [DOTDOT]) ∧
      VfsLookup.vfsLookup (callees disk0 (fun _ => Op.throw .noEnt) none none) (cwdPath disk0 [DOTDOT]) fs' =
        some (.ok SFS_BLKN_ROOT, fs'') := by
  have href := dirFs_refines (show strlen DOTDOT ≤ SFS_MAX_FNAME_LEN by decide)
  have hs := dirTree_sound DOTDOT
  have hok : Succeeds true (iobufInit (fun _ => 7) 16 0) [DOTDOT] := by decide
  obtain ⟨iob', fs', hrun, href', -, hspelled⟩ := sfsNamefile_spec href hs rfl Nat.one_pos dirTree_path true
    (iobufInit (fun _ => 7) 16 0)
  rw [if_pos hok] at hrun
  have hns : ∀ nm ∈ [DOTDOT], nm ≠ noName ∧ SLASH ∉ nm.val := by decide
  obtain ⟨r, fs'', hlookup, -, hres⟩ := vfsLookup_cwdPath disk0 (fun _ => Op.throw .noEnt) none none href' hs hns
  have hroot : r = .ok SFS_BLKN_ROOT := by
    have htop : dirTree DOTDOT SFS_BLKN_ROOT = some (topNode DOTDOT) := rfl
    -- the component is taken for the parent of the root, whatever entries there are
    have hstep : ∀ {r : Except Err ℕ}, Step (dirTree DOTDOT) SFS_BLKN_ROOT DOTDOT.val r → r = .ok SFS_BLKN_ROOT := by
      intro r hstep
      cases hstep with
      | notDir hd htype =>
        rw [htop] at hd
        cases hd
        exact absurd rfl htype
      | dot _ hc => exact absurd hc (by decide)
      | dotdot hd _ _ =>
        rw [htop] at hd
        cases hd
        rfl
      | tooBig _ _ hne _ => exact absurd rfl hne
      | entry _ _ hne _ _ _ => exact absurd rfl hne
      | noEnt _ _ hne _ _ => exact absurd rfl hne
    cases hres with
    | fail h => cases hstep h
    | cons h hr =>
      cases hstep h
      cases hr
      rfl
  rw [hroot] at hlookup
  exact ⟨href, hs, dirTree_shaped (by decide) (by decide) (by decide), rfl, by decide, iob', fs', fs'', hrun,
    hspelled hok, hlookup⟩

end Dir

end Ucore.Sfs
