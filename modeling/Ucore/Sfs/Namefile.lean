import Ucore.Sfs.Getdirentry

/-!
# The name of a directory

Reference model of `sfs_namefile` (`sfs_inode.c`): the path is written from its end, by a walk from the
directory up to the root with a look in each parent for the entry of the directory below.

* `nameLoop`, `sfsNamefile` — the walk, and the path moved to the front of the buffer;
* `PathTo` — the names on the way from the root to a directory;
* `nameLoop_spec`, `sfsNamefile_spec` — what is in the buffer, by the length of the path.
-/

namespace Ucore.Sfs

open Bytes

/-- `ptr[0]` … `ptr[alen - 1]`: a name and a slash. -/
def putName (buf : ℕ → UInt8) (ptr : ℕ) (name : Name) : ℕ → UInt8 :=
  let copied := splice buf ptr (strlen name) fun j => (name.val[j]?).getD 0
  Function.update copied (ptr + strlen name) SLASH

/-- What the loop of `sfs_namefile` leaves: its return value, the buffer, `ptr` and `resid`. -/
structure Walk where
  ret : Option Err
  buf : ℕ → UInt8
  ptr : ℕ
  resid : ℕ

/-- The entry of node `ino` in its parent, whose inode is locked. -/
def findName (parent ino : ℕ) : Op Fs Err Entry := do
  trylockSin parent
  onSin parent (direntFindino ino)

/-- The loop of `sfs_namefile`, and the `vop_ref_dec` after it. -/
def nameLoop (node : ℕ) (buf : ℕ → UInt8) (ptr resid : ℕ) : Op Fs Err Walk :=
  if node = SFS_BLKN_ROOT then do
    refDec node
    pure ⟨none, buf, ptr, resid⟩
  else do
    match ← Op.attempt (loadParent node) with
    | .error e =>
      refDec node
      pure ⟨some e, buf, ptr, resid⟩
    | .ok parent =>
      refDec node
      let s ← sinOf parent
      Op.assert (node ≠ parent ∧ s.din.type = SFS_TYPE_DIR)
      match ← Op.attempt (findName parent node) with
      | .error e =>
        refDec parent
        pure ⟨some e, buf, ptr, resid⟩
      | .ok entry =>
        let alen := strlen entry.name + 1
        if h : resid < alen then
          refDec parent
          pure ⟨some .noMem, buf, ptr, resid⟩
        else nameLoop parent (putName buf (ptr - alen) entry.name) (ptr - alen) (resid - alen)
termination_by resid
decreasing_by exact Nat.sub_lt (Nat.lt_of_lt_of_le (Nat.succ_pos _) (Nat.not_lt.mp h)) (Nat.succ_pos _)

/-- The end of `sfs_namefile`: the path is moved to the front. -/
def moveName (iob : Iobuf) (w : Walk) : Op Fs Err (Option Err × Iobuf) := do
  let alen := iob.resid - w.resid - 2
  let moved := splice w.buf (iob.base + 1) alen fun j => w.buf (w.ptr + j)
  let buf := Function.update (Function.update moved iob.base SLASH) (iob.base + 1 + alen) 0
  let iob ← iobufSkip { iob with buf := buf } alen
  pure (none, iob)

/-- `sfs_namefile`, with its return value; `entry` says that `kmalloc` has found memory. -/
def sfsNamefile (entry : Bool) (node : ℕ) (iob : Iobuf) : Op Fs Err (Option Err × Iobuf) :=
  if iob.resid ≤ 2 ∨ entry = false then pure (some .noMem, iob)
  else do
    refInc node
    let w ← nameLoop node iob.buf (iob.base + iob.resid) (iob.resid - 2)
    match w.ret with
    | some e => pure (some e, { iob with buf := w.buf })
    | none => moveName iob w

/-! ## The names on the way -/

/-- Names and slashes. -/
def spell (ns : List Name) : List UInt8 := ns.flatMap fun name => name.val ++ [SLASH]

/-- The path of a directory: `/n1/n2/…/nk/`. -/
def pathBytes (ns : List Name) : List UInt8 := SLASH :: spell ns

theorem pathBytes_length (ns : List Name) : (pathBytes ns).length = (spell ns).length + 1 := List.length_cons

/-- A C string in a buffer. -/
def Spelled (buf : ℕ → UInt8) (base : ℕ) (bytes : List UInt8) : Prop :=
  ∀ j ≤ bytes.length, buf (base + j) = (bytes[j]?).getD 0

theorem spell_snoc (ns : List Name) (name : Name) : spell (ns ++ [name]) = spell ns ++ (name.val ++ [SLASH]) := by
  unfold spell
  rw [List.flatMap_append, List.flatMap_singleton]

/-- The names on the way from the root to a directory. -/
inductive PathTo (t : Tree) : ℕ → List Name → Prop where
  | root : PathTo t SFS_BLKN_ROOT []
  | child {d j : ℕ} {n : Node} {name : Name} {ns : List Name} (hd : t d = some n)
    (hdir : n.type = SFS_TYPE_DIR) (hlive : n.removed = false) (hne : d ≠ SFS_BLKN_ROOT)
    (he : t.ent (n.parent, j) = some (d, name)) (hp : PathTo t n.parent ns) : PathTo t d (ns ++ [name])

section Paths

variable {t : Tree} {d : ℕ} {ns ns' : List Name}

theorem PathTo.unique (hs : Sound t none) (h : PathTo t d ns) (h' : PathTo t d ns') : ns = ns' := by
  induction h generalizing ns' with
  | root =>
    cases h' with
    | root => rfl
    | child _ _ _ hne => exact absurd rfl hne
  | child hd hdir hlive hne he hp ih =>
    cases h' with
    | root => exact absurd rfl hne
    | child hd' _ _ _ he' hp' =>
      rw [hd] at hd'
      cases hd'
      obtain rfl := ih hp'
      have hslot := hs.once _ _ _ _ _ ⟨_, hd, hdir⟩ he he'
      cases hslot
      rw [he] at he'
      cases he'
      rfl

/-- A directory is not its own parent. -/
theorem PathTo.parent_ne {n : Node} {name : Name} {j : ℕ} (hs : Sound t none) (hd : t d = some n)
    (hdir : n.type = SFS_TYPE_DIR) (hlive : n.removed = false) (hne : d ≠ SFS_BLKN_ROOT)
    (he : t.ent (n.parent, j) = some (d, name)) (hp : PathTo t n.parent ns) : d ≠ n.parent := by
  intro hself
  have hlonger : PathTo t d (ns ++ [name]) := .child hd hdir hlive hne he hp
  rw [← hself] at hp
  have heq := congrArg List.length (hp.unique hs hlonger)
  simp at heq

end Paths

/-! ## The walk -/

section Walk

variable {R : ℕ → Prop} {k : Lk} {fs : Fs} {t : Tree} {p i j : ℕ} {m : Node} {name : Name}

/-- The scan ends at the only slot with the number: by induction on the slots that are left. -/
theorem findinoLoop_spec (h : Own R k.vol k.din) (hf : k.Filled) (htype : k.din.type = SFS_TYPE_DIR)
    (hj : j < k.din.blocks) (hino : (k.entry j).ino = i)
    (honce : ∀ j' < k.din.blocks, (k.entry j').ino = i → j' = j) : ∀ (n i₀ : ℕ), i₀ + n = k.din.blocks →
      i₀ ≤ j → findinoLoop i i₀ n k = some (.ok (k.entry j), k) := by
  intro n
  induction n with
  | zero => exact fun i₀ hn hle => absurd hj (by omega)
  | succ n ih =>
    intro i₀ hn hle
    have hlt : i₀ < k.din.blocks := by omega
    unfold findinoLoop
    rw [Op.bind_of_ok (direntRead_eq h hf htype hlt)]
    by_cases hhit : (k.entry i₀).ino = i
    · rw [if_pos hhit, honce i₀ hlt hhit]
      rfl
    · have hne : i₀ ≠ j := fun he => hhit (he ▸ hino)
      rw [if_neg hhit]
      exact ih (i₀ + 1) (by omega) (by omega)

/-- The entry of a directory is found in its parent. -/
theorem findName_spec (h : Refines fs (t.hold p)) (hs : Sound t none) (hp : t p = some m)
    (hlive : m.removed = false) (he : t.ent (p, j) = some (i, name)) (hi : t.isDir i) :
    findName p i fs = some (.ok ⟨i, name⟩, fs) := by
  obtain ⟨s, hcache, hnode⟩ := h.stores.cached (hold_some hp) (Nat.succ_pos _)
  have hents : (fs.lk s).ents = m.ents := congrArg Node.ents hnode
  rw [Tree.ent_of hp, ← hents] at he
  have htype : (fs.lk s).din.type = SFS_TYPE_DIR := by
    unfold Lk.ents at he
    split at he
    · rename_i hin
      exact hin.1
    · cases he
  have hslot : ∀ j', j' < (fs.lk s).din.blocks → ((fs.lk s).entry j').ino ≠ 0 →
      t.ent (p, j') = some (((fs.lk s).entry j').ino, ((fs.lk s).entry j').name) := by
    intro j' hj' h0
    rw [Tree.ent_of hp, ← hents]
    exact ents_live htype hj' h0
  have hj : j < (fs.lk s).din.blocks := by
    by_contra hge
    rw [Lk.ents_beyond (Nat.not_lt.mp hge)] at he
    cases he
  have h0 : ((fs.lk s).entry j).ino ≠ 0 := fun h0 => by
    rw [ents_hole h0] at he
    cases he
  rw [ents_live htype hj h0] at he
  have hentry : (fs.lk s).entry j = ⟨i, name⟩ := by
    cases he
    rfl
  have hino : ((fs.lk s).entry j).ino = i := by rw [hentry]
  have hj' := hslot j hj h0
  have honce : ∀ j' < (fs.lk s).din.blocks, ((fs.lk s).entry j').ino = i → j' = j := by
    intro j' hlt heq
    have hent := hslot j' hlt (by rw [heq, ← hino]; exact h0)
    rw [heq] at hent
    rw [hino] at hj'
    exact congrArg Prod.snd (hs.once i _ _ _ _ hi hent hj')
  have hloop := findinoLoop_spec (h.stores.owned.choose_spec.2.own_lk hcache)
    (h.stores.filled_lk hcache htype) htype hj
    hino honce (fs.lk s).din.blocks 0 (Nat.zero_add _) (Nat.zero_le j)
  have hfind : direntFindino i (fs.lk s) = some (.ok (Entry.mk i name), fs.lk s) := by
    unfold direntFindino
    rw [Op.bind_of_ok (rfl : Op.gets _ (fs.lk s) = some (.ok (fs.lk s).din.blocks, fs.lk s)), hloop, hentry]
  have hlock := trylockSin_eq h.stores (hold_some hp) (Nat.succ_pos _)
  rw [if_neg (by simp [hlive])] at hlock
  unfold findName
  rw [Op.bind_of_ok hlock, onSin_of_eq hcache hfind, Fs.put_lk hcache]

theorem putName_inside (buf : ℕ → UInt8) (ptr : ℕ) (name : Name) {j : ℕ} (hj : j < strlen name + 1) :
    putName buf ptr name (ptr + j) = ((name.val ++ [SLASH])[j]?).getD 0 := by
  unfold putName
  by_cases hlast : j = strlen name
  · subst hlast
    rw [Function.update_self]
    unfold strlen
    rw [List.getElem?_append_right le_rfl, Nat.sub_self]
    rfl
  · have hlt : j < name.val.length := by
      unfold strlen at hj hlast
      omega
    rw [Function.update_of_ne (by omega), splice_of_mem (Nat.le_add_right ..) (by unfold strlen; omega),
      Nat.add_sub_cancel_left, List.getElem?_append_left hlt]

theorem putName_outside (buf : ℕ → UInt8) (ptr : ℕ) (name : Name) {a : ℕ}
    (ha : a < ptr ∨ ptr + (strlen name + 1) ≤ a) : putName buf ptr name a = buf a := by
  unfold putName
  rw [Function.update_of_ne (by omega), splice_of_not_mem (by omega)]

/-- One round: the parent is held in place of the directory, and the name is written if it fits. -/
theorem nameLoop_child {d : ℕ} {n : Node} (h : Refines fs (t.hold d)) (hs : Sound t none) (hd : t d = some n)
    (hdir : n.type = SFS_TYPE_DIR) (hlive : n.removed = false) (hne : d ≠ SFS_BLKN_ROOT)
    (he : t.ent (n.parent, j) = some (d, name)) (hparent : d ≠ n.parent) (buf : ℕ → UInt8) (ptr resid : ℕ) :
    ∃ fs₁, Refines fs₁ (t.hold n.parent) ∧ nameLoop d buf ptr resid fs =
      if resid < strlen name + 1 then (do
        refDec n.parent
        pure (Walk.mk (some .noMem) buf ptr resid) : Op Fs Err Walk) fs₁
      else nameLoop n.parent (putName buf (ptr - (strlen name + 1)) name) (ptr - (strlen name + 1))
        (resid - (strlen name + 1)) fs₁ := by
  have hlinked := Linked.of_dir hd hdir hlive
  obtain ⟨m, hm, hmlive, -⟩ := Linked.parent hs hd hdir hlive
  have hmdir : m.type = SFS_TYPE_DIR := by
    rw [Tree.ent_of hm] at he
    exact (hs.inside _ m j hm (by rw [he]; nofun)).1
  obtain ⟨fs₁, hload, href⟩ := loadParent_spec h hs hd hdir hlive
  have hself : (t.hold d).hold n.parent d = some { n with ref := n.ref + 1 } := by
    rw [hold_apply, if_neg hparent]
    exact hold_some hd
  obtain ⟨fs₂, hdec, href₂⟩ := refDec_hold href hself (Nat.succ_pos _) hlive
  rw [hold_hold_drop hd (hlinked.stays hs hd)] at href₂
  obtain ⟨s, hcache, hnode⟩ := href₂.stores.cached (hold_some hm) (Nat.succ_pos _)
  have htype : s.din.type = SFS_TYPE_DIR := (congrArg Node.type hnode).trans hmdir
  have hattempt : Op.attempt (loadParent d) fs = some (.ok (.ok n.parent), fs₁) := by
    unfold Op.attempt
    rw [hload]
    rfl
  have hfind : Op.attempt (findName n.parent d) fs₂ = some (.ok (.ok ⟨d, name⟩), fs₂) := by
    unfold Op.attempt
    rw [findName_spec href₂ hs hm hmlive he ⟨n, hd, hdir⟩]
    rfl
  refine ⟨fs₂, href₂, ?_⟩
  rw [nameLoop, if_neg hne, Op.bind_of_ok hattempt]
  dsimp only
  rw [Op.bind_of_ok hdec, Op.bind_of_ok (sinOf_eq hcache),
    Op.bind_of_ok (if_pos ⟨hparent, htype⟩ : Op.assert _ fs₂ = some (.ok (), fs₂)), Op.bind_of_ok hfind]
  dsimp only
  split
  · rfl
  · rfl

/-- What the walk leaves when the path is `bytes`. -/
structure Walked (bytes : List UInt8) (buf : ℕ → UInt8) (ptr resid : ℕ) (w : Walk) : Prop where
  frame : ∀ a, a < ptr - resid ∨ ptr ≤ a → w.buf a = buf a
  fits : bytes.length ≤ resid → w.ret = none ∧ w.resid = resid - bytes.length ∧ w.ptr = ptr - bytes.length ∧
    ∀ j < bytes.length, w.buf (w.ptr + j) = (bytes[j]?).getD 0
  short : resid < bytes.length → w.ret = some .noMem

/-- The walk from a directory up: by induction on the way to it. -/
theorem nameLoop_spec {d : ℕ} {ns : List Name} (hs : Sound t none) (hp : PathTo t d ns) :
    ∀ (fs : Fs) (buf : ℕ → UInt8) (ptr resid : ℕ), Refines fs (t.hold d) → resid ≤ ptr →
      ∃ w fs', nameLoop d buf ptr resid fs = some (.ok w, fs') ∧ Refines fs' t ∧
        Walked (spell ns) buf ptr resid w := by
  induction hp with
  | root =>
    intro fs buf ptr resid h _
    obtain ⟨n, hn, hdir, hlive, -⟩ := hs.root
    obtain ⟨fs', hdec, href⟩ := refDec_hold h (hold_some hn) (Nat.succ_pos _) hlive
    rw [hold_drop hn ((Linked.of_dir hn hdir hlive).stays hs hn)] at href
    refine ⟨⟨none, buf, ptr, resid⟩, fs', ?_, href, ⟨fun _ _ => rfl, fun _ => ⟨rfl, rfl, rfl, nofun⟩, nofun⟩⟩
    rw [nameLoop, if_pos rfl, Op.bind_of_ok hdec]
    rfl
  | @child d j n name ns hd hdir hlive hne he hp ih =>
    intro fs buf ptr resid h hle
    obtain ⟨fs₁, href, hround⟩ := nameLoop_child h hs hd hdir hlive hne he
      (hp.parent_ne hs hd hdir hlive hne he) buf ptr resid
    have hlen : (spell (ns ++ [name])).length = (spell ns).length + (strlen name + 1) := by
      rw [spell_snoc, List.length_append, List.length_append]
      rfl
    rw [hround]
    by_cases hshort : resid < strlen name + 1
    · obtain ⟨m, hm, hmlive, hpos⟩ := Linked.parent hs hd hdir hlive
      obtain ⟨fs', hdec, href'⟩ := refDec_hold href (hold_some hm) (Nat.succ_pos _) hmlive
      rw [hold_drop hm (Linked.stays ⟨m, hm, hmlive, hpos⟩ hs hm)] at href'
      rw [if_pos hshort, Op.bind_of_ok hdec]
      exact ⟨_, fs', rfl, href', ⟨fun _ _ => rfl, fun hfit => by omega, fun _ => rfl⟩⟩
    · rw [if_neg hshort]
      obtain ⟨w, fs', hrun, href', hw⟩ := ih fs₁ (putName buf (ptr - (strlen name + 1)) name)
        (ptr - (strlen name + 1)) (resid - (strlen name + 1)) href (by omega)
      refine ⟨w, fs', hrun, href', ⟨fun a ha => ?_, fun hfit => ?_, fun hlt => hw.short (by omega)⟩⟩
      · rw [hw.frame a (by omega), putName_outside _ _ _ (by omega)]
      · obtain ⟨hret, hresid, hptr, hbytes⟩ := hw.fits (by omega)
        refine ⟨hret, by omega, by omega, fun j hj => ?_⟩
        rw [spell_snoc]
        by_cases hold : j < (spell ns).length
        · rw [List.getElem?_append_left hold]
          exact hbytes j hold
        · -- the name of this round; the rounds after it write in front of it
          have haddr : w.ptr + j = ptr - (strlen name + 1) + (j - (spell ns).length) := by omega
          rw [List.getElem?_append_right (Nat.not_lt.mp hold), haddr, hw.frame _ (by omega),
            putName_inside _ _ _ (by omega)]

/-- The path that the walk has left is moved to the front. -/
theorem moveName_spec {bytes : List UInt8} {iob : Iobuf} {w : Walk} (fs : Fs)
    (hfit : bytes.length ≤ iob.resid - 2)
    (h2 : 2 < iob.resid) (hresid : w.resid = iob.resid - 2 - bytes.length)
    (hbytes : ∀ j < bytes.length, w.buf (w.ptr + j) = (bytes[j]?).getD 0) :
    ∃ iob', moveName iob w fs = some (.ok (none, iob'), fs) ∧ Spelled iob'.buf iob.base (SLASH :: bytes) ∧
      ∀ a, a < iob.base ∨ iob.base + iob.resid ≤ a → iob'.buf a = w.buf a := by
  have halen : iob.resid - w.resid - 2 = bytes.length := by omega
  unfold moveName iobufSkip
  rw [halen, Op.bind_assoc, Op.bind_of_ok (if_pos (by dsimp only; omega) : Op.assert _ fs = some (.ok (), fs))]
  refine ⟨_, rfl, fun j hj => ?_, fun a ha => ?_⟩
  · rw [List.length_cons] at hj
    dsimp only
    match j, hj with
    | 0, _ =>
      rw [Function.update_of_ne (by omega)]
      exact Function.update_self ..
    | j + 1, hj =>
      rw [List.getElem?_cons_succ]
      by_cases hend : j = bytes.length
      · subst hend
        rw [show iob.base + (bytes.length + 1) = iob.base + 1 + bytes.length by omega, Function.update_self,
          List.getElem?_eq_none le_rfl]
        rfl
      · rw [Function.update_of_ne (by omega), Function.update_of_ne (by omega),
          splice_of_mem (by omega) (by omega), show iob.base + (j + 1) - (iob.base + 1) = j by omega]
        exact hbytes j (by omega)
  · dsimp only
    rw [Function.update_of_ne (by omega), Function.update_of_ne (by omega), splice_of_not_mem (by omega)]

/-- `sfs_namefile` returns 0. -/
def Succeeds (entry : Bool) (iob : Iobuf) (ns : List Name) : Prop :=
  entry = true ∧ 2 < iob.resid ∧ (pathBytes ns).length + 1 ≤ iob.resid

instance (entry : Bool) (iob : Iobuf) (ns : List Name) : Decidable (Succeeds entry iob ns) :=
  inferInstanceAs (Decidable (_ ∧ _))

/-- What `sfs_namefile` does with a directory that the caller holds. -/
theorem sfsNamefile_spec {d : ℕ} {n : Node} {ns : List Name} (h : Refines fs t) (hs : Sound t none)
    (hd : t d = some n) (href : 0 < n.ref) (hp : PathTo t d ns) (entry : Bool) (iob : Iobuf) :
    ∃ iob' fs', sfsNamefile entry d iob fs =
        some (.ok (if Succeeds entry iob ns then none else some .noMem, iob'), fs') ∧ Refines fs' t ∧
      (∀ a, a < iob.base ∨ iob.base + iob.resid ≤ a → iob'.buf a = iob.buf a) ∧
      (Succeeds entry iob ns → Spelled iob'.buf iob.base (pathBytes ns)) := by
  unfold sfsNamefile
  by_cases hrefuse : iob.resid ≤ 2 ∨ entry = false
  · have hfail : ¬ Succeeds entry iob ns := by
      rintro ⟨hentry, h2, -⟩
      rcases hrefuse with hle | hf
      · omega
      · rw [hentry] at hf
        cases hf
    rw [if_pos hrefuse, if_neg hfail]
    exact ⟨iob, fs, rfl, h, fun _ _ => rfl, fun hok => absurd hok hfail⟩
  · have h2 : 2 < iob.resid := by
      by_contra hle
      exact hrefuse (Or.inl (Nat.not_lt.mp hle))
    have hentry : entry = true := by
      by_contra hf
      exact hrefuse (Or.inr (Bool.eq_false_iff.mpr hf))
    rw [if_neg hrefuse]
    obtain ⟨fs₁, hinc, hhold⟩ := refInc_spec h hd href
    obtain ⟨w, fs', hrun, href', hw⟩ := nameLoop_spec hs hp fs₁ iob.buf (iob.base + iob.resid)
      (iob.resid - 2) hhold (by omega)
    rw [Op.bind_of_ok hinc, Op.bind_of_ok hrun]
    by_cases hfit : (spell ns).length ≤ iob.resid - 2
    · have hok : Succeeds entry iob ns := ⟨hentry, h2, by rw [pathBytes_length]; omega⟩
      obtain ⟨hret, hresid, -, hbytes⟩ := hw.fits hfit
      obtain ⟨iob', hmove, hspelled, hframe⟩ := moveName_spec fs' hfit h2 hresid hbytes
      rw [hret, if_pos hok]
      refine ⟨iob', fs', hmove, href', fun a ha => ?_, fun _ => hspelled⟩
      rw [hframe a ha, hw.frame a (by omega)]
    · have hfail : ¬ Succeeds entry iob ns := by
        rintro ⟨-, -, hlen⟩
        rw [pathBytes_length] at hlen
        omega
      rw [hw.short (Nat.not_le.mp hfit), if_neg hfail]
      exact ⟨_, fs', rfl, href', fun a ha => hw.frame a (by omega), fun hok => absurd hok hfail⟩

end Walk

end Ucore.Sfs
