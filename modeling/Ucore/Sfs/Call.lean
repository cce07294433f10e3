import Ucore.Sfs.SyncSpec

/-!
# Calls of the file system

The abstract file system is a tree of nodes with the contents of the files; `Does` is one call on it, with its
reply.

* `Whole` — the invariant of the abstract file system.
* `Does.whole` — one call keeps it.
* `exec_does` — the file system does to the tree what the call says.
-/

namespace Ucore.Sfs

open Sfs.Tree

/-- The bytes of the files. -/
abbrev Contents := ℕ → ℕ → UInt8

inductive Call where
  | act (a : Act)
  | write (ino : ℕ) (buf : ℕ → UInt8) (offset : ℤ) (len : ℕ)
  | read (ino : ℕ) (buf : ℕ → UInt8) (offset : ℤ) (len : ℕ)
  | seek (ino : ℕ) (pos : ℤ)
  /-- `O_TRUNC`. -/
  | empty (ino : ℕ)
  | fsync (ino : ℕ)
  | sync

inductive Reply where
  | node (o : Option ℕ)
  | moved (x : Xfer)

namespace Call

def exec : Call → Op Fs Err Reply
  | act a => do pure (.node (← a.exec))
  | write i buf offset len => do pure (.moved (← io true i buf offset len))
  | read i buf offset len => do pure (.moved (← io false i buf offset len))
  | seek i pos => do pure ((fun _ => .node none) (← Sfs.seek i pos))
  | empty i => do pure ((fun _ => .node none) (← truncate i 0))
  | fsync i => do pure ((fun _ => .node none) (← Sfs.fsync i))
  | sync => do pure ((fun _ => .node none) (← Sfs.sync))

/-- The node that a call is about, if it is about a file. -/
def file : Call → Option ℕ
  | write i _ _ _ => some i
  | read i _ _ _ => some i
  | seek i _ => some i
  | empty i => some i
  | _ => none

/-- The caller holds the nodes. -/
def Held (t : Tree) : Call → Prop
  | act a => a.Held t
  | write i _ _ _ => t.Held i
  | read i _ _ _ => t.Held i
  | seek i _ => t.Held i
  | empty i => t.Held i
  | fsync i => t.Held i
  | sync => True

/-- No counter of links is at its end, `..` is not asked of a directory that has been removed, and a write does not
start beyond the size. -/
def Fits (t : Tree) : Call → Prop
  | act a => a.Fits t
  | write i _ offset _ => ∀ n, t i = some n → n.type = SFS_TYPE_FILE → offset ≤ n.info
  | _ => True

/-- The assertions that may fail: besides those of `Act.Jams`, an empty file has blocks that an attempt to make
it longer has left. -/
def Jams (t : Tree) : Call → Prop
  | act a => a.Jams t
  | empty i => ∃ n, t i = some n ∧ n.type = SFS_TYPE_FILE ∧ n.info = 0 ∧ n.blocks ≠ 0
  | _ => False

/-- There were too few blocks to make a file longer. -/
def Lacks : Call → Except Err Reply → Prop
  | seek _ _, .error .noMem => True
  | _, _ => False

end Call

/-- What a call does to the abstract file system, with its reply. -/
inductive Does (t : Tree) (c : Contents) (X : Prop) : Call → Except Err Reply → Tree → Contents → Prop where
  | act {a : Act} {o : Option ℕ} {t₁ t' : Tree} (he : Eff t a o t₁) (hl : Lost X t₁ t') :
      Does t c X (.act a) (.ok (.node o)) t' (t.kept c)
  | fail {a : Act} {e : Err} {t' : Tree} (hf : Fails t a e) (hl : Lost X t t') :
      Does t c X (.act a) (.error e) t' (t.kept c)
  | isDir {k : Call} {i : ℕ} (hk : k.file = some i) (hdir : t.isDir i) : Does t c X k (.error .isDir) t c
  | write {i len : ℕ} {n : Node} {buf : ℕ → UInt8} {offset : ℤ} {x : Xfer} (hn : t i = some n)
      (hfile : n.type = SFS_TYPE_FILE) (hx : x.Ends true offset len n.info) :
      Does t c X (.write i buf offset len) (.ok (.moved x))
        (Function.update t i (some { n with
          info := max n.info (offset.toNat + x.alen), blocks := blocksAfter n.blocks offset.toNat x.alen }))
        (Function.update c i (written (c i) offset.toNat x.alen buf))
  | read {i len : ℕ} {n : Node} {buf : ℕ → UInt8} {offset : ℤ} {x : Xfer} (hn : t i = some n)
      (hfile : n.type = SFS_TYPE_FILE) (hx : x.Ends false offset len n.info)
      (hbuf : ∀ p, x.buf p = if p < x.alen then c i (offset.toNat + p) else buf p) :
      Does t c X (.read i buf offset len) (.ok (.moved x)) t c
  | seekBad {i : ℕ} {pos : ℤ} (hbad : pos < 0 ∨ (SFS_MAX_FILE_SIZE : ℤ) ≤ pos) :
      Does t c X (.seek i pos) (.error .inval) t c
  | seekIn {i : ℕ} {n : Node} {pos : ℤ} (hn : t i = some n) (hfile : n.type = SFS_TYPE_FILE) (h0 : 0 ≤ pos)
      (hin : pos ≤ n.info) : Does t c X (.seek i pos) (.ok (.node none)) t c
  | seekOut {i : ℕ} {n : Node} {pos : ℤ} (hn : t i = some n) (hfile : n.type = SFS_TYPE_FILE) (hout : n.info < pos)
      (hmax : pos < SFS_MAX_FILE_SIZE) : Does t c X (.seek i pos) (.ok (.node none))
        (Function.update t i (some { n with info := pos.toNat, blocks := roundupDiv pos.toNat SFS_BLKSIZE })) c
  | seekLacks {i b : ℕ} {n : Node} {pos : ℤ} (hX : X) (hn : t i = some n) (hfile : n.type = SFS_TYPE_FILE)
      (hout : n.info < pos) (hmax : pos < SFS_MAX_FILE_SIZE) : Does t c X (.seek i pos) (.error .noMem)
        (Function.update t i (some { n with blocks := b })) c
  | empty {i : ℕ} {n : Node} (hn : t i = some n) (hfile : n.type = SFS_TYPE_FILE) :
      Does t c X (.empty i) (.ok (.node none)) (Function.update t i (some { n with info := 0, blocks := 0 }))
        (Function.update c i fun _ => 0)
  | fsync {i : ℕ} : Does t c X (.fsync i) (.ok (.node none)) t c
  | sync : Does t c X .sync (.ok (.node none)) t c

/-- A file: its blocks are those that its size needs, up to those that an attempt to make it longer has left. -/
structure IsFile (X : Prop) (n : Node) (d : ℕ → UInt8) : Prop where
  neat : Neat n.info n.blocks d
  size : n.info ≤ SFS_MAX_FILE_SIZE
  exact : ¬ X → n.blocks = roundupDiv n.info SFS_BLKSIZE

/-- The invariant of the abstract file system. -/
structure Whole (t : Tree) (c : Contents) (X : Prop) : Prop where
  sound : Sound t none
  small : t.Small
  files : ∀ i n, t i = some n → n.type = SFS_TYPE_FILE → IsFile X n (c i)

/-! ## The nodes that an operation on directories keeps -/

/-- Directory `d` has not been removed. -/
def Tree.Live (t : Tree) (d : ℕ) : Prop := ∃ n, t d = some n ∧ n.type = SFS_TYPE_DIR ∧ n.removed = false

/-- What node `k` has become: a file has its size and blocks, and every node but `i` its parent. -/
structure Became (i k : ℕ) (n n' : Node) : Prop where
  type : n'.type = n.type
  live : n'.removed = false → n.removed = false
  parent : k ≠ i → n'.parent = n.parent
  file : n.type = SFS_TYPE_FILE → n'.info = n.info ∧ n'.blocks = n.blocks

/-- Every node of `t'` is one of `t`. -/
def Tree.Carries (t t' : Tree) (i : ℕ) : Prop := ∀ k n', t' k = some n' → ∃ n, t k = some n ∧ Became i k n n'

section Carries

variable {t t' t'' : Tree} {d j i k b : ℕ} {nm : Name} {dir : Bool} {n m : Node}

theorem Became.refl : Became i k n n := ⟨rfl, id, fun _ => rfl, fun _ => ⟨rfl, rfl⟩⟩

theorem Tree.Carries.trans (h : t.Carries t' i) (h' : t'.Carries t'' i) : t.Carries t'' i := by
  intro k n'' hn''
  obtain ⟨n', hn', h2⟩ := h' k n'' hn''
  obtain ⟨n, hn, h1⟩ := h k n' hn'
  refine ⟨n, hn, h2.type.trans h1.type, fun hr => h1.live (h2.live hr),
    fun hk => (h2.parent hk).trans (h1.parent hk), fun hf => ?_⟩
  obtain ⟨hinfo, hblocks⟩ := h2.file (h1.type.trans hf)
  exact ⟨hinfo.trans (h1.file hf).1, hblocks.trans (h1.file hf).2⟩

theorem carries_map {g : ℕ → Node → Node} (ht : t' = fun k => (t k).map (g k))
    (hg : ∀ k n, t k = some n → Became i k n (g k n)) : t.Carries t' i := by
  intro k n' hn'
  rw [ht] at hn'
  obtain ⟨n, hn, rfl⟩ := map_some.mp hn'
  exact ⟨n, hn, hg k n hn⟩

theorem carries_edit {f : Node → Node} (hf : ∀ n, Became i k n (f n)) : t.Carries (t.edit k f) i := by
  intro l n' hn'
  obtain ⟨n, hn, rfl⟩ := edit_some.mp hn'
  refine ⟨n, hn, ?_⟩
  split
  · rename_i hl
    exact hl ▸ hf n
  · exact .refl

theorem carries_hold : t.Carries (t.hold k) i := carries_edit fun _ => ⟨rfl, id, fun _ => rfl, fun _ => ⟨rfl, rfl⟩⟩

theorem not_dir_of_file (hd : t.isDir d) (hn : t k = some n) (hf : n.type = SFS_TYPE_FILE) : k ≠ d := by
  rintro rfl
  have hdir := (Sound.isDir_iff hn).mp hd
  rw [hf] at hdir
  exact absurd hdir (by decide)

theorem carries_add (hd : t.isDir d) (h : dir = false ∨ k = i) : t.Carries (t.add d j k nm dir) i := by
  refine carries_map rfl fun l n hn => ⟨rfl, id, fun hl => if_neg fun hc => ?_, fun hf => ?_⟩
  · rcases h with hdir | hk
    · exact nomatch hdir.symm.trans hc.2
    · exact hl (hc.1.trans hk)
  · have hl := not_dir_of_file hd hn hf
    exact ⟨if_neg hl, if_neg hl⟩

theorem carries_del (hd : t.isDir d) : t.Carries (t.del d j k dir) i :=
  carries_map rfl fun _ _ hn => ⟨rfl, id, fun _ => rfl, fun hf => ⟨if_neg (not_dir_of_file hd hn hf), rfl⟩⟩

theorem carries_drop : t.Carries (t.drop k) i := by
  intro l n' hn'
  obtain ⟨n, hn, hsame⟩ := drop_node hn'
  rw [hsame]
  exact ⟨n, hn, rfl, id, fun _ => rfl, fun _ => ⟨rfl, rfl⟩⟩

/-- The parent of a node that has got an entry. -/
theorem parent_drop_add {n' : Node} (h : (t.add d j i nm true).drop i i = some n') : n'.parent = d := by
  obtain ⟨n, hn, hsame⟩ := drop_node h
  obtain ⟨m, -, rfl⟩ := Option.map_eq_some_iff.mp hn
  rw [hsame]
  exact if_pos ⟨rfl, rfl⟩

/-- The nodes are those that were there and at most one that is new, and at most one directory gets another
parent. -/
theorem Eff.carries {a : Act} {o : Option ℕ} (he : Eff t a o t') (hs : Sound t none) :
    t.Carries t' SFS_BLKN_ROOT ∨ (∃ b, t b = none ∧ (t.insert b (freshNode SFS_TYPE_FILE)).Carries t' b) ∨
    (∃ b d, t b = none ∧ (t.insert b freshDir).Carries t' b ∧ t.Live d ∧ ∀ n', t' b = some n' → n'.parent = d) ∨
    ∃ d nm d' nm' j i, a = .rename d nm d' nm' ∧ d ≠ d' ∧ t.ent (d, j) = some (i, nm) ∧ t.isDir i ∧
      t.Carries t' i ∧ t.Live d' ∧ ∀ n', t' i = some n' → n'.parent = d' := by
  have hdirOf : ∀ {d j i : ℕ} {nm : Name}, t.ent (d, j) = some (i, nm) → (t.hold i).isDir d := by
    intro d j i nm hent
    obtain ⟨⟨nd, hd, hdir, -⟩, -⟩ := hs.ends hent
    rw [isDir_hold]
    exact ⟨nd, hd, hdir⟩
  have hroom : ∀ {d j b : ℕ} {nm : Name} {nd m : Node}, t.Room d j nm nd → t b = none → (t.insert b m).isDir d := by
    rintro d j b nm nd m hr hb
    refine ⟨nd, (Function.update_of_ne ?_ ..).trans hr.node, hr.dir⟩
    rintro rfl
    exact nomatch hb.symm.trans hr.node
  cases he with
  | reopen he hi hfile => exact .inl carries_hold
  | create hr hb => exact .inr (.inl ⟨_, hb, carries_add (hroom hr hb) (.inl rfl)⟩)
  | mkdir hr hb =>
    exact .inr (.inr (.inl ⟨_, _, hb, (carries_add (hroom hr hb) (.inr rfl)).trans carries_drop,
      ⟨_, hr.node, hr.dir, hr.live⟩, fun n' hn' => parent_drop_add hn'⟩))
  | link hr hi hfile href => exact .inl (carries_add ⟨_, hr.node, hr.dir⟩ (.inl rfl))
  | unlink he hi hfile => exact .inl (carries_hold.trans ((carries_del (hdirOf he)).trans carries_drop))
  | rmdir he hi hdir hne hinfo =>
    have hremove : ∀ {t : Tree} {i : ℕ}, t.Carries (t.remove i) SFS_BLKN_ROOT := carries_edit fun _ =>
      ⟨rfl, nofun, fun _ => rfl, fun _ => ⟨rfl, rfl⟩⟩
    exact .inl (carries_hold.trans ((carries_del (hdirOf he)).trans (hremove.trans carries_drop)))
  | renameSame => exact .inl fun _ n hn => ⟨n, hn, .refl⟩
  | rename1 he hfresh => exact .inl (carries_edit fun _ => ⟨rfl, id, fun _ => rfl, fun _ => ⟨rfl, rfl⟩⟩)
  | rename2 hne he hr hi hkind =>
    rename_i d j d' j' i nm nm' nd' ni dir
    have hd' : ((t.hold i).del d j i dir).isDir d' := by
      rw [isDir_del, isDir_hold]
      exact ⟨_, hr.node, hr.dir⟩
    have hgo : ∀ r, dir = false ∨ i = r → t.Carries ((((t.hold i).del d j i dir).add d' j' i nm' dir).drop i) r :=
      fun r h => carries_hold.trans ((carries_del (hdirOf he)).trans ((carries_add hd' h).trans carries_drop))
    cases dir with
    | false => exact .inl (hgo _ (.inl rfl))
    | true =>
      exact .inr (.inr (.inr ⟨d, nm, d', nm', j, i, rfl, hne, he, (Sound.isDir_iff hi).mpr (hkind.mp rfl),
        hgo _ (.inr rfl), ⟨_, hr.node, hr.dir, hr.live⟩, fun n' hn' => parent_drop_add hn'⟩))
  | lookup hi hl => exact .inl carries_hold
  | root => exact .inl carries_hold
  | drop hi href => exact .inl carries_drop

/-- A file after an operation on directories: it was there before, or it is new and empty. -/
theorem Eff.files {a : Act} {o : Option ℕ} (he : Eff t a o t') (hs : Sound t none) (k : ℕ) (n' : Node)
    (hn' : t' k = some n') (hf : n'.type = SFS_TYPE_FILE) :
    (∃ n, t k = some n ∧ n.type = SFS_TYPE_FILE ∧ n'.info = n.info ∧ n'.blocks = n.blocks) ∨
      (t k = none ∧ n'.info = 0 ∧ n'.blocks = 0) := by
  have hnew : ∀ {b m}, t b = none → m.info = 0 ∧ m.blocks = 0 → ∀ k n, t.insert b m k = some n →
      t k = some n ∨ (t k = none ∧ n.info = 0 ∧ n.blocks = 0) := by
    intro b m hb h0 k n hn
    by_cases hk : k = b
    · subst hk
      cases (Function.update_self .. : t.insert k m k = some m).symm.trans hn
      exact .inr ⟨hb, h0⟩
    · exact .inl ((Function.update_of_ne hk ..).symm.trans hn)
  obtain ⟨t₀, i, hc, hfrom⟩ : ∃ t₀ i, Tree.Carries t₀ t' i ∧ ∀ k n, t₀ k = some n →
      t k = some n ∨ (t k = none ∧ n.info = 0 ∧ n.blocks = 0) := by
    rcases he.carries hs with hc | ⟨b, hb, hc⟩ | ⟨b, d, hb, hc, -⟩ | ⟨d, nm, d', nm', j, i, -, -, -, -, hc, -⟩
    · exact ⟨t, _, hc, fun _ _ => .inl⟩
    · exact ⟨_, _, hc, hnew hb ⟨rfl, rfl⟩⟩
    · exact ⟨_, _, hc, hnew hb ⟨rfl, rfl⟩⟩
    · exact ⟨t, _, hc, fun _ _ => .inl⟩
  obtain ⟨n, hn, hb⟩ := hc k n' hn'
  have hfile := hb.type.symm.trans hf
  obtain ⟨hinfo, hblocks⟩ := hb.file hfile
  rcases hfrom k n hn with hn | ⟨hnone, h1, h2⟩
  · exact .inl ⟨n, hn, hfile, hinfo, hblocks⟩
  · exact .inr ⟨hnone, hinfo.trans h1, hblocks.trans h2⟩

end Carries

/-! ## The invariant -/

section Whole

variable {t t' : Tree} {c c' : Contents} {X : Prop} {i : ℕ} {n : Node}

/-- One file changes. -/
theorem Whole.file (h : Whole t c X) (hn : t i = some n) (hfile : n.type = SFS_TYPE_FILE) {info blocks : ℕ}
    {d : ℕ → UInt8} (hd : IsFile X { n with info := info, blocks := blocks } d) :
    Whole (Function.update t i (some { n with info := info, blocks := blocks })) (Function.update c i d) X := by
  refine ⟨h.sound.touch hn rfl rfl rfl rfl rfl (fun hdir => ?_) fun hbig => ?_, fun k => ?_, fun k m hk hf => ?_⟩
  · rw [hfile] at hdir
    exact absurd hdir (by decide)
  · exact absurd (h.small i) (Nat.not_lt.mpr hbig)
  · exact (total_of_edit (n := { n with info := info, blocks := blocks }) hn rfl rfl k).trans_lt (h.small k)
  · by_cases hki : k = i
    · subst hki
      rw [Function.update_self] at hk ⊢
      cases hk
      exact hd
    · rw [Function.update_of_ne hki] at hk ⊢
      exact h.files k m hk hf

/-- The contents are the same. -/
theorem Whole.file_same (h : Whole t c X) (hn : t i = some n) (hfile : n.type = SFS_TYPE_FILE) {info blocks : ℕ}
    (hd : IsFile X { n with info := info, blocks := blocks } (c i)) :
    Whole (Function.update t i (some { n with info := info, blocks := blocks })) c X := by
  have := h.file hn hfile hd
  rwa [Function.update_eq_self] at this

/-- A file is found with fewer blocks. -/
theorem Whole.lost (h : Whole t c X) (hl : Lost X t t')
    (hneat : X → ∀ i n, t' i = some n → n.type = SFS_TYPE_FILE → Neat n.info n.blocks (c i)) : Whole t' c X := by
  rcases hl with rfl | ⟨i, n, b, hX, hn, hfile, -, rfl⟩
  · exact h
  · exact h.file_same hn hfile ⟨hneat hX i _ (Function.update_self ..) hfile, (h.files i n hn hfile).size,
      fun hno => absurd hX hno⟩

theorem Tree.kept_of_none (hi : t i = none) : t.kept c i = fun _ => 0 := if_pos hi

theorem Tree.kept_of_some (hi : t i = some n) : t.kept c i = c i := if_neg (by rw [hi]; nofun)

theorem IsFile.empty {X : Prop} (h0 : n.info = 0) (hb : n.blocks = 0) : IsFile X n fun _ => 0 := by
  refine ⟨⟨by omega, fun _ _ => rfl⟩, by omega, fun _ => ?_⟩
  rw [h0, hb]
  rfl

/-- The operations on directories: the files are kept, and new ones are empty. -/
theorem Whole.eff {a : Act} {o : Option ℕ} (h : Whole t c X) (he : Eff t a o t') (hfit : a.Fits t) :
    Whole t' (t.kept c) X := by
  obtain ⟨hs, hsm⟩ := he.sound h.sound h.small hfit
  refine ⟨hs, hsm, fun i n' hn' hf => ?_⟩
  rcases he.files h.sound i n' hn' hf with ⟨n, hn, hfile, hinfo, hblocks⟩ | ⟨hnone, hinfo, hblocks⟩
  · have hold := h.files i n hn hfile
    rw [Tree.kept_of_some hn]
    exact ⟨by rw [hinfo, hblocks]; exact hold.neat, hinfo ▸ hold.size, fun hX => by
      rw [hinfo, hblocks]
      exact hold.exact hX⟩
  · rw [Tree.kept_of_none hnone]
    exact IsFile.empty hinfo hblocks

theorem Whole.kept (h : Whole t c X) : Whole t (t.kept c) X :=
  ⟨h.sound, h.small, fun i n hn hf => by
    rw [Tree.kept_of_some hn]
    exact h.files i n hn hf⟩

/-- A write to a file that does not start beyond its size. -/
theorem IsFile.write {d : ℕ → UInt8} {a m : ℕ} {buf : ℕ → UInt8} (h : IsFile X n d) (ha : a ≤ n.info)
    (hmax : a + m ≤ SFS_MAX_FILE_SIZE) : IsFile X { n with
      info := max n.info (a + m), blocks := blocksAfter n.blocks a m } (written d a m buf) := by
  refine ⟨neat_written h.neat ha, Nat.max_le.mpr ⟨h.size, hmax⟩, fun hX => ?_⟩
  have hb := h.exact hX
  show blocksAfter n.blocks a m = roundupDiv (max n.info (a + m)) SFS_BLKSIZE
  unfold blocksAfter
  unfold roundupDiv SFS_BLKSIZE at *
  split <;> omega

theorem Xfer.Ends.le {write : Bool} {offset : ℤ} {len size : ℕ} {x : Xfer} (h : x.Ends write offset len size)
    (hoff : offset ≤ size) (hsize : size ≤ SFS_MAX_FILE_SIZE) : offset.toNat + x.alen ≤ SFS_MAX_FILE_SIZE := by
  have hend := ioEnd_le write offset len size
  rcases h with ⟨-, -, h0⟩ | ⟨-, -, hal⟩ | ⟨-, -, -, hlt⟩
  · omega
  · omega
  · omega

/-- One call keeps the invariant of the abstract file system. -/
theorem Does.whole {k : Call} {r : Except Err Reply} (hd : Does t c X k r t' c') (h : Whole t c X) (hfit : k.Fits t)
    (hneat : X → ∀ i n, t' i = some n → n.type = SFS_TYPE_FILE → Neat n.info n.blocks (c' i)) : Whole t' c' X := by
  cases hd with
  | act he hl => exact (h.eff he hfit).lost hl hneat
  | fail hf hl => exact h.kept.lost hl hneat
  | write hn hfile hx =>
    have hoff := hfit _ hn hfile
    have hold := h.files _ _ hn hfile
    exact h.file hn hfile (hold.write (Int.toNat_le.mpr hoff) (hx.le hoff hold.size))
  | seekOut hn hfile hout hmax =>
    rename_i i n pos
    have hold := h.files _ _ hn hfile
    refine h.file_same hn hfile ⟨⟨?_, fun p hp => hold.neat.blank p ?_⟩, ?_, fun _ => rfl⟩
    · show pos.toNat ≤ 4096 * roundupDiv pos.toNat SFS_BLKSIZE
      unfold roundupDiv SFS_BLKSIZE
      omega
    · have hp' : pos.toNat ≤ p := hp
      omega
    · show pos.toNat ≤ SFS_MAX_FILE_SIZE
      omega
  | seekLacks hX hn hfile hout hmax =>
    exact h.file_same hn hfile ⟨hneat hX _ _ (Function.update_self ..) hfile, (h.files _ _ hn hfile).size,
      fun hno => absurd hX hno⟩
  | empty hn hfile => exact h.file hn hfile (IsFile.empty rfl rfl)
  | isDir | read | seekBad | seekIn | fsync | sync => exact h

end Whole

/-! ## The file system does what the call says -/

section Exec

variable {fs : Fs} {t : Tree} {c : Contents} {X : Prop}

theorem Whole.usable (hw : Whole t c X) {i : ℕ} (hi : t.Held i) : ∃ n, t.Usable c i n := by
  obtain ⟨n, hn, href⟩ := hi
  refine ⟨n, hn, href, fun hf => Bool.eq_false_iff.mpr fun hr => ?_, fun hf => (hw.files i n hn hf).neat⟩
  have hdir := (hw.sound.gone i n hn hr).1
  rw [hf] at hdir
  exact absurd hdir (by decide)

/-- A call on the file system is the call on the tree that it stores, and the reply is that of the abstract one. -/
theorem exec_does (h : Stores fs t c X) (hw : Whole t c X) {k : Call} (hheld : k.Held t) (hfit : k.Fits t) :
    Op.wpx (k.Jams t) k.exec (fun r fs' => (k.Lacks r → X) → ∃ t' c', Does t c X k r t' c' ∧
      Stores fs' t' c' X) fs := by
  cases k with
  | act a =>
    refine Op.wpx_map (Op.wpx_mono (exec_spec h hw.sound hw.small hheld hfit) ?_)
    rintro (e | o) fs' hout -
    · obtain ⟨hf, t', hl, hst⟩ := hout
      exact ⟨t', _, .fail hf hl, hst⟩
    · obtain ⟨t₁, t', he, hl, hst⟩ := hout
      exact ⟨t', _, .act he hl, hst⟩
  | write i buf offset len =>
    obtain ⟨n, hn⟩ := hw.usable hheld
    refine Op.wpx_map (Op.wpx_imp False.elim (Op.wpx_mono (write_spec h hn (hfit n hn.node) len) ?_))
    rintro r fs' (⟨hdir, rfl, rfl⟩ | ⟨hfile, x, rfl, hx, hst⟩) -
    · exact ⟨t, c, .isDir rfl ⟨n, hn.node, hdir⟩, h⟩
    · exact ⟨_, _, .write hn.node hfile hx, hst⟩
  | read i buf offset len =>
    obtain ⟨n, hn⟩ := hw.usable hheld
    refine Op.wpx_map (Op.wpx_imp False.elim (Op.wpx_mono (read_spec h hn offset len) ?_))
    rintro r fs' (⟨hdir, rfl, rfl⟩ | ⟨hfile, rfl, x, rfl, hx, hbuf⟩) -
    · exact ⟨t, c, .isDir rfl ⟨n, hn.node, hdir⟩, h⟩
    · exact ⟨t, c, .read hn.node hfile hx hbuf, h⟩
  | seek i pos =>
    obtain ⟨n, hn⟩ := hw.usable hheld
    refine Op.wpx_map (Op.wpx_imp False.elim (Op.wpx_mono (seek_spec h hn pos) ?_))
    rintro r fs' (⟨hdir, rfl, rfl⟩ | ⟨hfile, ⟨hbad, rfl, rfl⟩ | ⟨h0, hin, rfl, rfl⟩ | ⟨hout, hmax, rfl, hst⟩ |
      ⟨hout, hmax, rfl, hst⟩⟩) hX
    · exact ⟨t, c, .isDir rfl ⟨n, hn.node, hdir⟩, h⟩
    · exact ⟨t, c, .seekBad hbad, h⟩
    · exact ⟨t, c, .seekIn hn.node hfile h0 hin, h⟩
    · exact ⟨_, c, .seekOut hn.node hfile hout hmax, hst⟩
    · obtain ⟨b, hb⟩ := hst (hX trivial)
      exact ⟨_, c, .seekLacks (hX trivial) hn.node hfile hout hmax, hb⟩
  | empty i =>
    obtain ⟨n, hn⟩ := hw.usable hheld
    refine Op.wpx_map (Op.wpx_imp (fun hF => ⟨n, hn.node, hF⟩) (Op.wpx_mono (truncate_spec h hn) ?_))
    rintro r fs' (⟨hdir, rfl, rfl⟩ | ⟨hfile, rfl, hst⟩) -
    · exact ⟨t, c, .isDir rfl ⟨n, hn.node, hdir⟩, h⟩
    · exact ⟨_, _, .empty hn.node hfile, hst⟩
  | fsync i =>
    obtain ⟨n, hn, href⟩ := hheld
    obtain ⟨fs', heq, hst, -⟩ := fsync_spec h hn href fun hr => (hw.sound.gone i n hn hr).2.1
    exact Op.wpx_map (Op.wpx_of_eq heq fun _ => ⟨t, c, .fsync, hst⟩)
  | sync =>
    obtain ⟨fs', heq, hst, -⟩ := sync_spec h fun i n hn hr => (hw.sound.gone i n hn hr).2.1
    exact Op.wpx_map (Op.wpx_of_eq heq fun _ => ⟨t, c, .sync, hst⟩)

end Exec

end Ucore.Sfs
