import Ucore.Sfs.ActExec
import Ucore.Sfs.FileIo

/-!
# The operations on files

`sfs_read`, `sfs_write`, `sfs_tryseek`, the truncation of `vfs_open` and `sfs_fsync`, on the file system as a
set of nodes: what they do to the size, the blocks and the contents of a file.

* `Stores.file` — one file changes.
* `write_spec`, `read_spec`, `seek_spec`, `truncate_spec`, `fsync_spec`, `sync_spec` — the operations.
-/

namespace Ucore.Sfs

open Bytes

/-- Where a transfer ends: the sum is an `off_t`, and a read does not go beyond the size. -/
def ioEnd (write : Bool) (offset : ℤ) (len size : ℕ) : ℕ :=
  if write then min (Int.bmod (offset + len) (2 ^ 32)).toNat SFS_MAX_FILE_SIZE
  else min (min (Int.bmod (offset + len) (2 ^ 32)).toNat SFS_MAX_FILE_SIZE) size

/-- The offset is out of range, or the end is before it. -/
def ioBad (offset : ℤ) (len : ℕ) : Prop :=
  offset < 0 ∨ (SFS_MAX_FILE_SIZE : ℤ) ≤ offset ∨ Int.bmod (offset + len) (2 ^ 32) < offset

/-- The contents after `n` bytes of `buf` have been written at `a`. -/
def written (d : ℕ → UInt8) (a n : ℕ) (buf : ℕ → UInt8) : ℕ → UInt8 := fun p =>
  if a ≤ p ∧ p < a + n then buf (p - a) else d p

/-- How a transfer ends: it is refused, it is complete, or there was no block for the rest of a write. -/
def Xfer.Ends (write : Bool) (offset : ℤ) (len size : ℕ) (x : Xfer) : Prop :=
  (ioBad offset len ∧ x.ret = some .inval ∧ x.alen = 0) ∨
  (¬ ioBad offset len ∧ x.ret = none ∧ x.alen = ioEnd write offset len size - offset.toNat) ∨
  (¬ ioBad offset len ∧ write = true ∧ x.ret = some .noMem ∧ offset.toNat + x.alen < ioEnd write offset len size)

/-- The blocks of a file after `n` bytes have been written at `a`. -/
def blocksAfter (blocks a n : ℕ) : ℕ := max blocks (if 0 < n then roundupDiv (a + n) SFS_BLKSIZE else 0)

/-- A node that the caller holds.  A file has not been removed, and is blank beyond its size. -/
structure Tree.Usable (t : Tree) (c : ℕ → ℕ → UInt8) (i : ℕ) (n : Node) : Prop where
  node : t i = some n
  ref : 0 < n.ref
  live : n.type = SFS_TYPE_FILE → n.removed = false
  neat : n.type = SFS_TYPE_FILE → Neat n.info n.blocks (c i)

/-- Inode `s` of a file, in memory. -/
structure Fs.Opened (fs : Fs) (c : ℕ → ℕ → UInt8) (i : ℕ) (n : Node) (s : Sin) : Prop where
  cached : fs.cache i = some s
  node : s.node fs = n
  file : s.din.type = SFS_TYPE_FILE
  info : s.din.info = n.info
  blocks : s.din.blocks = n.blocks
  neat : Neat s.din.info s.din.blocks (c i)

/-- A directory is refused, and with a file `P` is the case. -/
def OnFile {α : Type} (n : Node) (fs : Fs) (P : Except Err α → Fs → Prop) (r : Except Err α) (fs' : Fs) : Prop :=
  n.type = SFS_TYPE_DIR ∧ r = .error .isDir ∧ fs' = fs ∨ n.type = SFS_TYPE_FILE ∧ P r fs'

section File

variable {fs : Fs} {t : Tree} {c : ℕ → ℕ → UInt8} {X : Prop} {i : ℕ} {n : Node} {s : Sin} {L : ℕ → Prop}
  {buf : ℕ → UInt8} {k : Lk}

theorem written_zero (d : ℕ → UInt8) (a : ℕ) (buf : ℕ → UInt8) : written d a 0 buf = d := by
  funext p
  unfold written
  rw [if_neg (by omega)]

/-- One file changes. -/
theorem Stores.file (h : Stores fs t c X) (hL : X ∨ L = nowhere) (ho : Owned fs t.has L)
    (hs : fs.cache i = some s) (hfile : s.din.type = SFS_TYPE_FILE) (ht : Touch (fs.away t.has L i) (fs.lk s) k)
    (hsol : k.Solid X) (hinfo : k.din.info < 2 ^ 32) (hclean : k.dirty = false →
      s.dirty = false ∧ Lags (X ∧ s.din.type = SFS_TYPE_FILE) s.din k.din) {ci : ℕ → UInt8} (hdata : k.data = ci)
    (hneat : Neat k.din.info k.din.blocks ci) : Stores (fs.put i s k) (Function.update t i (some { s.node fs with
      info := k.din.info, blocks := k.din.blocks })) (Function.update c i ci) X := by
  have hput := h.put hL ho hs ht.toLocal hsol.toCovered (ht.fits hsol.toCovered (ho.fits_lk hs) hinfo) hclean s
    (h.held i s hs) fun _ => ⟨hdata, fun _ => hneat⟩
  have hnone : ∀ k : Lk, k.din.type = SFS_TYPE_FILE → k.ents = fun _ => none := by
    intro k hk
    funext j
    refine if_neg fun hc => ?_
    rw [hk] at hc
    exact absurd hc.1 (by decide)
  have hnode : nodeOf k s.removed s.ref = { s.node fs with info := k.din.info, blocks := k.din.blocks } := by
    unfold Sin.node nodeOf
    rw [hnone k (ht.type.trans hfile), hnone (fs.lk s) hfile, ht.type, ht.nlinks, ht.parent]
  rwa [hnode] at hput

theorem Fs.Opened.not_dir (hs : fs.Opened c i n s) : (fs.lk s).din.type ≠ SFS_TYPE_DIR := by
  show s.din.type ≠ SFS_TYPE_DIR
  rw [hs.file]
  decide

/-- An operation that changes nothing. -/
theorem Fs.Opened.same {α : Type} {x : Op Lk Err α} {r : Except Err α} (hs : fs.Opened c i n s)
    (h : x (fs.lk s) = some (r, fs.lk s)) : onSin i x fs = some (r, fs) := by
  rw [onSin_of_eq hs.cached h, Fs.put_lk hs.cached]

/-- The dispatch and the lock of a file. -/
theorem file_wpx {α : Type} {x : Op Fs Err α} {F : Prop} {P : Except Err α → Fs → Prop} (h : Stores fs t c X)
    (hn : t.Usable c i n) (hgo : n.type = SFS_TYPE_FILE → ∀ s, fs.Opened c i n s → Op.wpx F x P fs) :
    Op.wpx F (do asFile i; trylockSin i; x) (OnFile n fs P) fs := by
  obtain ⟨s, hs, hnode⟩ := h.cached hn.node hn.ref
  have htype : s.din.type = n.type := by rw [← hnode]; rfl
  have hlock := trylockSin_eq h hn.node hn.ref
  unfold asFile
  by_cases hfile : n.type = SFS_TYPE_FILE
  · have hasfile : (do let s ← sinOf i; if s.din.type ≠ SFS_TYPE_FILE then Op.throw .isDir : Op Fs Err Unit) fs =
        some (.ok (), fs) := by
      rw [Op.bind_of_ok (sinOf_eq hs), if_neg (not_not.mpr (htype.trans hfile))]
      rfl
    rw [if_neg (by rw [hn.live hfile]; nofun)] at hlock
    have hneat := hn.neat hfile
    refine Op.wpx_bind_of_ok hasfile (Op.wpx_bind_of_ok hlock (Op.wpx_mono (hgo hfile s ?_) fun r fs' hP =>
      .inr ⟨hfile, hP⟩))
    rw [← hnode] at hneat ⊢
    exact ⟨hs, rfl, htype.trans hfile, rfl, rfl, hneat⟩
  · have hasfile : (do let s ← sinOf i; if s.din.type ≠ SFS_TYPE_FILE then Op.throw .isDir : Op Fs Err Unit) fs =
        some (.error .isDir, fs) := by
      rw [Op.bind_of_ok (sinOf_eq hs), if_pos fun he => hfile (htype.symm.trans he)]
      rfl
    exact Op.wpx_bind_of_error hasfile (.inl ⟨(h.type i n hn.node).resolve_right hfile, rfl, rfl⟩)

/-- A transfer that is refused or empty, or one from `a` on to its end. -/
theorem ioNolock_exact (buf : ℕ → UInt8) (write : Bool) (offset : ℤ) (len : ℕ) (htype : k.din.type ≠ SFS_TYPE_DIR) :
    (ioBad offset len ∧ ioNolock write buf offset len k = some (.ok ⟨buf, 0, 0, some .inval⟩, k)) ∨
    (¬ ioBad offset len ∧ ioEnd write offset len k.din.info ≤ offset.toNat ∧
      ioNolock write buf offset len k = some (.ok ⟨buf, 0, 0, none⟩, k)) ∨
    ∃ a : ℕ, offset = a ∧ ¬ ioBad offset len ∧ a < ioEnd write offset len k.din.info ∧
      ioNolock write buf offset len k = ioRun write buf a (ioEnd write offset len k.din.info) k := by
  unfold ioNolock ioBad ioEnd
  rw [Op.bind_of_ok (rfl : Op.gets Lk.din k = some (.ok k.din, k)),
    Op.bind_of_ok (if_pos htype : Op.assert (k.din.type ≠ SFS_TYPE_DIR) k = some (.ok (), k))]
  generalize Int.bmod (offset + len) (2 ^ 32) = endpos
  by_cases hbad : offset < 0 ∨ (SFS_MAX_FILE_SIZE : ℤ) ≤ offset ∨ endpos < offset
  · exact .inl ⟨hbad, by rw [if_pos hbad]; rfl⟩
  rw [if_neg hbad]
  by_cases heq : offset = endpos
  · refine .inr (.inl ⟨hbad, ?_, by rw [if_pos heq]; rfl⟩)
    rw [heq]
    split <;> omega
  rw [if_neg heq]
  cases write with
  | true =>
    rw [if_pos rfl]
    exact .inr (.inr ⟨offset.toNat, by omega, hbad, by rw [if_pos rfl]; omega, rfl⟩)
  | false =>
    rw [if_neg (by simp)]
    by_cases hsize : k.din.info ≤ offset.toNat
    · refine .inr (.inl ⟨hbad, ?_, by rw [if_pos hsize]; rfl⟩)
      rw [if_neg nofun]
      omega
    · rw [if_neg hsize]
      exact .inr (.inr ⟨offset.toNat, by omega, hbad, by rw [if_neg nofun]; omega, rfl⟩)

theorem ioEnd_le (write : Bool) (offset : ℤ) (len size : ℕ) : ioEnd write offset len size ≤ SFS_MAX_FILE_SIZE := by
  unfold ioEnd
  split <;> omega

/-- The bytes that have been written reach into the blocks of the file. -/
theorem neat_written {info blocks a m : ℕ} {d : ℕ → UInt8} (h : Neat info blocks d) (ha : a ≤ info) :
    Neat (max info (a + m)) (blocksAfter blocks a m) (written d a m buf) := by
  have hsize := h.size
  refine ⟨?_, fun p hp => ?_⟩
  · unfold blocksAfter roundupDiv SFS_BLKSIZE
    split <;> omega
  · unfold written
    rw [if_neg (by omega)]
    exact h.blank p (by omega)

theorem Written.blocksAfter {R : ℕ → Prop} {k' : Lk} {a m : ℕ} (h : Written R buf k a (a + m) k') :
    k'.din.blocks = blocksAfter k.din.blocks a m := by
  rw [h.dinBlocks]
  unfold Sfs.blocksAfter SFS_BLKSIZE
  by_cases hm : 0 < m
  · rw [if_pos (by omega), if_pos hm]
  · rw [if_neg (by omega), if_neg hm]

/-- A write that has moved some bytes, and the size set to what they reach. -/
theorem Stores.write (h : Stores fs t c X) (hL : X ∨ L = nowhere) (ho : Owned fs t.has L)
    (hs : fs.cache i = some s) (hfile : s.din.type = SFS_TYPE_FILE) (hneat : Neat s.din.info s.din.blocks (c i))
    {a m : ℕ} (ha : a ≤ s.din.info) (hw : Written (fs.away t.has L i) buf (fs.lk s) a (a + m) k)
    (hmax : a + m ≤ SFS_MAX_FILE_SIZE) :
    Stores (fs.put i s (k.grown (a + m))) (Function.update t i (some { s.node fs with
      info := max s.din.info (a + m), blocks := blocksAfter s.din.blocks a m }))
      (Function.update c i (written (c i) a m buf)) X := by
  have hinfo : k.din.info = s.din.info := hw.info
  have hblocks : k.din.blocks = Sfs.blocksAfter s.din.blocks a m := hw.blocksAfter
  have hdata : (k.grown (a + m)).data = written (c i) a m buf := by
    rw [Lk.grown_data]
    funext p
    rw [hw.data p]
    unfold written
    split
    · rfl
    · exact congrFun (h.data_lk hs hfile) p
  have hfit := ho.fits_lk hs
  have hfit' := hfit.info
  have hsize := hneat.size
  have hput := h.file hL ho hs hfile (hw.toTouch.grown (a + m)) (Lk.grown_solid (hw.solid X (h.solid hs)))
    (by rw [Lk.grown_info, hinfo]; unfold SFS_MAX_FILE_SIZE at hmax; omega) (fun hd => ?_) hdata (by
      rw [Lk.grown_info, Lk.grown_blocks, hinfo, hblocks]
      exact neat_written hneat ha)
  · rwa [Lk.grown_info, Lk.grown_blocks, hinfo, hblocks] at hput
  · unfold Lk.grown at hd ⊢
    by_cases hlt : k.din.info < a + m
    · rw [if_pos hlt] at hd
      cases hd
    · rw [if_neg hlt] at hd ⊢
      obtain ⟨hd', he⟩ := hw.clean hd
      have hsame : k.din.blocks = s.din.blocks := by
        rw [hblocks]
        unfold Sfs.blocksAfter roundupDiv SFS_BLKSIZE
        split <;> omega
      have hdin : k.din = s.din := by
        rw [he, hsame]
        rfl
      rw [hdin]
      exact ⟨hd', Lags.refl _⟩

/-- `sfs_write` that does not start beyond the size. -/
theorem write_spec (h : Stores fs t c X) (hn : t.Usable c i n) {offset : ℤ}
    (hoff : n.type = SFS_TYPE_FILE → offset ≤ n.info) (len : ℕ) :
    Op.wpx False (io true i buf offset len) (OnFile n fs fun r fs' => ∃ x, r = .ok x ∧ x.Ends true offset len n.info ∧
      Stores fs' (Function.update t i (some { n with
        info := max n.info (offset.toNat + x.alen), blocks := blocksAfter n.blocks offset.toNat x.alen }))
        (Function.update c i (written (c i) offset.toNat x.alen buf)) X) fs := by
  unfold io
  refine file_wpx h hn fun hfile s hs => ?_
  have hle := hoff hfile
  have hsame : ∀ x : Xfer, x.alen = 0 → Stores fs (Function.update t i (some { n with
      info := max n.info (offset.toNat + x.alen), blocks := blocksAfter n.blocks offset.toNat x.alen }))
      (Function.update c i (written (c i) offset.toNat x.alen buf)) X := by
    intro x hx
    have hinfo : max n.info (offset.toNat + 0) = n.info := by omega
    have hblocks : blocksAfter n.blocks offset.toNat 0 = n.blocks := by
      unfold blocksAfter
      rw [if_neg (by omega), Nat.max_zero]
    rw [hx, written_zero, hinfo, hblocks, Function.update_eq_self, ← hn.node, Function.update_eq_self]
    exact h
  have hinfo : (fs.lk s).din.info = n.info := hs.info
  obtain ⟨hbad, heq⟩ | ⟨hgood, hend, heq⟩ | ⟨a, rfl, hgood, hlt, heq⟩ :=
    ioNolock_exact buf true offset len hs.not_dir
  · exact Op.wpx_of_eq (hs.same heq) ⟨_, rfl, .inl ⟨hbad, rfl, rfl⟩, hsame _ rfl⟩
  · rw [hinfo] at hend
    exact Op.wpx_of_eq (hs.same heq) ⟨_, rfl, .inr (.inl ⟨hgood, rfl, (Nat.sub_eq_zero_of_le hend).symm⟩),
      hsame _ rfl⟩
  · rw [hinfo] at hlt heq
    have hmax := ioEnd_le true a len n.info
    have hanat : a ≤ n.info := by omega
    obtain ⟨L, hL, ho⟩ := h.owned
    have hsize := hs.neat.size
    have hsinfo := hs.info
    have hstart : a / 4096 ≤ (fs.lk s).din.blocks := by
      show a / 4096 ≤ s.din.blocks
      omega
    have hparts : Op.wp (ioParts true a (ioEnd true a len n.info) ⟨buf, 0, a / SFS_BLKSIZE, none⟩) _ (fs.lk s) :=
      ioParts_write (ho.own_lk hs.cached) (h.solid hs.cached) hstart hlt
        (by unfold SFS_MAX_FILE_SIZE at hmax; unfold NLEAF; omega)
    obtain ⟨r, k', hrun, x, rfl, hx⟩ := Op.wp_iff.mp hparts
    have hrun' : ioNolock true buf a len (fs.lk s) = some (.ok x, k'.grown (a + x.alen)) := by
      rw [heq]
      unfold ioRun
      rw [Op.bind_of_ok hrun, ioOut_eq]
    have hfull : Written (fs.away t.has L i) buf (fs.lk s) a (a + x.alen) k' ∧ a + x.alen ≤ ioEnd true a len n.info ∧
        x.Ends true a len n.info := by
      rcases hx with ⟨hal, hgo⟩ | hst
      · exact ⟨hgo.written, hal.le, .inr (.inl ⟨hgood, hgo.ret, by rw [Int.toNat_natCast]; omega⟩)⟩
      · exact ⟨hst.written, hst.lt.le, .inr (.inr ⟨hgood, rfl, hst.ret, by rw [Int.toNat_natCast]; exact hst.lt⟩)⟩
    have hput := h.write hL ho hs.cached hs.file hs.neat (hsinfo ▸ hanat) hfull.1 (hfull.2.1.trans hmax)
    refine Op.wpx_of_eq (onSin_of_eq hs.cached hrun') ⟨x, rfl, hfull.2.2, ?_⟩
    rw [Int.toNat_natCast]
    rwa [hs.node, hsinfo, hs.blocks] at hput

/-- `sfs_read`: the bytes of the file up to its size. -/
theorem read_spec (h : Stores fs t c X) (hn : t.Usable c i n) (offset : ℤ) (len : ℕ) :
    Op.wpx False (io false i buf offset len) (OnFile n fs fun r fs' => fs' = fs ∧ ∃ x, r = .ok x ∧
      x.Ends false offset len n.info ∧ ∀ p, x.buf p = if p < x.alen then c i (offset.toNat + p) else buf p) fs := by
  unfold io
  refine file_wpx h hn fun hfile s hs => ?_
  have hsinfo : (fs.lk s).din.info = n.info := hs.info
  have hsblocks : (fs.lk s).din.blocks = n.blocks := hs.blocks
  have hsize := (hn.neat hfile).size
  have hnone : ∀ p, buf p = if p < 0 then c i (offset.toNat + p) else buf p :=
    fun p => (if_neg (Nat.not_lt_zero p)).symm
  obtain ⟨hbad, heq⟩ | ⟨hgood, hend, heq⟩ | ⟨a, rfl, hgood, hlt, heq⟩ :=
    ioNolock_exact buf false offset len hs.not_dir
  · exact Op.wpx_of_eq (hs.same heq) ⟨rfl, _, rfl, .inl ⟨hbad, rfl, rfl⟩, hnone⟩
  · rw [hsinfo] at hend
    exact Op.wpx_of_eq (hs.same heq) ⟨rfl, _, rfl, .inr (.inl ⟨hgood, rfl, (Nat.sub_eq_zero_of_le hend).symm⟩), hnone⟩
  · rw [hsinfo] at hlt heq
    have hle : ioEnd false a len n.info ≤ n.info := by
      unfold ioEnd
      rw [if_neg nofun]
      exact Nat.min_le_right _ n.info
    obtain ⟨L, hL, ho⟩ := h.owned
    have hin : roundupDiv (ioEnd false a len n.info) 4096 ≤ (fs.lk s).din.blocks := by
      rw [hsblocks]
      unfold roundupDiv
      omega
    have hcov := h.covered_lk hs.cached
    obtain ⟨x, hrun, hr, hal⟩ : ∃ x, ioParts false a (ioEnd false a len n.info) ⟨buf, 0, a / SFS_BLKSIZE, none⟩
      (fs.lk s) = some (.ok x, fs.lk s) ∧ _ := ioParts_read (ho.own_lk hs.cached) hcov hlt hin
    have hsame : (fs.lk s).grown (a + x.alen) = fs.lk s := if_neg (by rw [hsinfo]; omega)
    have hrun' : ioNolock false buf a len (fs.lk s) = some (.ok x, fs.lk s) := by
      rw [heq]
      unfold ioRun
      rw [Op.bind_of_ok hrun, ioOut_eq, hsame]
    refine Op.wpx_of_eq (hs.same hrun') ⟨rfl, x, rfl, ?_, fun p => ?_⟩
    · exact .inr (.inl ⟨hgood, hr.ret, by rw [Int.toNat_natCast]; omega⟩)
    · rw [hr.buf p, Int.toNat_natCast]
      by_cases hp : p < x.alen
      · rw [if_pos hp, if_pos hp, ← h.data_lk hs.cached hs.file, hcov.data (by rw [hsblocks]; omega)]
      · rw [if_neg hp, if_neg hp]

/-- A file gets a size and contents. -/
theorem Stores.resized (h : Stores fs t c X) (hL : X ∨ L = nowhere) (ho : Owned fs t.has L)
    (hs : fs.cache i = some s) (hfile : s.din.type = SFS_TYPE_FILE) {size : ℕ} {d : ℕ → UInt8}
    (hr : Resized (fs.away t.has L i) (fs.lk s) size d k) (hsize : size < 2 ^ 32) (hblank : ∀ p, size ≤ p → d p = 0)
    (hlag : size = s.din.info → s.din.blocks ≤ k.din.blocks → k.din.blocks = s.din.blocks ∨ X) :
    Stores (fs.put i s k) (Function.update t i (some { s.node fs with info := size, blocks := k.din.blocks }))
      (Function.update c i d) X := by
  have hput := h.file hL ho hs hfile hr.toTouch (hr.solid X (h.solid hs)) (hr.info.symm ▸ hsize)
    (fun hd => ?_) hr.data
    ⟨hr.info.symm ▸ hr.cover, fun p hp => hblank p (hr.info ▸ hp)⟩
  · rwa [hr.info] at hput
  · obtain ⟨hd', he, hle⟩ := hr.clean hd
    have hsame : s.din = { k.din with blocks := s.din.blocks } := by
      rw [he]
      rfl
    have hinfo : size = s.din.info := by
      rw [← hr.info, he]
      rfl
    refine ⟨hd', hsame, hle, fun hno => ?_⟩
    rcases hlag hinfo hle with hb | hx
    · exact hb.symm
    · exact absurd ⟨hx, hfile⟩ hno

/-- A file that has got its size has as many blocks as this needs: `sfs_truncfile` asserts it. -/
theorem truncfile_blocks {k' : Lk} (len : ℕ) (h : truncfile len k = some (.ok (), k')) :
    k'.din.blocks = roundupDiv len SFS_BLKSIZE := by
  unfold truncfile at h
  split at h
  · cases h
  obtain ⟨d, k₁, hd, h₁⟩ := Op.ok_of_bind h
  cases hd
  obtain ⟨_, k₁, ha, h₂⟩ := Op.ok_of_bind h₁
  obtain ⟨-, rfl⟩ := Op.of_assert ha
  split at h₂
  · obtain ⟨hb, rfl⟩ := Op.of_assert h₂
    exact hb.symm
  · obtain ⟨_, k₂, -, h₃⟩ := Op.ok_of_bind h₂
    obtain ⟨b, k₃, hb, h₄⟩ := Op.ok_of_bind h₃
    cases hb
    obtain ⟨_, k₄, ha', h₅⟩ := Op.ok_of_bind h₄
    obtain ⟨hb, rfl⟩ := Op.of_assert ha'
    cases h₅
    exact hb

/-- `sfs_truncfile` of a file that gets longer. -/
theorem grow_wp (h : Stores fs t c X) (hs : fs.Opened c i n s) (len : ℕ) (hup : s.din.info < len)
    (hmax : len ≤ SFS_MAX_FILE_SIZE) : Op.wpx False (onSin i (truncfile len)) (fun r fs' =>
      r = .ok () ∧ Stores fs' (Function.update t i (some { n with
        info := len, blocks := roundupDiv len SFS_BLKSIZE })) c X ∨
      r = .error .noMem ∧ (X → ∃ b, Stores fs' (Function.update t i (some { n with blocks := b })) c X)) fs := by
  obtain ⟨L, hL, ho⟩ := h.owned
  have hdata := h.data_lk hs.cached hs.file
  obtain ⟨r, k, hrun, hk⟩ := Op.wp_iff.mp (truncfile_grow (ho.own_lk hs.cached)
    (h.solid hs.cached) hs.not_dir hup hmax
    hs.neat.size fun p hp => by
      rw [hdata]
      exact hs.neat.blank p hp)
  have hlen : len < 2 ^ 32 := by
    unfold SFS_MAX_FILE_SIZE at hmax
    omega
  refine Op.wpx_of_eq (onSin_of_eq hs.cached hrun) ?_
  obtain ⟨rfl, hr⟩ | ⟨rfl, hr⟩ := hk
  · refine .inl ⟨rfl, ?_⟩
    have hput := h.resized hL ho hs.cached hs.file hr hlen (fun p hp => by
      rw [hdata]
      exact hs.neat.blank p (hup.le.trans hp)) fun he _ => absurd he hup.ne'
    rwa [truncfile_blocks _ hrun, hdata, Function.update_eq_self, hs.node] at hput
  · refine .inr ⟨rfl, fun hX => ⟨k.din.blocks, ?_⟩⟩
    have hput := h.resized hL ho hs.cached hs.file hr (ho.fits_lk hs.cached).info (fun p hp => by
      rw [hdata]
      exact hs.neat.blank p hp) fun _ _ => .inr hX
    have hinfo : (fs.lk s).din.info = n.info := hs.info
    rwa [hdata, Function.update_eq_self, hs.node, hinfo] at hput

/-- `vop_tryseek` beyond the size makes the file longer; if there are too few blocks it keeps its size, and those
that it got. -/
theorem seek_spec (h : Stores fs t c X) (hn : t.Usable c i n) (pos : ℤ) :
    Op.wpx False (seek i pos) (OnFile n fs fun r fs' =>
      (pos < 0 ∨ (SFS_MAX_FILE_SIZE : ℤ) ≤ pos) ∧ r = .error .inval ∧ fs' = fs ∨
      0 ≤ pos ∧ pos ≤ n.info ∧ r = .ok () ∧ fs' = fs ∨
      n.info < pos ∧ pos < SFS_MAX_FILE_SIZE ∧ r = .ok () ∧ Stores fs' (Function.update t i (some { n with
        info := pos.toNat, blocks := roundupDiv pos.toNat SFS_BLKSIZE })) c X ∨
      n.info < pos ∧ pos < SFS_MAX_FILE_SIZE ∧ r = .error .noMem ∧
        (X → ∃ b, Stores fs' (Function.update t i (some { n with blocks := b })) c X)) fs := by
  unfold seek
  refine file_wpx h hn fun hfile s hs => ?_
  have hsinfo : (fs.lk s).din.info = n.info := hs.info
  by_cases hbad : pos < 0 ∨ (SFS_MAX_FILE_SIZE : ℤ) ≤ pos
  · have heq : tryseek pos (fs.lk s) = some (.error .inval, fs.lk s) := by
      unfold tryseek
      rw [if_pos hbad]
      rfl
    exact Op.wpx_of_eq (hs.same heq) (.inl ⟨hbad, rfl, rfl⟩)
  have heq : tryseek pos (fs.lk s) = (if n.info < pos.toNat then truncfile pos else pure ()) (fs.lk s) := by
    unfold tryseek
    rw [if_neg hbad, Op.bind_of_ok (rfl : Op.gets _ (fs.lk s) = some (.ok (fs.lk s).din.info, fs.lk s)), hsinfo]
  by_cases hup : n.info < pos.toNat
  · rw [if_pos hup] at heq
    lift pos to ℕ using by omega
    rw [Int.toNat_natCast] at hup
    have hcong : onSin i (tryseek pos) fs = onSin i (truncfile pos) fs := by
      unfold onSin
      rw [hs.cached]
      exact congrArg (Option.map _) heq
    refine Op.wpx_congr hcong (Op.wpx_mono (grow_wp h hs pos (hs.info ▸ hup) (by omega)) ?_)
    rintro r fs' (⟨rfl, hst⟩ | ⟨rfl, hst⟩)
    · exact .inr (.inr (.inl ⟨by omega, by omega, rfl, hst⟩))
    · exact .inr (.inr (.inr ⟨by omega, by omega, rfl, hst⟩))
  · rw [if_neg hup] at heq
    exact Op.wpx_of_eq (hs.same heq) (.inr (.inl ⟨by omega, by omega, rfl, rfl⟩))

/-- `vop_truncate` with length 0, for `O_TRUNC`. -/
theorem truncate_spec (h : Stores fs t c X) (hn : t.Usable c i n) :
    Op.wpx (n.type = SFS_TYPE_FILE ∧ n.info = 0 ∧ n.blocks ≠ 0) (truncate i 0) (OnFile n fs fun r fs' => r = .ok () ∧
      Stores fs' (Function.update t i (some { n with info := 0, blocks := 0 })) (Function.update c i fun _ => 0) X)
      fs := by
  unfold truncate
  refine file_wpx h hn fun hfile s hs => ?_
  obtain ⟨L, hL, ho⟩ := h.owned
  have hrun := truncfile_zero (ho.own_lk hs.cached) (h.solid hs.cached) hs.not_dir fun p hp => by
    rw [h.data_lk hs.cached hs.file]
    exact hs.neat.blank p hp
  cases htr : truncfile 0 (fs.lk s) with
  | none =>
    have hF : s.din.info = 0 ∧ s.din.blocks ≠ 0 := by
      unfold Op.wpx at hrun
      rwa [htr] at hrun
    rw [hs.info, hs.blocks] at hF
    refine Op.wpx_of_none ?_ ⟨hfile, hF⟩
    unfold onSin
    rw [hs.cached]
    show Option.map _ (truncfile 0 (fs.lk s)) = none
    rw [htr]
    rfl
  | some p =>
    obtain ⟨r, k⟩ := p
    obtain ⟨rfl, hr⟩ := Op.wpx_elim hrun htr
    have hb : k.din.blocks = 0 := truncfile_blocks 0 htr
    refine Op.wpx_of_eq (onSin_of_eq hs.cached htr) ⟨rfl, ?_⟩
    have hput := h.resized hL ho hs.cached hs.file hr (Nat.two_pow_pos 32) (fun _ _ => rfl) fun _ hle =>
      .inl (by omega)
    rwa [hb, hs.node] at hput

end File

end Ucore.Sfs
