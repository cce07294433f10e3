import Ucore.Sfs.IoSpec

/-!
# Changing the number of blocks of a file

The two loops of `sfs_truncfile`, the first of which `sfs_reclaim` has too.

* `shrinkLoop_spec` — the last `n` blocks are dropped.
* `growLoop_spec` — `n` blocks that read as zero are added, or space runs out part of the way.
* `truncfile_grow`, `truncfile_zero` — a file gets longer, or is emptied.
-/

namespace Ucore.Sfs

open Bytes

/-- The inode has lost `n` blocks at its end. -/
structure Shrunk (R : ℕ → Prop) (k : Lk) (n : ℕ) (k' : Lk) : Prop extends Touch R k k' where
  solid : ∀ X, k.Solid X → k'.Solid X
  info : k'.din.info = k.din.info
  dinBlocks : k'.din.blocks + n = k.din.blocks
  leaf : ∀ j, k'.role (.leaf j) = if k'.din.blocks ≤ j ∧ j < k.din.blocks then 0 else k.role (.leaf j)
  data : ∀ p, k'.data p = if k'.din.blocks ≤ p / 4096 ∧ p / 4096 < k.din.blocks then 0 else k.data p
  index : ∀ r, r.isIndex = true → k'.role r = k.role r
  dirty : k'.dirty = false → k' = k

section Shrink

variable {R : ℕ → Prop} {X : Prop} {k k' : Lk} {n : ℕ}

theorem Shrunk.refl (h : Own R k.vol k.din) : Shrunk R k 0 k :=
  ⟨Touch.refl h, fun _ hs => hs, rfl, rfl, fun j => by rw [if_neg (by omega)],
    fun p => by rw [if_neg (by omega)], fun _ _ => rfl, fun _ => rfl⟩

/-- The loop that drops blocks: by induction on their number. -/
theorem shrinkLoop_spec : ∀ (n : ℕ) {k : Lk}, Own R k.vol k.din → k.Solid X → n ≤ k.din.blocks →
    ∃ k', shrinkLoop n k = some (.ok (), k') ∧ Shrunk R k n k' := by
  intro n
  induction n with
  | zero => exact fun {k} h _ _ => ⟨k, rfl, Shrunk.refl h⟩
  | succ n ih =>
    intro k h hsol hn
    obtain ⟨k₁, heq, hd⟩ := bmapTruncate_spec h hsol.toCovered (by omega)
    have hb := hd.dinBlocks
    obtain ⟨k₂, heq₂, hs⟩ := ih hd.own (hd.solid X hsol) (by omega)
    have hb₂ := hs.dinBlocks
    refine ⟨k₂, ?_, ⟨hd.toTouch.trans hs.toTouch, fun Y hY => hs.solid Y (hd.solid Y hY),
      hs.info.trans hd.info, by omega, fun j => ?_, fun p => ?_, fun r hr => ?_, fun hdirty => ?_⟩⟩
    · unfold shrinkLoop
      rw [Op.bind_of_ok heq]
      exact heq₂
    · rw [hs.leaf, hd.leaf]
      by_cases hj : j = k₁.din.blocks
      · rw [if_pos hj, ite_self, if_pos ⟨by omega, by omega⟩]
      · rw [if_neg hj]
        by_cases hj' : k₂.din.blocks ≤ j ∧ j < k₁.din.blocks
        · rw [if_pos hj', if_pos (by omega)]
        · rw [if_neg hj', if_neg (by omega)]
    · rw [hs.data, hd.data]
      by_cases hj : p / 4096 = k₁.din.blocks
      · rw [if_pos hj, ite_self, if_pos ⟨by omega, by omega⟩]
      · rw [if_neg hj]
        by_cases hj' : k₂.din.blocks ≤ p / 4096 ∧ p / 4096 < k₁.din.blocks
        · rw [if_pos hj', if_pos (by omega)]
        · rw [if_neg hj', if_neg (by omega)]
    · rw [hs.index r hr, hd.index r hr]
    · have := hs.dirty hdirty
      rw [this, hd.dirty] at hdirty
      cases hdirty

end Shrink

/-- The inode has got `n` blocks that read as zero. -/
structure Grown (R : ℕ → Prop) (k : Lk) (n : ℕ) (k' : Lk) : Prop extends Touch R k k' where
  solid : ∀ X, k.Solid X → k'.Solid X
  info : k'.din.info = k.din.info
  dinBlocks : k'.din.blocks = k.din.blocks + n
  data : k'.data = k.data
  clean : k'.dirty = false → k.dirty = false ∧ k'.din = { k.din with blocks := k'.din.blocks }

section Grow

variable {R : ℕ → Prop} {X : Prop}

theorem Grown.refl {k : Lk} (h : Own R k.vol k.din) : Grown R k 0 k :=
  ⟨Touch.refl h, fun _ hs => hs, rfl, rfl, rfl, fun hd => ⟨hd, rfl⟩⟩

/-- The loop that adds blocks: by induction on their number. -/
theorem growLoop_spec : ∀ (n : ℕ) {k : Lk}, Own R k.vol k.din → k.Solid X → k.din.blocks + n ≤ NLEAF →
    Op.wp (growLoop k.din.blocks n) (fun r k' => ∃ m, Grown R k m k' ∧
      (r = .ok () ∧ m = n ∨ r = .error .noMem ∧ m < n)) k := by
  intro n
  induction n with
  | zero => exact fun {k} h _ _ => ⟨0, Grown.refl h, .inl ⟨rfl, rfl⟩⟩
  | succ n ih =>
    intro k h hs hlt
    unfold growLoop
    rw [Op.wp_bind]
    refine Op.wp_mono (bmapLoad_end h hs (by omega)) ?_
    rintro r k₁ (⟨b, rfl, ha⟩ | ⟨rfl, hr⟩)
    · have hb := ha.dinBlocks
      dsimp only
      rw [← hb]
      refine Op.wp_mono (ih ha.own (ha.solid X hs) (by omega)) ?_
      rintro r k₂ ⟨m, hg, hm⟩
      have hb₂ := hg.dinBlocks
      refine ⟨m + 1, ⟨ha.toTouch.trans hg.toTouch, fun Y hY => hg.solid Y (ha.solid Y hY), hg.info.trans ha.info,
        by omega, hg.data.trans (ha.data hs), fun hd => ?_⟩, ?_⟩
      · obtain ⟨hd₁, he₁⟩ := hg.clean hd
        obtain ⟨hd₀, he₀⟩ := ha.clean hd₁
        refine ⟨hd₀, ?_⟩
        rw [he₁, he₀]
      · rcases hm with ⟨hr, hm⟩ | ⟨hr, hm⟩
        · exact .inl ⟨hr, by omega⟩
        · exact .inr ⟨hr, by omega⟩
    · refine ⟨0, ⟨hr.toTouch, hr.solid, hr.info, hr.dinBlocks, hr.data, fun hd => ?_⟩,
        .inr ⟨rfl, Nat.succ_pos n⟩⟩
      obtain ⟨hd', he⟩ := hr.clean hd
      exact ⟨hd', by rw [he]⟩

end Grow

/-! ## `sfs_truncfile` -/

/-- The file has the size `size` and the contents `d`. -/
structure Resized (R : ℕ → Prop) (k : Lk) (size : ℕ) (d : ℕ → UInt8) (k' : Lk) : Prop extends Touch R k k' where
  solid : ∀ X, k.Solid X → k'.Solid X
  info : k'.din.info = size
  cover : size ≤ 4096 * k'.din.blocks
  data : k'.data = d
  clean : k'.dirty = false →
    k.dirty = false ∧ k'.din = { k.din with blocks := k'.din.blocks } ∧ k.din.blocks ≤ k'.din.blocks

section Truncate

variable {R : ℕ → Prop} {X : Prop} {k : Lk} {d : ℕ → UInt8}

/-- The end of `sfs_truncfile`. -/
theorem Resized.sized {k₁ : Lk} {size len : ℕ} (h : Resized R k size d k₁)
    (hlen : len ≤ 4096 * k₁.din.blocks) :
    Resized R k len d ⟨k₁.vol, { k₁.din with info := len }, true⟩ where
  toTouch := h.toTouch.setInfo len k₁.din.blocks true
  solid Y hY := by
    have := h.solid Y hY
    exact ⟨⟨this.leaf, this.exact⟩, this.blank⟩
  info := rfl
  cover := hlen
  data := h.data
  clean := nofun

theorem Grown.resized {k' : Lk} {n : ℕ} (h : Grown R k n k') (hcover : k.din.info ≤ 4096 * k.din.blocks) :
    Resized R k k.din.info k.data k' where
  toTouch := h.toTouch
  solid := h.solid
  info := h.info
  cover := by have := h.dinBlocks; omega
  data := h.data
  clean hd := by
    obtain ⟨hd', he⟩ := h.clean hd
    have := h.dinBlocks
    exact ⟨hd', he, by omega⟩

theorem truncfile_eq {len : ℕ} (htype : k.din.type ≠ SFS_TYPE_DIR) (hmax : len ≤ SFS_MAX_FILE_SIZE)
    (hne : k.din.info ≠ len) : truncfile len k = (do
      resize k.din.blocks (roundupDiv len SFS_BLKSIZE)
      Op.assert ((← Op.gets fun k => k.din.blocks) = roundupDiv len SFS_BLKSIZE)
      setDin fun d => { d with info := len } : Op Lk Err Unit) k := by
  unfold truncfile
  rw [if_neg (by omega), Op.bind_of_ok (rfl : Op.gets Lk.din k = some (.ok k.din, k)),
    Op.bind_of_ok (if_pos htype : Op.assert (k.din.type ≠ SFS_TYPE_DIR) k = some (.ok (), k)), Int.toNat_natCast,
    if_neg hne]

/-- The file has as many blocks as the new size needs. -/
theorem sized_eq {k₁ : Lk} {len m : ℕ} (hb : k₁.din.blocks = m) : (do
      Op.assert ((← Op.gets fun k => k.din.blocks) = m)
      setDin fun d => { d with info := len } : Op Lk Err Unit) k₁ =
    some (.ok (), ⟨k₁.vol, { k₁.din with info := len }, true⟩) := by
  rw [Op.bind_of_ok (rfl : Op.gets _ k₁ = some (.ok k₁.din.blocks, k₁)),
    Op.bind_of_ok (if_pos hb : Op.assert (k₁.din.blocks = m) k₁ = some (.ok (), k₁))]
  rfl

/-- A file gets longer: what is new reads as zero.  If there are too few blocks it has its old size, and some
of them. -/
theorem truncfile_grow {len : ℕ} (h : Own R k.vol k.din) (hs : k.Solid X) (htype : k.din.type ≠ SFS_TYPE_DIR)
    (hup : k.din.info < len) (hmax : len ≤ SFS_MAX_FILE_SIZE) (hcover : k.din.info ≤ 4096 * k.din.blocks)
    (hblank : ∀ p, k.din.info ≤ p → k.data p = 0) :
    Op.wp (truncfile len) (fun r k' => r = .ok () ∧ Resized R k len k.data k' ∨
      r = .error .noMem ∧ Resized R k k.din.info k.data k') k := by
  have hlen : len ≤ 4096 * roundupDiv len SFS_BLKSIZE := by
    unfold roundupDiv SFS_BLKSIZE
    omega
  have hleaf : roundupDiv len SFS_BLKSIZE ≤ NLEAF := by
    unfold roundupDiv SFS_BLKSIZE NLEAF SFS_MAX_FILE_SIZE at *
    omega
  unfold Op.wp
  rw [truncfile_eq htype hmax (Nat.ne_of_lt hup)]
  unfold resize
  by_cases hlt : k.din.blocks < roundupDiv len SFS_BLKSIZE
  · rw [if_pos hlt]
    obtain ⟨r, k₁, heq, m, hg, ⟨rfl, rfl⟩ | ⟨rfl, -⟩⟩ := Op.wp_iff.mp
      (growLoop_spec (roundupDiv len SFS_BLKSIZE - k.din.blocks) h hs (by omega))
    · have hb : k₁.din.blocks = roundupDiv len SFS_BLKSIZE := by
        have := hg.dinBlocks
        omega
      rw [Op.bind_of_ok heq, sized_eq hb]
      exact .inl ⟨rfl, (hg.resized hcover).sized (hb ▸ hlen)⟩
    · rw [Op.bind_of_error heq]
      exact .inr ⟨rfl, hg.resized hcover⟩
  · -- the blocks of an earlier attempt are more than are needed now
    rw [if_neg hlt]
    obtain ⟨k₁, heq, hd⟩ := shrinkLoop_spec (k.din.blocks - roundupDiv len SFS_BLKSIZE) h hs (Nat.sub_le ..)
    have hb : k₁.din.blocks = roundupDiv len SFS_BLKSIZE := by
      have := hd.dinBlocks
      omega
    have hdata : k₁.data = k.data := by
      funext p
      rw [hd.data]
      by_cases hp : k₁.din.blocks ≤ p / 4096 ∧ p / 4096 < k.din.blocks
      · rw [if_pos hp, hblank p (by omega)]
      · rw [if_neg hp]
    rw [Op.bind_of_ok heq, sized_eq hb]
    refine .inl ⟨rfl, hd.toTouch.setInfo len k₁.din.blocks true, fun Y hY => ?_, rfl, hb ▸ hlen, hdata, nofun⟩
    have := hd.solid Y hY
    exact ⟨⟨this.leaf, this.exact⟩, this.blank⟩

/-- A file is emptied, unless the number of blocks of an empty file is not 0. -/
theorem truncfile_zero (h : Own R k.vol k.din) (hs : k.Solid X) (htype : k.din.type ≠ SFS_TYPE_DIR)
    (hblank : ∀ p, k.din.info ≤ p → k.data p = 0) :
    Op.wpx (k.din.info = 0 ∧ k.din.blocks ≠ 0) (truncfile 0)
      (fun r k' => r = .ok () ∧ Resized R k 0 (fun _ => 0) k') k := by
  by_cases h0 : k.din.info = 0
  · have heq : truncfile 0 k = Op.assert (roundupDiv 0 SFS_BLKSIZE = k.din.blocks) k := by
      unfold truncfile
      rw [if_neg (by unfold SFS_MAX_FILE_SIZE; omega), Op.bind_of_ok (rfl : Op.gets Lk.din k = some (.ok k.din, k)),
        Op.bind_of_ok (if_pos htype : Op.assert (k.din.type ≠ SFS_TYPE_DIR) k = some (.ok (), k)), Int.toNat_zero,
          if_pos h0]
    have hzero : roundupDiv 0 SFS_BLKSIZE = 0 := rfl
    by_cases hb : k.din.blocks = 0
    · refine Op.wpx_of_eq (heq.trans (if_pos (hzero.trans hb.symm))) ⟨rfl, Touch.refl h, fun _ hY => hY, h0,
        Nat.zero_le _, ?_, fun hd => ⟨hd, rfl, le_rfl⟩⟩
      funext p
      exact hblank p (by omega)
    · exact Op.wpx_of_none (heq.trans (if_neg fun he => hb (he.symm.trans hzero))) ⟨h0, hb⟩
  · obtain ⟨k₁, heq, hd⟩ := shrinkLoop_spec k.din.blocks h hs le_rfl
    have hb : k₁.din.blocks = 0 := by
      have := hd.dinBlocks
      omega
    have hrun : truncfile ((0 : ℕ) : ℤ) k = some (.ok (), ⟨k₁.vol, { k₁.din with info := 0 }, true⟩) := by
      rw [truncfile_eq htype (Nat.zero_le _) h0, show roundupDiv 0 SFS_BLKSIZE = 0 from rfl]
      unfold resize
      rw [if_neg (Nat.not_lt_zero _), Nat.sub_zero, Op.bind_of_ok heq, sized_eq hb]
    refine Op.wpx_of_eq hrun ⟨rfl, hd.toTouch.setInfo 0 k₁.din.blocks true, fun Y hY => ?_, rfl, Nat.zero_le _, ?_,
      nofun⟩
    · have := hd.solid Y hY
      exact ⟨⟨this.leaf, this.exact⟩, this.blank⟩
    · funext p
      show k₁.data p = 0
      rw [hd.data]
      by_cases hp : k₁.din.blocks ≤ p / 4096 ∧ p / 4096 < k.din.blocks
      · rw [if_pos hp]
      · rw [if_neg hp]
        exact hs.data_beyond (by omega)

end Truncate

end Ucore.Sfs
