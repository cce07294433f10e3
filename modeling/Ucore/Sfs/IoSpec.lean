import Ucore.Sfs.Extent
import Ucore.Sfs.Io

/-!
# What file I/O does

* `Chunk` — one part of a write: the bytes of one block change as they should, the block is added if it
  is the one at the end of the file, and what is still needed for later parts is still there.
* `Written` — the same for the bytes from one offset to another; parts compose by `Written.chunk`.
* `ioRun_write`, `ioRun_read` — a whole transfer.
-/

namespace Ucore.Sfs

open Bytes

/-- Byte `p` of the file; a block that is missing reads as zero. -/
def Lk.data (k : Lk) (p : ℕ) : UInt8 := if k.role (.leaf (p / 4096)) = 0 then 0 else k.byte p

section Bytes

variable {R : ℕ → Prop} {X : Prop} {k k' : Lk} {b p : ℕ}

theorem Lk.data_of_leaf (h : k.role (.leaf (p / 4096)) ≠ 0) : k.data p = k.byte p := if_neg h

theorem Lk.Covered.data (h : k.Covered X) (hp : p < 4096 * k.din.blocks) : k.data p = k.byte p :=
  Lk.data_of_leaf (h.leaf _ (by omega))

theorem Lk.Solid.data_beyond (h : k.Solid X) (hp : 4096 * k.din.blocks ≤ p) : k.data p = 0 := by
  unfold Lk.data
  by_cases h0 : k.role (.leaf (p / 4096)) = 0
  · rw [if_pos h0]
  · rw [if_neg h0]
    exact h.blank _ (by omega) h0 _ (Nat.mod_lt p (by decide))

/-- A block that is there is read as before. -/
theorem Lk.data_congr (hleaf : k'.role (.leaf (p / 4096)) = k.role (.leaf (p / 4096)))
    (hdisk : k.role (.leaf (p / 4096)) ≠ 0 →
      k'.vol.disk (k.role (.leaf (p / 4096))) = k.vol.disk (k.role (.leaf (p / 4096)))) :
    k'.data p = k.data p := by
  unfold Lk.data Lk.byte
  rw [hleaf]
  by_cases h0 : k.role (.leaf (p / 4096)) = 0
  · rw [if_pos h0, if_pos h0]
  · rw [if_neg h0, if_neg h0, hdisk h0]

theorem Added.data (h : Added R k b k') (hs : k.Solid X) : k'.data = k.data := by
  funext p
  by_cases hj : p / 4096 = k.din.blocks
  · have hzero : k.data p = 0 := hs.data_beyond (by omega)
    have h0 : k'.role (.leaf (p / 4096)) ≠ 0 := by
      rw [hj, h.last]
      exact h.present
    rw [hzero, Lk.data_of_leaf h0]
    unfold Lk.byte
    rw [hj, h.last]
    exact h.clear _ (Nat.mod_lt p (by decide))
  · refine Lk.data_congr (h.others _ ?_) fun h0 => h.same _ h0
    unfold OnPath
    exact hj

theorem Refused.data (h : Refused R k k') : k'.data = k.data :=
  funext fun _ => Lk.data_congr (h.leaves _) (h.same _)

theorem Dropped.data (h : Dropped R k k') (p : ℕ) :
    k'.data p = if p / 4096 = k'.din.blocks then 0 else k.data p := by
  have hleaf := h.leaf (p / 4096)
  by_cases hj : p / 4096 = k'.din.blocks
  · rw [if_pos hj] at hleaf ⊢
    exact if_pos hleaf
  · rw [if_neg hj] at hleaf ⊢
    exact Lk.data_congr hleaf (h.same _)

/-- The state after `sfs_wbuf` on a block of the file. -/
def Lk.write (k : Lk) (i off size : ℕ) (data : ℕ → UInt8) : Lk :=
  let disk := Function.update k.vol.disk (k.role (.leaf i))
    (splice (k.vol.disk (k.role (.leaf i))) off size data)
  { k with vol := { k.vol with disk := disk } }

variable {i off size : ℕ} {data : ℕ → UInt8}

theorem Lk.write_role (h : Own R k.vol k.din) (hi : k.role (.leaf i) ≠ 0) :
    (k.write i off size data).role = k.role := by
  have hne : ∀ r : Role, r.isIndex = true → k.role r ≠ k.role (.leaf i) := by
    intro r hr he
    have := h.inj (.leaf i) r hi he.symm
    subst this
    cases hr
  refine roleAt_congr (fun _ => ?_) (fun _ => ?_) fun j _ => ?_
  · exact Function.update_of_ne (hne .ind rfl) ..
  · exact Function.update_of_ne (hne .dbl rfl) ..
  · exact Function.update_of_ne (hne (.mid j) rfl) ..

theorem Lk.write_touch (h : Own R k.vol k.din) (hi : k.role (.leaf i) ≠ 0) :
    Touch R k (k.write i off size data) := by
  refine ⟨h.congr ⟨h.vol.free, h.vol.count⟩ rfl rfl (Lk.write_role h hi), fun c hc _ => ?_, rfl, rfl,
    rfl, rfl, fun _ _ => rfl, fun hd => ⟨hd, rfl, rfl⟩⟩
  have hne : c ≠ k.role (.leaf i) := by
    intro he
    rw [he] at hc
    exact h.apart _ hi hc
  exact Function.update_of_ne hne ..

theorem Lk.write_data (h : Own R k.vol k.din) (hi : k.role (.leaf i) ≠ 0) (hsize : off + size ≤ 4096)
    (p : ℕ) : (k.write i off size data).data p =
      if 4096 * i + off ≤ p ∧ p < 4096 * i + off + size then data (p - (4096 * i + off))
      else k.data p := by
  have hrole : (k.write i off size data).role = k.role := Lk.write_role h hi
  by_cases hj : p / 4096 = i
  · have h0 : (k.write i off size data).role (.leaf (p / 4096)) ≠ 0 := by
      rw [hrole, hj]
      exact hi
    have h1 : k.role (.leaf (p / 4096)) ≠ 0 := by
      rw [hj]
      exact hi
    have hself : (k.write i off size data).vol.disk (k.role (.leaf i)) =
        splice (k.vol.disk (k.role (.leaf i))) off size data := Function.update_self ..
    rw [Lk.data_of_leaf h0, Lk.data_of_leaf h1]
    unfold Lk.byte
    rw [hrole, hj, hself]
    by_cases hin : 4096 * i + off ≤ p ∧ p < 4096 * i + off + size
    · rw [if_pos hin, splice_of_mem (by omega) (by omega)]
      congr 1
      omega
    · rw [if_neg hin, splice_of_not_mem (by omega)]
  · rw [if_neg (by omega)]
    refine Lk.data_congr (congrFun hrole _) fun h0 => Function.update_of_ne (fun he => ?_) ..
    exact hj (Role.leaf.inj (h.inj _ _ h0 he))

/-- A block that the inode counts is written. -/
theorem Lk.Solid.write (h : Own R k.vol k.din) (hi : i < k.din.blocks) (hs : k.Solid X) :
    (k.write i off size data).Solid X := by
  have h0 := hs.leaf i hi
  have hrole : (k.write i off size data).role = k.role := Lk.write_role h h0
  refine ⟨⟨fun j hj => ?_, fun hx j hj => ?_⟩, fun j hj hj0 => ?_⟩
  · rw [hrole]
    exact hs.leaf j hj
  · rw [hrole] at hj
    exact hs.exact hx j hj
  · rw [hrole] at hj0 ⊢
    have hj' : k.din.blocks ≤ j := hj
    have hne : k.role (.leaf j) ≠ k.role (.leaf i) := fun he => by
      have := Role.leaf.inj (h.inj _ _ hj0 he)
      omega
    have hdisk : (k.write i off size data).vol.disk (k.role (.leaf j)) = k.vol.disk (k.role (.leaf j)) :=
      Function.update_of_ne hne ..
    rw [hdisk]
    exact hs.blank j hj' hj0

theorem Lk.needs_congr {m : ℕ} (hrole : k'.role = k.role) (hb : k'.din.blocks = k.din.blocks) :
    k'.needs m = k.needs m := by
  unfold Lk.needs Lk.lacks
  rw [hrole, hb]

end Bytes

/-! ## Writing -/

/-- The bytes from `a` to `z` have been written, and the block map reaches up to them. -/
structure Written (R : ℕ → Prop) (data : ℕ → UInt8) (k : Lk) (a z : ℕ) (k' : Lk) : Prop
    extends Touch R k k' where
  solid : ∀ X, k.Solid X → k'.Solid X
  info : k'.din.info = k.din.info
  dinBlocks : k'.din.blocks = max k.din.blocks (if a < z then roundupDiv z 4096 else 0)
  data : ∀ p, k'.data p = if a ≤ p ∧ p < z then data (p - a) else k.data p
  clean : k'.dirty = false → k.dirty = false ∧ k'.din = { k.din with blocks := k'.din.blocks }

section Write

variable {R : ℕ → Prop} {X : Prop} {k k' : Lk} {data : ℕ → UInt8} {a z : ℕ}

/-- Block `i` is there to be written: it was, or it has been added. -/
structure Ready (R : ℕ → Prop) (i : ℕ) (k k' : Lk) : Prop extends Touch R k k' where
  solid : ∀ X, k.Solid X → k'.Solid X
  info : k'.din.info = k.din.info
  dinBlocks : k'.din.blocks = max k.din.blocks (i + 1)
  data : k'.data = k.data
  block : ∀ j, k.role (.leaf j) ≠ 0 →
    k'.vol.disk (k'.role (.leaf j)) = k.vol.disk (k.role (.leaf j))
  room : ∀ m, k'.din.blocks ≤ m → k'.needs m + k.vol.unused ≤ k.needs m + k'.vol.unused
  clean : k'.dirty = false → k.dirty = false ∧ k'.din = { k.din with blocks := k'.din.blocks }

variable {i : ℕ}

theorem Ready.filled (h : Ready R i k k') (hf : k.Filled) : k'.Filled :=
  (h.solid False hf.solid).filled nofun

theorem Ready.inside (h : Own R k.vol k.din) (hi : i < k.din.blocks) : Ready R i k k where
  toTouch := Touch.refl h
  solid _ hs := hs
  info := rfl
  dinBlocks := by omega
  data := rfl
  block _ _ := rfl
  room m _ := le_rfl
  clean hd := ⟨hd, rfl⟩

theorem Added.ready {b : ℕ} (h : Added R k b k') (hs : k.Solid X) (hlt : k.din.blocks < NLEAF) :
    Ready R k.din.blocks k k' where
  toTouch := h.toTouch
  solid := h.solid
  info := h.info
  dinBlocks := by rw [h.dinBlocks]; omega
  data := h.data hs
  block j hj := by rw [h.leaf j hj, h.same j hj]
  room m hm := by
    have hd := h.dinBlocks
    have hn := h.needs hlt (m := m) (by omega)
    have hu := h.unused
    omega
  clean hd := by
    obtain ⟨hd', he⟩ := h.clean hd
    rw [h.dinBlocks]
    exact ⟨hd', he⟩

theorem bmapLoad_spec (h : Own R k.vol k.din) (hs : k.Solid X) (hi : i ≤ k.din.blocks)
    (hlt : i < NLEAF) : Op.wp (bmapLoad i) (fun r k' =>
      (∃ b, r = .ok b ∧ Ready R i k k' ∧ k'.role (.leaf i) = b) ∨
      (r = .error .noMem ∧ i = k.din.blocks ∧ Refused R k k')) k := by
  by_cases hin : i < k.din.blocks
  · exact Op.wp_iff.mpr ⟨_, _, bmapLoad_inside h hs.toCovered hin, .inl ⟨_, rfl, Ready.inside h hin, rfl⟩⟩
  · obtain rfl : i = k.din.blocks := by omega
    refine Op.wp_mono (bmapLoad_end h hs hlt) ?_
    rintro r k' (⟨b, rfl, ha⟩ | ⟨rfl, hr⟩)
    · exact .inl ⟨b, rfl, ha.ready hs hlt, ha.last⟩
    · exact .inr ⟨rfl, rfl, hr⟩

theorem Written.refl (h : Own R k.vol k.din) : Written R data k a a k where
  toTouch := Touch.refl h
  solid _ hs := hs
  info := rfl
  dinBlocks := by simp
  data p := by rw [if_neg (by omega)]
  clean hd := ⟨hd, rfl⟩

/-- The next part is written. -/
theorem Written.chunk {k₁ k₂ : Lk} {off size : ℕ} (h : Written R data k a z k₁) (hs : k.Solid X)
    (hr : Ready R i k₁ k₂) (haz : a ≤ z) (hz : z = 4096 * i + off) (hsize : 0 < size)
    (hoff : off + size ≤ 4096) :
    Written R data k a (z + size) (k₂.write i off size fun j => data (z - a + j)) := by
  have hb₁ := h.dinBlocks
  have hb₂ := hr.dinBlocks
  have hi : i < k₂.din.blocks := by omega
  have h0 := (hr.solid X (h.solid X hs)).leaf i hi
  have hup : roundupDiv (z + size) 4096 = i + 1 := by unfold roundupDiv; omega
  have hup' : roundupDiv z 4096 ≤ i + 1 := by unfold roundupDiv; omega
  have hblocks : k₂.din.blocks = max k.din.blocks (i + 1) := by
    split at hb₁ <;> omega
  refine ⟨(h.toTouch.trans hr.toTouch).trans (Lk.write_touch hr.own h0),
    fun Y hY => (hr.solid Y (h.solid Y hY)).write hr.own hi, hr.info.trans h.info, ?_, fun p => ?_, fun hd => ?_⟩
  · rw [if_pos (by omega), hup]
    exact hblocks
  · rw [Lk.write_data hr.own h0 hoff, ← hz]
    by_cases hin : z ≤ p ∧ p < z + size
    · rw [if_pos hin, if_pos (by omega)]
      congr 1
      omega
    · rw [if_neg hin, hr.data, h.data p]
      by_cases hold : a ≤ p ∧ p < z
      · rw [if_pos hold, if_pos (by omega)]
      · have hnew : ¬ (a ≤ p ∧ p < z + size) := by omega
        rw [if_neg hold, if_neg hnew]
  · obtain ⟨hd₁, he₁⟩ := hr.clean hd
    obtain ⟨hd₀, he₀⟩ := h.clean hd₁
    refine ⟨hd₀, ?_⟩
    show k₂.din = _
    rw [he₁, he₀]
    rfl

/-- There is no block for the next part. -/
theorem Written.refused {k₁ k₂ : Lk} (h : Written R data k a z k₁) (hr : Refused R k₁ k₂) :
    Written R data k a z k₂ := by
  refine ⟨h.toTouch.trans hr.toTouch, fun Y hY => hr.solid Y (h.solid Y hY), hr.info.trans h.info,
    hr.dinBlocks.trans h.dinBlocks, fun p => ?_, fun hd => ?_⟩
  · rw [hr.data]
    exact h.data p
  · obtain ⟨hd₁, he₁⟩ := hr.clean hd
    obtain ⟨hd₀, he₀⟩ := h.clean hd₁
    refine ⟨hd₀, ?_⟩
    rw [he₁]
    exact he₀

/-- A write from `a` on that has not met an error. -/
structure Going (R : ℕ → Prop) (data : ℕ → UInt8) (k : Lk) (a : ℕ) (x : Xfer) (k' : Lk) : Prop where
  ret : x.ret = none
  buf : x.buf = data
  written : Written R data k a (a + x.alen) k'
  start : x.alen = 0 → k' = k
  room : ∀ m, k'.din.blocks ≤ m → k'.needs m + k.vol.unused ≤ k.needs m + k'.vol.unused

/-- A write from `a` to `e` that has run out of blocks. -/
structure Stuck (R : ℕ → Prop) (data : ℕ → UInt8) (k : Lk) (a e : ℕ) (x : Xfer) (k' : Lk) : Prop where
  ret : x.ret = some .noMem
  buf : x.buf = data
  written : Written R data k a (a + x.alen) k'
  lt : a + x.alen < e
  start : x.alen = 0 → a / 4096 = k.din.blocks ∧ k.vol.unused < k.need k.din.blocks
  short : k.vol.unused < k.needs (roundupDiv e 4096)

/-- One part of a write. -/
theorem part_write {x : Xfer} {k₁ : Lk} {off size e : ℕ} (hs : k.Solid X) (h : Going R data k a x k₁)
    (ha : a / 4096 ≤ k.din.blocks) (hx : a + x.alen = 4096 * x.blkno + off) (hsize : 0 < size)
    (hoff : off + size ≤ 4096) (he : a + x.alen + size ≤ e) (hmax : e ≤ 4096 * NLEAF) :
    Op.wp (x.part true off size) (fun r k₂ => ∃ x', r = .ok x' ∧
      (x'.alen = x.alen + size ∧ x'.blkno = x.blkno + 1 ∧ Going R data k a x' k₂ ∨
        Stuck R data k a e x' k₂)) k₁ := by
  have hw := h.written
  have hb := hw.dinBlocks
  have hi : x.blkno ≤ k₁.din.blocks := by
    unfold roundupDiv at hb
    split at hb <;> omega
  unfold Xfer.part
  rw [h.ret, if_neg (by simp), Op.wp_bind, Op.wp_attempt, Op.wp_bind]
  refine Op.wp_mono (bmapLoad_spec hw.own (hw.solid X hs) hi (by omega)) ?_
  rintro r k₂ (⟨b, rfl, hr, hb₂⟩ | ⟨rfl, hend, hr⟩)
  · have hin : x.blkno < k₂.din.blocks := by have := hr.dinBlocks; omega
    have h0 := (hr.solid X (hw.solid X hs)).leaf _ hin
    have hwbuf : wbuf (fun j => x.buf (x.alen + j)) size b off k₂.vol = some (.ok (),
        (k₂.write x.blkno off size fun j => x.buf (x.alen + j)).vol) := by
      subst hb₂
      exact if_pos ⟨by unfold SFS_BLKSIZE; omega, hoff, h0, hr.own.inside _ h0⟩
    dsimp only
    unfold bufOp
    rw [if_pos rfl, Op.wp_bind_of_ok (onVol_of_ok hwbuf)]
    have hchunk := hw.chunk hs hr (by omega) hx hsize hoff
    rw [Nat.add_sub_cancel_left] at hchunk
    rw [h.buf]
    refine ⟨_, rfl, .inl ⟨rfl, rfl, h.ret, rfl, ?_, fun h0 => ?_, fun m hm => ?_⟩⟩
    · show Written R data k a (a + (x.alen + size)) _
      rw [← Nat.add_assoc]
      exact hchunk
    · have : x.alen + size = 0 := h0
      omega
    · have hm₂ : k₂.din.blocks ≤ m := hm
      have hneeds : (k₂.write x.blkno off size fun j => data (x.alen + j)).needs m = k₂.needs m :=
        Lk.needs_congr (Lk.write_role hr.own h0) rfl
      have hroom := hr.room m hm₂
      have hroom₁ := h.room m (by have := hr.dinBlocks; omega)
      show (k₂.write x.blkno off size fun j => data (x.alen + j)).needs m + k.vol.unused ≤
        k.needs m + k₂.vol.unused
      omega
  · dsimp only
    have hup : x.blkno < roundupDiv e 4096 := by unfold roundupDiv; omega
    have hlt : k₁.din.blocks < NLEAF := by omega
    have hle := Lk.need_le_needs hlt (m := roundupDiv e 4096) (by omega)
    have hroom := h.room (roundupDiv e 4096) (by omega)
    have hshort := hr.unused
    refine ⟨_, rfl, .inr ⟨rfl, h.buf, hw.refused hr, by dsimp only; omega, fun h0 => ?_, by omega⟩⟩
    have hk := h.start h0
    subst hk
    have h0' : x.alen = 0 := h0
    exact ⟨by omega, hshort⟩

/-- A part after an error does nothing. -/
theorem part_stuck {x : Xfer} {k₁ : Lk} {off size e : ℕ} (h : Stuck R data k a e x k₁) :
    Op.wp (x.part true off size) (fun r k₂ => ∃ x', r = .ok x' ∧ Stuck R data k a e x' k₂) k₁ := by
  unfold Xfer.part
  rw [h.ret, if_pos (by simp), Op.wp_pure]
  exact ⟨x, rfl, h⟩

theorem ioLoop_stuck {e : ℕ} : ∀ (n : ℕ) {x : Xfer} {k₁ : Lk}, Stuck R data k a e x k₁ →
    Op.wp (ioLoop true n x) (fun r k₂ => ∃ x', r = .ok x' ∧ Stuck R data k a e x' k₂) k₁ := by
  intro n
  induction n with
  | zero => exact fun {x k₁} h => ⟨x, rfl, h⟩
  | succ n ih =>
    intro x k₁ h
    exact Op.wp_bind_ok (part_stuck h) fun x' k₂ h' => ih h'

/-- The loop over whole blocks: by induction on their number. -/
theorem ioLoop_write {e : ℕ} (hs : k.Solid X) (ha : a / 4096 ≤ k.din.blocks) (hmax : e ≤ 4096 * NLEAF) :
    ∀ (n : ℕ) {x : Xfer} {k₁ : Lk}, Going R data k a x k₁ → a + x.alen = 4096 * x.blkno →
      a + x.alen + 4096 * n ≤ e → Op.wp (ioLoop true n x) (fun r k₂ => ∃ x', r = .ok x' ∧
        (x'.alen = x.alen + 4096 * n ∧ x'.blkno = x.blkno + n ∧ Going R data k a x' k₂ ∨
          Stuck R data k a e x' k₂)) k₁ := by
  intro n
  induction n with
  | zero => exact fun {x k₁} h _ _ => ⟨x, rfl, .inl ⟨by omega, rfl, h⟩⟩
  | succ n ih =>
    intro x k₁ h hx he
    have hx₀ : a + x.alen = 4096 * x.blkno + 0 := hx
    rw [Nat.mul_succ] at he ⊢
    have he₀ : a + x.alen + 4096 ≤ e :=
      le_trans (Nat.add_le_add_left (Nat.le_add_left 4096 (4096 * n)) _) he
    have hpart := part_write hs h ha hx₀ (by simp : 0 < 4096) (Nat.zero_add 4096).le he₀ hmax
    unfold ioLoop SFS_BLKSIZE
    refine Op.wp_bind_ok hpart ?_
    rintro x' k₂ (⟨hal, hbl, hg⟩ | hst)
    · have hx' : a + x'.alen = 4096 * x'.blkno := by
        rw [hal, hbl, Nat.mul_succ, ← Nat.add_assoc, hx]
      have he' : a + x'.alen + 4096 * n ≤ e := by
        refine le_trans (le_of_eq ?_) he
        rw [hal]
        ring
      refine Op.wp_mono (ih hg hx' he') ?_
      rintro r k₃ ⟨x'', rfl, ⟨hal', hbl', hg'⟩ | hst⟩
      · refine ⟨x'', rfl, .inl ⟨?_, ?_, hg'⟩⟩
        · rw [hal', hal]
          ring
        · rw [hbl', hbl]
          ring
      · exact ⟨x'', rfl, .inr hst⟩
    · refine Op.wp_mono (ioLoop_stuck n hst) ?_
      rintro r k₃ ⟨x'', rfl, hst'⟩
      exact ⟨x'', rfl, .inr hst'⟩

/-- How a write from `a` to `e` ends. -/
def Ended (R : ℕ → Prop) (data : ℕ → UInt8) (k : Lk) (a e : ℕ) (r : Except Err Xfer) (k' : Lk) : Prop :=
  ∃ x, r = .ok x ∧ (a + x.alen = e ∧ Going R data k a x k' ∨ Stuck R data k a e x k')

theorem tail_stuck {e t : ℕ} {x : Xfer} {k₁ : Lk} (h : Stuck R data k a e x k₁) :
    Op.wp (if t ≠ 0 then x.part true 0 t else pure x) (Ended R data k a e) k₁ := by
  by_cases ht : t = 0
  · rw [if_neg (by simpa using ht), Op.wp_pure]
    exact ⟨x, rfl, .inr h⟩
  · rw [if_pos ht]
    refine Op.wp_mono (part_stuck h) ?_
    rintro r k₃ ⟨x'', rfl, hs'⟩
    exact ⟨x'', rfl, .inr hs'⟩

theorem ioRest_write {e n : ℕ} {x : Xfer} {k₁ : Lk} (hs : k.Solid X) (ha : a / 4096 ≤ k.din.blocks)
    (hmax : e ≤ 4096 * NLEAF) (h : Going R data k a x k₁) (hx : a + x.alen = 4096 * x.blkno)
    (he : a + x.alen + 4096 * n + e % 4096 = e) :
    Op.wp (ioRest true n (e % 4096) x) (Ended R data k a e) k₁ := by
  refine Op.wp_bind_ok (ioLoop_write hs ha hmax n h hx (le_trans (Nat.le_add_right ..) he.le)) ?_
  rintro x' k₂ (⟨hal, hbl, hg⟩ | hst)
  · have hx' : a + x'.alen = 4096 * x'.blkno + 0 := by
      rw [hal, hbl, ← Nat.add_assoc, hx]
      ring
    have he' : a + x'.alen + e % 4096 = e := by
      rw [hal, ← Nat.add_assoc]
      exact he
    by_cases ht : e % 4096 = 0
    · rw [if_neg (by simpa using ht), Op.wp_pure]
      exact ⟨x', rfl, .inl ⟨by rw [← he', ht]; rfl, hg⟩⟩
    · have hmod : e % 4096 < 4096 := Nat.mod_lt e (by simp)
      rw [if_pos ht]
      refine Op.wp_mono (part_write hs hg ha hx' (Nat.pos_of_ne_zero ht)
        (by rw [Nat.zero_add]; exact hmod.le) he'.le hmax) ?_
      rintro r k₃ ⟨x'', rfl, ⟨hal', -, hg'⟩ | hst⟩
      · refine ⟨x'', rfl, .inl ⟨?_, hg'⟩⟩
        rw [hal', ← Nat.add_assoc]
        exact he'
      · exact ⟨x'', rfl, .inr hst⟩
  · exact tail_stuck hst

theorem ioRest_stuck {e n t : ℕ} {x : Xfer} {k₁ : Lk} (h : Stuck R data k a e x k₁) :
    Op.wp (ioRest true n t x) (Ended R data k a e) k₁ := by
  exact Op.wp_bind_ok (ioLoop_stuck n h) fun x' k₂ hs => tail_stuck hs

theorem ioParts_write {e : ℕ} (h : Own R k.vol k.din) (hs : k.Solid X) (ha : a / 4096 ≤ k.din.blocks)
    (hae : a < e) (hmax : e ≤ 4096 * NLEAF) :
    Op.wp (ioParts true a e ⟨data, 0, a / SFS_BLKSIZE, none⟩) (Ended R data k a e) k := by
  have hgo : Going R data k a ⟨data, 0, a / SFS_BLKSIZE, none⟩ k :=
    ⟨rfl, rfl, Written.refl h, fun _ => rfl, fun _ _ => le_rfl⟩
  unfold ioParts SFS_BLKSIZE at *
  have hdiv := Nat.div_add_mod a 4096
  have hdive := Nat.div_add_mod e 4096
  have hmod : a % 4096 < 4096 := Nat.mod_lt a (by simp)
  by_cases h0 : a % 4096 = 0
  · rw [if_neg (by simpa using h0)]
    rw [h0, Nat.add_zero] at hdiv
    refine ioRest_write hs ha hmax hgo hdiv.symm ?_
    have hle : a / 4096 ≤ e / 4096 := Nat.div_le_div_right hae.le
    calc a + 0 + 4096 * (e / 4096 - a / 4096) + e % 4096
        = 4096 * (a / 4096 + (e / 4096 - a / 4096)) + e % 4096 := by
          rw [Nat.add_zero, Nat.mul_add, hdiv]
      _ = e := by rw [Nat.add_sub_cancel' hle, hdive]
  rw [if_pos h0]
  by_cases hn : e / 4096 - a / 4096 = 0
  · rw [if_pos hn]
    have hle : a / 4096 ≤ e / 4096 := Nat.div_le_div_right hae.le
    refine Op.wp_mono (part_write hs hgo ha hdiv.symm (Nat.sub_pos_of_lt hae) (by omega)
      (Nat.add_sub_cancel' hae.le).le hmax) ?_
    rintro r k₁ ⟨x, rfl, ⟨hal, -, hg⟩ | hst⟩
    · exact ⟨x, rfl, .inl ⟨by rw [hal]; dsimp only; omega, hg⟩⟩
    · exact ⟨x, rfl, .inr hst⟩
  · rw [if_neg hn]
    refine Op.wp_bind_ok (part_write hs hgo ha hdiv.symm (Nat.sub_pos_of_lt hmod)
      (Nat.add_sub_cancel' hmod.le).le (by dsimp only; omega) hmax) ?_
    rintro x k₁ (⟨hal, hbl, hg⟩ | hst)
    · dsimp only at hal hbl
      exact ioRest_write hs ha hmax hg (by omega) (by omega)
    · exact ioRest_stuck hst

end Write

/-! ## Reading -/

/-- A read from `a` on has filled the buffer `buf` so far. -/
structure Reading (k : Lk) (a : ℕ) (buf : ℕ → UInt8) (x : Xfer) : Prop where
  ret : x.ret = none
  buf : ∀ i, x.buf i = if i < x.alen then k.byte (a + i) else buf i

section Read

variable {R : ℕ → Prop} {X : Prop} {k : Lk} {a : ℕ} {buf : ℕ → UInt8}

/-- One part of a read: the file is as it was. -/
theorem part_read {x : Xfer} {off size : ℕ} (h : Own R k.vol k.din) (hc : k.Covered X)
    (hr : Reading k a buf x) (hx : a + x.alen = 4096 * x.blkno + off) (hsize : 0 < size)
    (hoff : off + size ≤ 4096) (hin : x.blkno < k.din.blocks) :
    ∃ x', x.part false off size k = some (.ok x', k) ∧ Reading k a buf x' ∧
      x'.alen = x.alen + size ∧ x'.blkno = x.blkno + 1 := by
  have h0 := hc.leaf _ hin
  have hrbuf : rbuf size (k.role (.leaf x.blkno)) off k.vol =
      some (.ok fun j => k.vol.disk (k.role (.leaf x.blkno)) (off + j), k.vol) :=
    if_pos ⟨by unfold SFS_BLKSIZE; omega, hoff, h0, h.inside _ h0⟩
  let data : ℕ → UInt8 := fun j => k.vol.disk (k.role (.leaf x.blkno)) (off + j)
  refine ⟨⟨splice x.buf x.alen size data, x.alen + size, x.blkno + 1, x.ret⟩, ?_,
    ⟨hr.ret, fun i => ?_⟩, rfl, rfl⟩
  · have hop : (do bufOp false x (← bmapLoad x.blkno) off size : Op Lk Err Xfer) k = some (.ok
        ⟨splice x.buf x.alen size data, x.alen + size, x.blkno + 1, x.ret⟩, k) := by
      rw [Op.bind_of_ok (bmapLoad_inside h hc hin)]
      unfold bufOp
      rw [if_neg (by simp), Op.bind_of_ok (onVol_of_ok hrbuf)]
      rfl
    have hatt : Op.attempt (do bufOp false x (← bmapLoad x.blkno) off size : Op Lk Err Xfer) k =
        some (.ok (.ok ⟨splice x.buf x.alen size data, x.alen + size, x.blkno + 1, x.ret⟩), k) := by
      unfold Op.attempt
      rw [hop]
      rfl
    unfold Xfer.part
    rw [hr.ret] at hatt ⊢
    rw [if_neg (by simp), Op.bind_of_ok hatt]
    rfl
  · dsimp only
    by_cases hi : x.alen ≤ i ∧ i < x.alen + size
    · rw [splice_of_mem hi.1 hi.2, if_pos hi.2]
      unfold Lk.byte
      rw [show (a + i) / 4096 = x.blkno by omega, show (a + i) % 4096 = off + (i - x.alen) by omega]
    · rw [splice_of_not_mem (by omega), hr.buf i]
      by_cases hlt : i < x.alen
      · rw [if_pos hlt, if_pos (by omega)]
      · rw [if_neg hlt, if_neg (by omega)]

theorem ioLoop_read (h : Own R k.vol k.din) (hc : k.Covered X) : ∀ (n : ℕ) {x : Xfer},
    Reading k a buf x → a + x.alen = 4096 * x.blkno → x.blkno + n ≤ k.din.blocks →
      ∃ x', ioLoop false n x k = some (.ok x', k) ∧ Reading k a buf x' ∧
        x'.alen = x.alen + 4096 * n ∧ x'.blkno = x.blkno + n := by
  intro n
  induction n with
  | zero => exact fun {x} hr _ _ => ⟨x, rfl, hr, by omega, rfl⟩
  | succ n ih =>
    intro x hr hx hin
    have hx₀ : a + x.alen = 4096 * x.blkno + 0 := hx
    obtain ⟨x₁, heq, hr₁, hal, hbl⟩ := part_read h hc hr hx₀ (by simp : 0 < 4096)
      (Nat.zero_add 4096).le (by omega)
    have hx₁ : a + x₁.alen = 4096 * x₁.blkno := by
      rw [hal, hbl, Nat.mul_succ, ← Nat.add_assoc, hx]
    obtain ⟨x₂, heq₂, hr₂, hal₂, hbl₂⟩ := ih hr₁ hx₁ (by omega)
    refine ⟨x₂, ?_, hr₂, ?_, ?_⟩
    · unfold ioLoop SFS_BLKSIZE
      rw [Op.bind_of_ok heq]
      exact heq₂
    · rw [hal₂, hal]
      ring
    · rw [hbl₂, hbl]
      ring

theorem ioRest_read {n e : ℕ} {x : Xfer} (h : Own R k.vol k.din) (hc : k.Covered X)
    (hr : Reading k a buf x) (hx : a + x.alen = 4096 * x.blkno)
    (he : a + x.alen + 4096 * n + e % 4096 = e) (hin : roundupDiv e 4096 ≤ k.din.blocks) :
    ∃ x', ioRest false n (e % 4096) x k = some (.ok x', k) ∧ Reading k a buf x' ∧
      a + x'.alen = e := by
  have hup : e ≤ 4096 * roundupDiv e 4096 := by
    rw [Nat.mul_comm]
    exact le_roundupDiv_mul e (by simp)
  have hblk : x.blkno + n ≤ roundupDiv e 4096 := by
    rw [hx, ← Nat.mul_add] at he
    exact Nat.le_of_mul_le_mul_left (le_trans (le_trans (Nat.le_add_right _ _) he.le) hup)
      (by simp : 0 < 4096)
  obtain ⟨x₁, heq, hr₁, hal, hbl⟩ := ioLoop_read h hc n hr hx (hblk.trans hin)
  have he₁ : a + x₁.alen + e % 4096 = e := by
    rw [hal, ← Nat.add_assoc]
    exact he
  have hx₁ : a + x₁.alen = 4096 * x₁.blkno + 0 := by
    rw [hal, hbl, ← Nat.add_assoc, hx]
    ring
  unfold ioRest
  by_cases ht : e % 4096 = 0
  · refine ⟨x₁, ?_, hr₁, by rw [← he₁, ht]; rfl⟩
    rw [Op.bind_of_ok heq, if_neg (by simpa using ht)]
    rfl
  · have hlast : x₁.blkno < k.din.blocks := by
      have hlt : x₁.blkno < roundupDiv e 4096 := by
        refine Nat.lt_of_mul_lt_mul_left (a := 4096) ?_
        omega
      omega
    obtain ⟨x₂, heq₂, hr₂, hal₂, -⟩ := part_read h hc hr₁ hx₁ (Nat.pos_of_ne_zero ht)
      (by rw [Nat.zero_add]; exact (Nat.mod_lt e (by simp)).le) hlast
    refine ⟨x₂, ?_, hr₂, ?_⟩
    · rw [Op.bind_of_ok heq, if_pos ht]
      exact heq₂
    · rw [hal₂, ← Nat.add_assoc]
      exact he₁

theorem ioParts_read {e : ℕ} (h : Own R k.vol k.din) (hc : k.Covered X) (hae : a < e)
    (hin : roundupDiv e 4096 ≤ k.din.blocks) :
    ∃ x, ioParts false a e ⟨buf, 0, a / SFS_BLKSIZE, none⟩ k = some (.ok x, k) ∧
      Reading k a buf x ∧ a + x.alen = e := by
  have hr : Reading k a buf ⟨buf, 0, a / SFS_BLKSIZE, none⟩ := ⟨rfl, fun i => by simp⟩
  unfold ioParts SFS_BLKSIZE at *
  have hdiv := Nat.div_add_mod a 4096
  have hdive := Nat.div_add_mod e 4096
  have hmod : a % 4096 < 4096 := Nat.mod_lt a (by simp)
  have hle : a / 4096 ≤ e / 4096 := Nat.div_le_div_right hae.le
  by_cases h0 : a % 4096 = 0
  · rw [if_neg (by simpa using h0)]
    rw [h0, Nat.add_zero] at hdiv
    refine ioRest_read h hc hr hdiv.symm ?_ hin
    calc a + 0 + 4096 * (e / 4096 - a / 4096) + e % 4096
        = 4096 * (a / 4096 + (e / 4096 - a / 4096)) + e % 4096 := by
          rw [Nat.add_zero, Nat.mul_add, hdiv]
      _ = e := by rw [Nat.add_sub_cancel' hle, hdive]
  rw [if_pos h0]
  have hblk : a / 4096 < k.din.blocks := by
    unfold roundupDiv at hin
    omega
  by_cases hn : e / 4096 - a / 4096 = 0
  · rw [if_pos hn]
    obtain ⟨x, heq, hr', hal, -⟩ := part_read h hc hr hdiv.symm (Nat.sub_pos_of_lt hae) (by omega) hblk
    exact ⟨x, heq, hr', by rw [hal]; dsimp only; omega⟩
  · rw [if_neg hn]
    obtain ⟨x, heq, hr', hal, hbl⟩ := part_read h hc hr hdiv.symm (Nat.sub_pos_of_lt hmod)
      (Nat.add_sub_cancel' hmod.le).le hblk
    dsimp only at hal hbl
    obtain ⟨x', heq', hr'', hal'⟩ := ioRest_read h hc hr' (by omega)
      (n := e / 4096 - a / 4096 - 1) (e := e) (by omega) hin
    refine ⟨x', ?_, hr'', hal'⟩
    rw [Op.bind_of_ok heq]
    exact heq'

end Read

/-! ## Whole transfers -/

/-- What the code at `out` does: the file reaches at least up to `n`. -/
def Lk.grown (k : Lk) (n : ℕ) : Lk :=
  if k.din.info < n then ⟨k.vol, { k.din with info := n }, true⟩ else k

section Transfer

variable {R : ℕ → Prop} {k : Lk} {data buf : ℕ → UInt8}

theorem ioOut_eq (a : ℕ) (x : Xfer) : ioOut a x k = some (.ok x, k.grown (a + x.alen)) := by
  unfold ioOut Lk.grown
  rw [Op.bind_of_ok (rfl : Op.gets _ k = some (.ok k.din.info, k))]
  by_cases h : k.din.info < a + x.alen
  · rw [if_pos h, if_pos h]
    rfl
  · rw [if_neg h, if_neg h]
    rfl

@[simp] theorem Lk.grown_vol (n : ℕ) : (k.grown n).vol = k.vol := by
  unfold Lk.grown
  split <;> rfl

theorem Lk.grown_role (n : ℕ) : (k.grown n).role = k.role := by
  unfold Lk.grown
  split <;> rfl

theorem Lk.grown_byte (n : ℕ) : (k.grown n).byte = k.byte := by
  unfold Lk.grown
  split <;> rfl

@[simp] theorem Lk.grown_blocks (n : ℕ) : (k.grown n).din.blocks = k.din.blocks := by
  unfold Lk.grown
  split <;> rfl

theorem Lk.grown_info (n : ℕ) : (k.grown n).din.info = max k.din.info n := by
  unfold Lk.grown
  split
  · exact (Nat.max_eq_right (Nat.le_of_lt ‹_›)).symm
  · exact (Nat.max_eq_left (Nat.not_lt.mp ‹_›)).symm

theorem Lk.grown_filled {n : ℕ} (h : k.Filled) : (k.grown n).Filled := by
  intro j
  rw [Lk.grown_role, Lk.grown_blocks]
  exact h j

@[simp] theorem Lk.grown_type (n : ℕ) : (k.grown n).din.type = k.din.type := by
  unfold Lk.grown
  split <;> rfl

theorem Lk.grown_data (n : ℕ) : (k.grown n).data = k.data := by
  funext p
  unfold Lk.data
  rw [Lk.grown_role, Lk.grown_byte]

theorem Lk.grown_solid {X : Prop} {n : ℕ} (h : k.Solid X) : (k.grown n).Solid X := by
  refine ⟨⟨fun j hj => ?_, fun hx j hj => ?_⟩, fun j hj hj0 => ?_⟩
  · rw [Lk.grown_blocks] at hj
    rw [Lk.grown_role]
    exact h.leaf j hj
  · rw [Lk.grown_type] at hx
    rw [Lk.grown_role] at hj
    rw [Lk.grown_blocks]
    exact h.exact hx j hj
  · rw [Lk.grown_blocks] at hj
    rw [Lk.grown_role] at hj0
    rw [Lk.grown_role, Lk.grown_vol]
    exact h.blank j hj hj0

theorem Touch.grown {k' : Lk} (h : Touch R k k') (n : ℕ) : Touch R k (k'.grown n) := by
  unfold Lk.grown
  split
  · exact h.setInfo n k'.din.blocks true
  · exact h

end Transfer

end Ucore.Sfs
