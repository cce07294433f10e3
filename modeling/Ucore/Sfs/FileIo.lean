import Mathlib.Order.Interval.Finset.Nat
import Ucore.Sfs.IoSpec
import Ucore.Sfs.Space

/-!
# Files as byte arrays

`sfs_io_nolock` on one of several files of a volume reads and writes the bytes of that file.

* `file_io_refines` — a write changes the bytes it is given and the size of the file, a read returns
  the bytes, and no other file changes.
-/

namespace Ucore.Sfs

open Bytes

/-- Byte `p` of file `i`. -/
def Fs.byte (fs : Fs) (i p : ℕ) : UInt8 := fs.vol.disk (fs.role i (.leaf (p / 4096))) (p % 4096)

section Equations

variable {k : Lk} {buf : ℕ → UInt8} {a n : ℕ}

theorem bmod_of_lt (h : a + n < 2 ^ 31) : Int.bmod ((a : ℤ) + n) (2 ^ 32) = (a : ℤ) + n := by
  rw [Int.bmod_def, Int.emod_eq_of_lt (by omega) (by omega), if_pos (by omega)]

theorem ioNolock_write_eq (htype : k.din.type ≠ SFS_TYPE_DIR) (ha : a < SFS_MAX_FILE_SIZE)
    (hn : 0 < n) (h : a + n < 2 ^ 31) :
    ioNolock true buf a n k = ioRun true buf a (min (a + n) SFS_MAX_FILE_SIZE) k := by
  unfold ioNolock
  rw [Op.bind_of_ok (rfl : Op.gets Lk.din k = some (.ok k.din, k)),
    Op.bind_of_ok (if_pos htype : Op.assert (k.din.type ≠ SFS_TYPE_DIR) k = some (.ok (), k)),
    bmod_of_lt h, if_neg (by omega), if_neg (by omega), if_pos rfl, Int.toNat_natCast,
    show ((a : ℤ) + n).toNat = a + n by omega]

theorem ioNolock_read_eq (htype : k.din.type ≠ SFS_TYPE_DIR) (ha : a < SFS_MAX_FILE_SIZE)
    (hn : 0 < n) (h : a + n < 2 ^ 31) (hsize : a < k.din.info) : ioNolock false buf a n k =
      ioRun false buf a (min (min (a + n) SFS_MAX_FILE_SIZE) k.din.info) k := by
  unfold ioNolock
  rw [Op.bind_of_ok (rfl : Op.gets Lk.din k = some (.ok k.din, k)),
    Op.bind_of_ok (if_pos htype : Op.assert (k.din.type ≠ SFS_TYPE_DIR) k = some (.ok (), k)),
    bmod_of_lt h, if_neg (by omega), if_neg (by omega), if_neg (by simp), Int.toNat_natCast,
    if_neg (by omega), show ((a : ℤ) + n).toNat = a + n by omega]

/-- Nothing is asked for, or there is nothing to read. -/
theorem ioNolock_none (write : Bool) (htype : k.din.type ≠ SFS_TYPE_DIR)
    (ha : a < SFS_MAX_FILE_SIZE) (h : a + n < 2 ^ 31)
    (hnone : n = 0 ∨ (write = false ∧ k.din.info ≤ a)) :
    ioNolock write buf a n k = some (.ok ⟨buf, 0, 0, none⟩, k) := by
  unfold ioNolock
  rw [Op.bind_of_ok (rfl : Op.gets Lk.din k = some (.ok k.din, k)),
    Op.bind_of_ok (if_pos htype : Op.assert (k.din.type ≠ SFS_TYPE_DIR) k = some (.ok (), k)),
    bmod_of_lt h, if_neg (by omega)]
  by_cases hn : n = 0
  · rw [if_pos (by omega)]
    rfl
  · rcases hnone with h0 | ⟨rfl, hle⟩
    · exact absurd h0 hn
    · rw [if_neg (by omega), if_neg (by simp), Int.toNat_natCast, if_pos hle]
      rfl

end Equations

section Refinement

variable {fs : Fs} {I : ℕ → Prop} {i : ℕ} {s : Sin}

/-- What a write of `n` bytes at `o` to file `i` must do. -/
structure WriteOk (fs : Fs) (I : ℕ → Prop) (i : ℕ) (data : ℕ → UInt8) (o n : ℕ) (fs' : Fs) : Prop where
  space : Space fs' I
  inside : ∀ p, o ≤ p → p < o + n → fs'.byte i p = data (p - o)
  outside : ∀ p, p < (fs.din i).info → ¬ (o ≤ p ∧ p < o + n) → fs'.byte i p = fs.byte i p
  size : (fs'.din i).info = max (fs.din i).info (o + n)
  blocks : (fs'.din i).blocks = roundupDiv (fs'.din i).info SFS_BLKSIZE
  others : ∀ j, I j → j ≠ i → fs'.din j = fs.din j ∧
    ∀ p, p < SFS_BLKSIZE * (fs.din j).blocks → fs'.byte j p = fs.byte j p

theorem roundupDiv_mono {a b n : ℕ} (h : a ≤ b) : roundupDiv a n ≤ roundupDiv b n :=
  Nat.div_le_div_right (by omega)

theorem roundupDiv_max {a b n : ℕ} : roundupDiv (max a b) n = max (roundupDiv a n) (roundupDiv b n) := by
  rcases Nat.le_total a b with h | h
  · rw [Nat.max_eq_right h, Nat.max_eq_right (roundupDiv_mono h)]
  · rw [Nat.max_eq_left h, Nat.max_eq_left (roundupDiv_mono h)]

/-- A byte below the size lies in a block of the file. -/
theorem lt_of_lt_size {p size blocks : ℕ} (hp : p < size) (hb : blocks = roundupDiv size 4096) :
    p / 4096 < blocks := by
  unfold roundupDiv at hb
  omega

theorem Space.byte_other {k : Lk} (h : Space fs I) (ht : Local (fs.rest I i) (fs.lk s) k) {j p : ℕ}
    (hj : I j) (hne : j ≠ i) (hp : p / 4096 < (fs.din j).blocks) :
    (fs.put i s k).byte j p = fs.byte j p := by
  have h0 := (h.filled j hj (p / 4096)).mpr hp
  unfold Fs.byte
  rw [h.put_role ht s hj hne]
  show k.vol.disk _ _ = _
  rw [ht.rest _ (.inr (.inr ⟨j, _, hj, hne, h0, rfl⟩)) (h.data j _ hj h0).2]
  rfl

theorem Fs.byte_cached (hs : fs.cache i = some s) (p : ℕ) : fs.byte i p = (fs.lk s).byte p := by
  unfold Fs.byte Fs.role
  rw [Fs.din_cached hs]
  rfl

theorem Fs.put_byte {k : Lk} (p : ℕ) : (fs.put i s k).byte i p = k.byte p := by
  unfold Fs.byte
  rw [Fs.put_role_self]
  rfl

/-- The write has gone through. -/
theorem Space.writeOk {data : ℕ → UInt8} {o n : ℕ} {k' : Lk} (h : Space fs I)
    (hs : fs.cache i = some s) (hsize : s.din.blocks = roundupDiv s.din.info SFS_BLKSIZE)
    (hn : 0 < n) (hmax : o + n ≤ SFS_MAX_FILE_SIZE)
    (hw : Written (fs.rest I i) data (fs.lk s) o (o + n) k') :
    WriteOk fs I i data o n (fs.put i s (k'.grown (o + n))) := by
  have hinfo : k'.din.info = s.din.info := hw.info
  have hblocks : k'.din.blocks = max s.din.blocks (roundupDiv (o + n) 4096) := by
    rw [hw.dinBlocks, if_pos (by omega)]
    rfl
  have htouch := hw.toTouch.grown (o + n)
  have hfit : (k'.grown (o + n)).din.info < 2 ^ 32 := by
    have := (h.fits_lk hs).info
    unfold SFS_MAX_FILE_SIZE at hmax
    rw [Lk.grown_info]
    omega
  have hold := h.filled_lk hs
  have hnew : k'.Filled := (hw.solid False hold.solid).filled nofun
  have hfilled := Lk.grown_filled (n := o + n) hnew
  have hbyte : ∀ p, p < 4096 * k'.din.blocks → k'.byte p = k'.data p := fun p hp =>
    ((hnew.covered (X := False)).data hp).symm
  unfold SFS_BLKSIZE at hsize
  refine ⟨h.put hs htouch.toLocal hfilled (htouch.fits (hfilled.covered (X := False)) (h.fits_lk hs) hfit) s,
    fun p hp hp' => ?_,
    fun p hp hout => ?_, ?_, ?_, fun j hj hne => ⟨h.put_din htouch.toLocal s hj hne, fun p hp => ?_⟩⟩
  · have hin : p < 4096 * k'.din.blocks := by
      unfold roundupDiv at hblocks
      omega
    rw [Fs.put_byte, Lk.grown_byte, hbyte p hin, hw.data p, if_pos ⟨hp, hp'⟩]
  · rw [Fs.din_cached hs] at hp
    have hin : p < 4096 * (fs.lk s).din.blocks := by
      have := lt_of_lt_size hp hsize
      show p < 4096 * s.din.blocks
      omega
    have hin' : p < 4096 * k'.din.blocks := by
      have hle : (fs.lk s).din.blocks ≤ k'.din.blocks := by
        rw [hblocks]
        exact Nat.le_max_left ..
      omega
    rw [Fs.put_byte, Lk.grown_byte, hbyte p hin', hw.data p, if_neg hout, (hold.covered (X := False)).data hin,
      Fs.byte_cached hs]
  · rw [Fs.put_din_self, Lk.grown_info, Fs.din_cached hs, hinfo]
  · rw [Fs.put_din_self, Lk.grown_blocks, Lk.grown_info, hinfo, hblocks]
    unfold SFS_BLKSIZE
    rw [roundupDiv_max, hsize]
  · unfold SFS_BLKSIZE at hp
    exact h.byte_other htouch.toLocal hj hne (by omega)

/-- `sfs_io_nolock` on a file of a volume whose space is owned as it should be: with enough free blocks
a write returns 0 with all of its bytes written, and a read returns what is there. -/
theorem file_io_refines (h : Space fs I)
    (hfiles : ∀ j, I j → (fs.din j).type = SFS_TYPE_FILE → (fs.din j).info ≤ SFS_MAX_FILE_SIZE ∧
      (fs.din j).blocks = roundupDiv (fs.din j).info SFS_BLKSIZE)
    (hs : fs.cache i = some s) (htype : s.din.type = SFS_TYPE_FILE) :
    (∀ (data : ℕ → UInt8) (o n : ℕ), o ≤ s.din.info → o < SFS_MAX_FILE_SIZE →
      o + n ≤ SFS_MAX_FILE_SIZE → (fs.lk s).needs (roundupDiv (o + n) SFS_BLKSIZE) ≤ fs.vol.unused →
      ∃ x fs', onSin i (ioNolock true data o n) fs = some (.ok x, fs') ∧ x.ret = none ∧ x.alen = n ∧
        WriteOk fs I i data o n fs') ∧
    (∀ (buf : ℕ → UInt8) (o n : ℕ), o < SFS_MAX_FILE_SIZE → o + n < 2 ^ 31 →
      ∃ x, onSin i (ioNolock false buf o n) fs = some (.ok x, fs) ∧ x.ret = none ∧
        x.alen = min (o + n) s.din.info - o ∧ (∀ p, p < x.alen → x.buf p = fs.byte i (o + p)) ∧
        ∀ p, x.alen ≤ p → x.buf p = buf p) := by
  have hi : I i := h.cached i (by rw [hs]; simp)
  obtain ⟨hlimit, hsize⟩ : s.din.info ≤ SFS_MAX_FILE_SIZE ∧
      s.din.blocks = roundupDiv s.din.info SFS_BLKSIZE := by
    have := hfiles i hi (by rw [Fs.din_cached hs]; exact htype)
    rwa [Fs.din_cached hs] at this
  have hdir : (fs.lk s).din.type ≠ SFS_TYPE_DIR := by
    show s.din.type ≠ SFS_TYPE_DIR
    rw [htype]
    decide
  have hown := h.own_lk hs
  have hfilled := h.filled_lk hs
  have hmaxleaf : SFS_MAX_FILE_SIZE ≤ 4096 * NLEAF := by
    unfold SFS_MAX_FILE_SIZE NLEAF
    omega
  refine ⟨fun data o n ho hmax hon hneeds => ?_, fun buf o n hmax hon => ?_⟩
  · have hlt : o + n < 2 ^ 31 := by
      unfold SFS_MAX_FILE_SIZE at hon
      omega
    by_cases hn : n = 0
    · refine ⟨⟨data, 0, 0, none⟩, fs, ?_, rfl, hn.symm, ⟨h, fun p hp hp' => by omega, fun _ _ _ => rfl, ?_, ?_,
        fun _ _ _ => ⟨rfl, fun _ _ => rfl⟩⟩⟩
      · rw [onSin_of_eq hs (ioNolock_none true hdir hmax hlt (.inl hn)), Fs.put_lk hs]
      · rw [Fs.din_cached hs]
        omega
      · rw [Fs.din_cached hs]
        exact hsize
    · have heq : ioNolock true data o n (fs.lk s) = ioRun true data o (min (o + n) SFS_MAX_FILE_SIZE) (fs.lk s) :=
        ioNolock_write_eq hdir hmax (Nat.pos_of_ne_zero hn) hlt
      rw [Nat.min_eq_left hon] at heq
      have hpos : 0 < n := Nat.pos_of_ne_zero hn
      have hstart : o / 4096 ≤ (fs.lk s).din.blocks := by
        show o / 4096 ≤ s.din.blocks
        rw [hsize]
        unfold roundupDiv SFS_BLKSIZE
        omega
      obtain ⟨r, k', hrun, x, rfl, hend⟩ := Op.wp_iff.mp (ioParts_write (X := False) (e := o + n)
        hown hfilled.solid hstart (by omega) (by omega))
      have hgo : o + x.alen = o + n ∧ Going (fs.rest I i) data (fs.lk s) o x k' := by
        rcases hend with hgo | hst
        · exact hgo
        · exact absurd hneeds (Nat.not_le.mpr hst.short)
      refine ⟨x, fs.put i s (k'.grown (o + x.alen)), onSin_of_eq hs ?_, hgo.2.ret, by omega, ?_⟩
      · rw [heq]
        unfold ioRun
        rw [Op.bind_of_ok hrun, ioOut_eq]
      · rw [hgo.1]
        have hw := hgo.2.written
        rw [hgo.1] at hw
        exact h.writeOk hs hsize hpos hon hw
  · by_cases hnone : n = 0 ∨ s.din.info ≤ o
    · refine ⟨⟨buf, 0, 0, none⟩, ?_, rfl, by dsimp only; omega, fun p hp => absurd hp (Nat.not_lt_zero p),
      fun _ _ => rfl⟩
      rw [onSin_of_eq hs (ioNolock_none false hdir hmax hon (hnone.imp_right fun hle => ⟨rfl, hle⟩)),
        Fs.put_lk hs]
    · have hlt : o < (fs.lk s).din.info := by
        show o < s.din.info
        omega
      have heq : ioNolock false buf o n (fs.lk s) =
          ioRun false buf o (min (min (o + n) SFS_MAX_FILE_SIZE) (fs.lk s).din.info) (fs.lk s) :=
        ioNolock_read_eq hdir hmax (by omega) hon hlt
      have hclip : min (min (o + n) SFS_MAX_FILE_SIZE) (fs.lk s).din.info = min (o + n) s.din.info := by
        show min (min (o + n) SFS_MAX_FILE_SIZE) s.din.info = _
        omega
      rw [hclip] at heq
      have hin : roundupDiv (min (o + n) s.din.info) 4096 ≤ (fs.lk s).din.blocks := by
        show _ ≤ s.din.blocks
        rw [hsize]
        exact roundupDiv_mono (Nat.min_le_right _ _)
      obtain ⟨x, hrun, hr, hal⟩ : ∃ x, ioParts false o (min (o + n) s.din.info)
          ⟨buf, 0, o / SFS_BLKSIZE, none⟩ (fs.lk s) = some (.ok x, fs.lk s) ∧ Reading (fs.lk s) o buf x ∧
            o + x.alen = min (o + n) s.din.info :=
        ioParts_read (X := False) hown hfilled.covered (by omega) hin
      have hsame : (fs.lk s).grown (o + x.alen) = fs.lk s := by
        unfold Lk.grown
        rw [if_neg]
        show ¬ s.din.info < o + x.alen
        omega
      refine ⟨x, ?_, hr.ret, by omega, fun p hp => ?_, fun p hp => ?_⟩
      · rw [onSin_of_eq hs (heq.trans ?_), Fs.put_lk hs]
        unfold ioRun
        rw [Op.bind_of_ok hrun, ioOut_eq, hsame]
      · rw [hr.buf p, if_pos hp, Fs.byte_cached hs]
      · rw [hr.buf p, if_neg (Nat.not_lt.mpr hp)]

/-- A volume of eight blocks with an empty root directory and an empty file in block 3. -/
def smallVol : Vol := ⟨8, 4, false, fun b => decide (4 ≤ b ∧ b < 8), fun _ _ => 0⟩

def emptyInode (type nlinks : ℕ) : DiskInode := ⟨0, 1, type, nlinks, 0, fun _ => 0, 0, 0⟩

def smallFs : Fs where
  vol := smallVol
  info := fun _ => 0
  cache := fun i =>
    if i = 1 then some ⟨emptyInode SFS_TYPE_DIR 2, false, false, 1⟩
    else if i = 3 then some ⟨emptyInode SFS_TYPE_FILE 1, false, false, 1⟩
    else none

theorem emptyInode_role (type nlinks : ℕ) (r : Role) :
    roleAt smallVol.disk (emptyInode type nlinks) r = 0 := roleAt_empty (fun _ => rfl) rfl rfl r

theorem emptyInode_fits {type nlinks : ℕ} (ht : type < 2 ^ 16) (hn : nlinks < 2 ^ 16) :
    (emptyInode type nlinks).Fits := by
  have h0 : 0 < 2 ^ 32 := Nat.two_pow_pos 32
  have h1 : 1 < 2 ^ 32 := by omega
  exact ⟨h0, h1, ht, hn, h0, fun _ => h0, fun _ _ => rfl, h0, h0⟩

theorem smallFs_din {i : ℕ} (hi : i = 1 ∨ i = 3) :
    ∃ type nlinks, type < 2 ^ 16 ∧ nlinks < 2 ^ 16 ∧ smallFs.din i = emptyInode type nlinks := by
  rcases hi with rfl | rfl
  · exact ⟨2, 2, by decide, by decide, rfl⟩
  · exact ⟨1, 1, by decide, by decide, rfl⟩

theorem smallFs_role {i : ℕ} (hi : i = 1 ∨ i = 3) (r : Role) : smallFs.role i r = 0 := by
  obtain ⟨type, nlinks, -, -, he⟩ := smallFs_din hi
  unfold Fs.role
  rw [he]
  exact emptyInode_role type nlinks r

theorem smallVol_ok : smallVol.Ok := by
  refine ⟨fun b hb => ?_, ?_⟩
  · have : 4 ≤ b ∧ b < 8 := of_decide_eq_true hb
    exact ⟨by omega, this.2⟩
  · have hset : {b | smallVol.freemap b = true} = ↑(Finset.Ico 4 8) := by
      ext b
      simp [smallVol]
    show 4 = Set.ncard {b | smallVol.freemap b = true}
    rw [hset, Set.ncard_coe_finset]
    rfl

theorem smallFs_space : Space smallFs (fun i => i = 1 ∨ i = 3) := by
  have hmeta : ∀ b, smallFs.vol.isMeta b ↔ b = 0 ∨ b = 2 := by
    intro b
    show b = 0 ∨ (2 ≤ b ∧ b < 3) ↔ _
    omega
  refine ⟨smallVol_ok, by decide, fun i hi => ?_, fun i hi => ?_, fun i hi => ?_,
    fun i _ r _ hi _ h0 _ => absurd (smallFs_role hi r) h0,
    fun i _ r hi _ h0 => absurd (smallFs_role hi r) h0,
    fun i r hi h0 => absurd (smallFs_role hi r) h0, fun b hb => ?_, fun i hi j => ?_⟩
  · rw [hmeta]
    have hlt : smallFs.vol.blocks = 8 := rfl
    omega
  · by_contra hne
    refine hi ?_
    show ite _ _ _ = _
    rw [if_neg (by tauto), if_neg (by tauto)]
  · obtain ⟨type, nlinks, ht, hn, he⟩ := smallFs_din hi
    rw [he]
    exact emptyInode_fits ht hn
  · have hlt : b < 8 := hb
    have hfree : smallFs.vol.freemap b = false ↔ ¬ (4 ≤ b ∧ b < 8) := decide_eq_false_iff_not
    rw [hfree, hmeta]
    refine ⟨fun hf => ?_, ?_⟩
    · omega
    · rintro (hm | hI | ⟨i, r, hi, h0, -⟩)
      · omega
      · omega
      · exact absurd (smallFs_role hi r) h0
  · obtain ⟨type, nlinks, -, -, he⟩ := smallFs_din hi
    rw [smallFs_role hi, he]
    simp [emptyInode]

/-- Two blocks written to the empty file of a small volume. -/
theorem file_io_refines_two_blocks : ∃ x fs',
    onSin 3 (ioNolock true (fun _ => 7) 0 5000) smallFs = some (.ok x, fs') ∧ x.ret = none ∧
      x.alen = 5000 ∧ WriteOk smallFs (fun i => i = 1 ∨ i = 3) 3 (fun _ => 7) 0 5000 fs' := by
  refine (file_io_refines (i := 3) smallFs_space (fun j hj ht => ?_) rfl rfl).1 (fun _ => 7) 0 5000
    (Nat.zero_le _) (by decide) (by decide) ?_
  · obtain ⟨type, nlinks, -, -, he⟩ := smallFs_din hj
    rw [he]
    refine ⟨Nat.zero_le _, ?_⟩
    show 0 = roundupDiv 0 4096
    decide
  · show (smallFs.lk _).needs (roundupDiv 5000 4096) ≤ 4
    have hup : roundupDiv 5000 4096 = 2 := by decide
    have hmid : roundupDiv (2 - 1036) 1024 = 0 := by decide
    unfold Lk.needs
    rw [hup, hmid, if_neg (by omega), if_neg (by omega), Finset.range_zero, Finset.sum_empty]
    exact Nat.le_of_ble_eq_true rfl

end Refinement

end Ucore.Sfs
