import Ucore.Lib.Bytes
import Ucore.Mm.Layout

/-!
# The disk device

Reference model of `iobuf_move` (`kern/fs/iobuf.c`), `ide_read_secs` and `ide_write_secs`
(`kern/driver/ide.c`) and `disk0_io` (`kern/fs/devs/dev_disk0.c`), with `off_t` a signed and `size_t` an
unsigned word.  The drive has `size` sectors and works; a request for others is an error of the drive,
which is a panic, as is a failed assertion: `none`.

* `Disk0.block` — the bytes of a block of the device;
* `disk0Io_read`, `disk0Io_write` — a transfer of one block.
-/

namespace Ucore.Dev

open Bytes

def SECTSIZE : ℕ := 512

def DISK0_BLKSIZE : ℕ := 4096

def DISK0_BUFSIZE : ℕ := 4 * DISK0_BLKSIZE

def DISK0_BLK_NSECT : ℕ := DISK0_BLKSIZE / SECTSIZE

def MAX_NSECS : ℕ := 128

def MAX_DISK_NSECS : ℕ := 0x10000000

/-- The value of a 32-bit word as an `off_t`. -/
def offT (x : ℕ) : ℤ := if x % 2 ^ 32 < 2 ^ 31 then (x % 2 ^ 32 : ℕ) else (x % 2 ^ 32 : ℕ) - 2 ^ 32

/-- An `off_t` as a `uint32_t`. -/
def uint32 (x : ℤ) : ℕ := (x % 2 ^ 32).toNat

/-- `ide_devices[DISK0_DEV_NO].size`, the sectors of the drive, and `disk0_buffer`. -/
structure Disk0 where
  size : ℕ
  size_lt : size < 2 ^ 32
  sector : ℕ → ℕ → UInt8
  buffer : ℕ → UInt8

/-- `dev->d_blocks`, as `disk0_device_init` sets it. -/
def Disk0.dBlocks (d : Disk0) : ℕ := d.size / DISK0_BLK_NSECT

/-- `struct iobuf`: `mem` is the memory from the `io_base` of `iobuf_init` on. -/
structure Iobuf where
  mem : ℕ → UInt8
  base : ℕ
  offset : ℤ
  resid : ℕ

def iobufInit (mem : ℕ → UInt8) (len : ℕ) (offset : ℤ) : Iobuf := ⟨mem, 0, offset, len⟩

/-- `iobuf_skip`; its assertion holds for what `iobuf_move` has moved. -/
def Iobuf.skip (iob : Iobuf) (n : ℕ) : Iobuf :=
  { iob with base := iob.base + n, offset := iob.offset + n, resid := iob.resid - n }

/-- `iobuf_move` to `data`: what has been moved, and `data`. -/
def Iobuf.moveOut (iob : Iobuf) (data : ℕ → UInt8) (len : ℕ) : ℕ × (ℕ → UInt8) × Iobuf :=
  let alen := min iob.resid len
  (alen, splice data 0 alen fun i => iob.mem (iob.base + i), iob.skip alen)

/-- `iobuf_move` from `data`. -/
def Iobuf.moveIn (iob : Iobuf) (data : ℕ → UInt8) (len : ℕ) : ℕ × Iobuf :=
  let alen := min iob.resid len
  (alen, { iob.skip alen with mem := splice iob.mem iob.base alen data })

/-- The address that the drive puts together from `ISA_SECTOR`, `ISA_CYL_LO`, `ISA_CYL_HI` and the low
bits of `ISA_SDH`. -/
def lba (secno : ℕ) : ℕ :=
  secno % 256 + 2 ^ 8 * (secno / 2 ^ 8 % 256) + 2 ^ 16 * (secno / 2 ^ 16 % 256) +
    2 ^ 24 * (secno / 2 ^ 24 % 16)

theorem lba_eq {secno : ℕ} (h : secno < MAX_DISK_NSECS) : lba secno = secno := by
  unfold MAX_DISK_NSECS at h
  unfold lba
  omega

/-- The assertions of `ide_read_secs` and `ide_write_secs`, and what the drive accepts. -/
def Disk0.Accepts (d : Disk0) (secno nsecs : ℕ) : Prop :=
  nsecs ≤ MAX_NSECS ∧ secno < MAX_DISK_NSECS ∧ (secno + nsecs) % 2 ^ 32 ≤ MAX_DISK_NSECS ∧
    lba secno + nsecs ≤ d.size

instance (d : Disk0) (secno nsecs : ℕ) : Decidable (d.Accepts secno nsecs) :=
  inferInstanceAs (Decidable (_ ∧ _))

/-- `ide_read_secs` to `disk0_buffer`. -/
def ideReadSecs (d : Disk0) (secno nsecs : ℕ) : Option Disk0 :=
  if d.Accepts secno nsecs then
    some { d with
      buffer := splice d.buffer 0 (nsecs * SECTSIZE) fun i =>
        d.sector (lba secno + i / SECTSIZE) (i % SECTSIZE) }
  else none

/-- `ide_write_secs` from `disk0_buffer`. -/
def ideWriteSecs (d : Disk0) (secno nsecs : ℕ) : Option Disk0 :=
  if d.Accepts secno nsecs then
    some { d with
      sector := fun n j =>
        if lba secno ≤ n ∧ n < lba secno + nsecs then d.buffer ((n - lba secno) * SECTSIZE + j)
        else d.sector n j }
  else none

/-- `disk0_read_blks_nolock`. -/
def disk0ReadBlksNolock (d : Disk0) (blkno nblks : ℕ) : Option Disk0 :=
  ideReadSecs d (blkno * DISK0_BLK_NSECT % 2 ^ 32) (nblks * DISK0_BLK_NSECT % 2 ^ 32)

/-- `disk0_write_blks_nolock`. -/
def disk0WriteBlksNolock (d : Disk0) (blkno nblks : ℕ) : Option Disk0 :=
  ideWriteSecs d (blkno * DISK0_BLK_NSECT % 2 ^ 32) (nblks * DISK0_BLK_NSECT % 2 ^ 32)

/-- The loop of `disk0_io`. -/
def disk0Loop (write : Bool) (resid blkno : ℕ) (iob : Iobuf) (d : Disk0) : Option (Iobuf × Disk0) :=
  if resid = 0 then some (iob, d)
  else if write then
    let (copied, buffer, iob) := iob.moveOut d.buffer DISK0_BUFSIZE
    if copied ≠ 0 ∧ copied ≤ resid ∧ copied % DISK0_BLKSIZE = 0 then
      let nblks := copied / DISK0_BLKSIZE
      match disk0WriteBlksNolock { d with buffer := buffer } blkno nblks with
      | none => none
      | some d => disk0Loop write (resid - copied) (blkno + nblks) iob d
    else none
  else
    let alen := min DISK0_BUFSIZE resid
    let nblks := alen / DISK0_BLKSIZE
    match disk0ReadBlksNolock d blkno nblks with
    | none => none
    | some d =>
      let (copied, iob) := iob.moveIn d.buffer alen
      if copied = alen ∧ copied % DISK0_BLKSIZE = 0 then
        disk0Loop write (resid - copied) (blkno + nblks) iob d
      else none
termination_by resid
decreasing_by
  · omega
  · have hpos : 0 < DISK0_BUFSIZE := by decide
    have _halen : alen = min DISK0_BUFSIZE resid := rfl
    omega

/-- `disk0_io`. -/
def disk0Io (iob : Iobuf) (write : Bool) (d : Disk0) : Option (ℤ × Iobuf × Disk0) :=
  let blkno := uint32 (iob.offset.tdiv DISK0_BLKSIZE)
  let nblks := iob.resid / DISK0_BLKSIZE
  if iob.offset.tmod DISK0_BLKSIZE ≠ 0 ∨ iob.resid % DISK0_BLKSIZE ≠ 0 then some (-E_INVAL, iob, d)
  else if d.dBlocks < (blkno + nblks) % 2 ^ 32 then some (-E_INVAL, iob, d)
  else if nblks = 0 then some (0, iob, d)
  else (disk0Loop write iob.resid blkno iob d).map fun (iob, d) => (0, iob, d)

/-! ## A transfer of one block -/

/-- The bytes of a block of the device. -/
def Disk0.block (d : Disk0) (b : ℕ) : ℕ → UInt8 := fun i =>
  d.sector (DISK0_BLK_NSECT * b + i / SECTSIZE) (i % SECTSIZE)

section Block

variable {d : Disk0} {b : ℕ}

/-- `disk0_io` for one block, at an offset that is a multiple of the block size. -/
theorem disk0Io_eq (mem : ℕ → UInt8) (k : ℤ) (write : Bool) :
    disk0Io (iobufInit mem DISK0_BLKSIZE (4096 * k)) write d =
      if d.dBlocks < (uint32 k + 1) % 2 ^ 32 then
        some (-E_INVAL, iobufInit mem DISK0_BLKSIZE (4096 * k), d)
      else (disk0Loop write DISK0_BLKSIZE (uint32 k) (iobufInit mem DISK0_BLKSIZE (4096 * k)) d).map
        fun (iob, d) => (0, iob, d) := by
  have hdiv : (4096 * k).tdiv DISK0_BLKSIZE = k := Int.mul_tdiv_cancel_left k (by decide)
  have hmod : (4096 * k).tmod DISK0_BLKSIZE = 0 := Int.mul_tmod_right ..
  unfold disk0Io iobufInit
  dsimp only
  rw [hdiv, hmod, if_neg (by simp)]
  rfl

/-- A block that the device has lies below the limits of the driver. -/
theorem accepts_block (hlt : b < d.dBlocks) (hb : b < 2 ^ 19) : d.Accepts (8 * b) 8 := by
  unfold Disk0.dBlocks DISK0_BLK_NSECT DISK0_BLKSIZE SECTSIZE at hlt
  have hlba : lba (8 * b) = 8 * b := lba_eq (by unfold MAX_DISK_NSECS; omega)
  unfold Disk0.Accepts MAX_NSECS MAX_DISK_NSECS
  rw [hlba]
  omega

theorem sectno_eq (hb : b < 2 ^ 19) : b * DISK0_BLK_NSECT % 2 ^ 32 = 8 * b := by
  unfold DISK0_BLK_NSECT DISK0_BLKSIZE SECTSIZE
  omega

theorem uint32_cast (hb : b < 2 ^ 19) : uint32 b = b ∧ (uint32 b + 1) % 2 ^ 32 = b + 1 := by
  unfold uint32
  omega

theorem lba_block (hb : b < 2 ^ 19) : lba (8 * b) = 8 * b := by
  refine lba_eq ?_
  unfold MAX_DISK_NSECS
  omega

theorem disk0Loop_done (write : Bool) (blkno : ℕ) (iob : Iobuf) : disk0Loop write 0 blkno iob d = some (iob, d) := by
  rw [disk0Loop, if_pos rfl]

theorem moveIn_block (mem data : ℕ → UInt8) (offset : ℤ) :
    (iobufInit mem DISK0_BLKSIZE offset).moveIn data 4096 =
      (4096, ⟨splice mem 0 4096 data, 4096, offset + 4096, 0⟩) := by
  have hmin : min DISK0_BLKSIZE 4096 = 4096 := by decide
  have hzero : DISK0_BLKSIZE - 4096 = 0 := by decide
  simp [Iobuf.moveIn, iobufInit, Iobuf.skip, hmin, hzero]

theorem moveOut_block (mem data : ℕ → UInt8) (offset : ℤ) :
    (iobufInit mem DISK0_BLKSIZE offset).moveOut data DISK0_BUFSIZE =
      (4096, splice data 0 4096 mem, ⟨mem, 4096, offset + 4096, 0⟩) := by
  have hmin : min DISK0_BLKSIZE DISK0_BUFSIZE = 4096 := by decide
  have hzero : DISK0_BLKSIZE - 4096 = 0 := by decide
  simp [Iobuf.moveOut, iobufInit, Iobuf.skip, hmin, hzero]

/-- A read of a block. -/
theorem disk0Io_read (hlt : b < d.dBlocks) (hb : b < 2 ^ 19) (mem : ℕ → UInt8) :
    ∃ iob d', disk0Io (iobufInit mem DISK0_BLKSIZE (4096 * b)) false d = some (0, iob, d') ∧
      d'.size = d.size ∧ d'.sector = d.sector ∧ iob.mem = splice mem 0 4096 (d.block b) := by
  obtain ⟨hcast, hnext⟩ := uint32_cast hb
  have hread : disk0ReadBlksNolock d b 1 = some { d with buffer := splice d.buffer 0 4096 (d.block b) } := by
    unfold disk0ReadBlksNolock ideReadSecs
    rw [sectno_eq hb, show 1 * DISK0_BLK_NSECT % 2 ^ 32 = 8 by decide, if_pos (accepts_block hlt hb), lba_block hb]
    rfl
  rw [disk0Io_eq, hnext, if_neg (by omega), hcast, disk0Loop, if_neg (by decide), if_neg (by simp)]
  dsimp only
  rw [show min DISK0_BUFSIZE DISK0_BLKSIZE = 4096 by decide, show 4096 / DISK0_BLKSIZE = 1 by decide, hread]
  dsimp only
  rw [moveIn_block]
  dsimp only
  rw [if_pos (by decide), show DISK0_BLKSIZE - 4096 = 0 by decide, disk0Loop_done]
  refine ⟨_, _, rfl, rfl, rfl, ?_⟩
  funext i
  show splice mem 0 4096 (splice d.buffer 0 4096 (d.block b)) i = _
  by_cases hi : i < 4096
  · rw [splice_of_mem (Nat.zero_le i) (by omega), splice_of_mem (Nat.zero_le _) (by omega),
      splice_of_mem (Nat.zero_le i) (by omega)]
    rfl
  · rw [splice_of_not_mem (Or.inr (by omega)), splice_of_not_mem (Or.inr (by omega))]

/-- A write of a block. -/
theorem disk0Io_write (hlt : b < d.dBlocks) (hb : b < 2 ^ 19) (mem : ℕ → UInt8) :
    ∃ iob d', disk0Io (iobufInit mem DISK0_BLKSIZE (4096 * b)) true d = some (0, iob, d') ∧
      d'.size = d.size ∧ iob.mem = mem ∧
      ∀ c, ∀ i < 4096, d'.block c i = if c = b then mem i else d.block c i := by
  obtain ⟨hcast, hnext⟩ := uint32_cast hb
  have hwrite : ∀ d₁ : Disk0, d₁.size = d.size → disk0WriteBlksNolock d₁ b 1 = some { d₁ with
      sector := fun n j =>
        if 8 * b ≤ n ∧ n < 8 * b + 8 then d₁.buffer ((n - 8 * b) * SECTSIZE + j) else d₁.sector n j } := by
    intro d₁ hsize
    have hlt₁ : b < d₁.dBlocks := by
      unfold Disk0.dBlocks
      rw [hsize]
      exact hlt
    unfold disk0WriteBlksNolock ideWriteSecs
    rw [sectno_eq hb, show 1 * DISK0_BLK_NSECT % 2 ^ 32 = 8 by decide, if_pos (accepts_block hlt₁ hb), lba_block hb]
  rw [disk0Io_eq, hnext, if_neg (by omega), hcast, disk0Loop, if_neg (by decide), if_pos rfl]
  rw [moveOut_block]
  dsimp only
  rw [if_pos (by decide), show 4096 / DISK0_BLKSIZE = 1 by decide]
  rw [hwrite { d with buffer := splice d.buffer 0 4096 mem } rfl]
  dsimp only
  rw [show DISK0_BLKSIZE - 4096 = 0 by decide, disk0Loop_done]
  refine ⟨_, _, rfl, rfl, rfl, fun c i hi => ?_⟩
  unfold Disk0.block
  dsimp only
  have hblk : DISK0_BLK_NSECT = 8 := by decide
  have hsect : SECTSIZE = 512 := rfl
  rw [hblk, hsect]
  by_cases hc : c = b
  · subst hc
    rw [if_pos rfl, if_pos (by omega), splice_of_mem (Nat.zero_le _) (by omega)]
    congr 1
    omega
  · rw [if_neg hc, if_neg (by omega)]

/-- A block of which the offset is negative: `disk0_io` refuses it, or a driver's assertion fails. -/
theorem disk0Io_far (hge : 2 ^ 19 ≤ b) (hlt : b < 2 ^ 20) (mem : ℕ → UInt8) (write : Bool) :
    disk0Io (iobufInit mem DISK0_BLKSIZE (4096 * (b - 2 ^ 20))) write d = none ∨
    ∃ iob, disk0Io (iobufInit mem DISK0_BLKSIZE (4096 * (b - 2 ^ 20))) write d = some (-E_INVAL, iob, d) := by
  have hsize : d.dBlocks < 2 ^ 29 := by
    have hlt := d.size_lt
    unfold Disk0.dBlocks DISK0_BLK_NSECT DISK0_BLKSIZE SECTSIZE
    omega
  have hcast : uint32 (b - 2 ^ 20) = 2 ^ 32 - 2 ^ 20 + b := by
    unfold uint32
    omega
  rw [disk0Io_eq, hcast]
  by_cases hlast : b = 2 ^ 20 - 1
  · -- the sum of block and count is 0, and the sector number is beyond what a drive can address
    refine Or.inl ?_
    have hsect : (2 ^ 32 - 2 ^ 20 + b) * DISK0_BLK_NSECT % 2 ^ 32 = 2 ^ 32 - 8 := by
      unfold DISK0_BLK_NSECT DISK0_BLKSIZE SECTSIZE
      omega
    have hno : ∀ d : Disk0, ¬ d.Accepts (2 ^ 32 - 8) (1 * DISK0_BLK_NSECT % 2 ^ 32) := by
      rintro d ⟨-, hsec, -⟩
      unfold MAX_DISK_NSECS at hsec
      omega
    rw [if_neg (by omega), disk0Loop, if_neg (by decide)]
    cases write with
    | true =>
      rw [if_pos rfl, moveOut_block]
      dsimp only
      rw [if_pos (by decide), show 4096 / DISK0_BLKSIZE = 1 by decide]
      unfold disk0WriteBlksNolock ideWriteSecs
      rw [hsect, if_neg (hno _)]
      rfl
    | false =>
      rw [if_neg (by simp)]
      dsimp only
      rw [show min DISK0_BUFSIZE DISK0_BLKSIZE = 4096 by decide, show 4096 / DISK0_BLKSIZE = 1 by decide]
      unfold disk0ReadBlksNolock ideReadSecs
      rw [hsect, if_neg (hno _)]
      rfl
  · exact Or.inr ⟨_, if_pos (by omega)⟩

end Block

/-! ## The drive stays the same -/

theorem ideReadSecs_size {d d' : Disk0} {secno nsecs : ℕ} (h : ideReadSecs d secno nsecs = some d') :
    d'.size = d.size := by
  unfold ideReadSecs at h
  split at h
  · cases h
    rfl
  · cases h

theorem ideWriteSecs_size {d d' : Disk0} {secno nsecs : ℕ} (h : ideWriteSecs d secno nsecs = some d') :
    d'.size = d.size := by
  unfold ideWriteSecs at h
  split at h
  · cases h
    rfl
  · cases h

theorem disk0ReadBlksNolock_size {d d' : Disk0} {blkno nblks : ℕ}
    (h : disk0ReadBlksNolock d blkno nblks = some d') : d'.size = d.size := ideReadSecs_size h

theorem disk0WriteBlksNolock_size {d d' : Disk0} {blkno nblks : ℕ}
    (h : disk0WriteBlksNolock d blkno nblks = some d') : d'.size = d.size := ideWriteSecs_size h

theorem disk0Loop_size (write : Bool) (resid blkno : ℕ) (iob : Iobuf) (d : Disk0) {iob' : Iobuf} {d' : Disk0}
    (h : disk0Loop write resid blkno iob d = some (iob', d')) : d'.size = d.size := by
  fun_induction disk0Loop write resid blkno iob d with
  | case1 =>
    cases h
    rfl
  | case2 => cases h
  | case3 =>
    rename_i hwrite ih
    have hsize := disk0WriteBlksNolock_size hwrite
    exact (ih h).trans hsize
  | case4 => cases h
  | case5 => cases h
  | case6 =>
    rename_i hread _ _ _ _ ih
    have hsize := disk0ReadBlksNolock_size hread
    exact (ih h).trans hsize
  | case7 => cases h

theorem disk0Io_size {write : Bool} {iob iob' : Iobuf} {d d' : Disk0} {ret : ℤ}
    (h : disk0Io iob write d = some (ret, iob', d')) : d'.size = d.size := by
  unfold disk0Io at h
  dsimp only at h
  split at h
  · cases h
    rfl
  split at h
  · cases h
    rfl
  split at h
  · cases h
    rfl
  · obtain ⟨⟨iob₁, d₁⟩, hloop, heq⟩ := Option.map_eq_some_iff.mp h
    cases heq
    exact disk0Loop_size _ _ _ _ _ hloop

end Ucore.Dev
