import Mathlib.Logic.Function.Basic
import Ucore.Lib.Bytes
import Ucore.Lib.Op

/-!
# The SFS volume

Reference model of the mounted volume of `kern/fs/sfs`: the free-block bitmap (`bitmap.c`), the
blocks of the device and the transfers of `sfs_io.c`, `sfs_block_alloc` and `sfs_block_free`, and the
on-disk structures of `sfs.h` as bytes.  Device transfers and `kmalloc` succeed; what can run out are
the free blocks.
-/

namespace Ucore.Sfs

open Bytes

def SFS_BLKSIZE : ℕ := 4096

def SFS_NDIRECT : ℕ := 12

def SFS_BLK_NENTRY : ℕ := 1024

def SFS_MAX_FNAME_LEN : ℕ := 255

def SFS_MAX_FILE_SIZE : ℕ := 1024 * 1024 * 128

def SFS_BLKN_SUPER : ℕ := 0

def SFS_BLKN_ROOT : ℕ := 1

def SFS_BLKN_FREEMAP : ℕ := 2

def SFS_BLKBITS : ℕ := 32768

def SFS_TYPE_FILE : ℕ := 1

def SFS_TYPE_DIR : ℕ := 2

def SFS_TYPE_LINK : ℕ := 3

/-- The error codes of `error.h` that SFS returns. -/
inductive Err where
  | inval
  | noMem
  | tooBig
  | busy
  | noEnt
  | isDir
  | notDir
  | exists
  | notEmpty
  deriving DecidableEq, Repr

/-- The bytes of a block, by offset. -/
abbrev Block := ℕ → UInt8

/-- `ROUNDUP_DIV`. -/
def roundupDiv (a n : ℕ) : ℕ := (a + n - 1) / n

/-- What `struct sfs_fs` keeps of the volume, and the device. -/
structure Vol where
  /-- `super.blocks`. -/
  blocks : ℕ
  /-- `super.unused_blocks`. -/
  unused : ℕ
  superDirty : Bool
  /-- A set bit is a free block. -/
  freemap : ℕ → Bool
  disk : ℕ → Block

namespace Vol

/-- `sfs_freemap_bits`. -/
@[irreducible] def freemapBits (v : Vol) : ℕ := roundupDiv v.blocks SFS_BLKBITS * SFS_BLKBITS

end Vol

/-- The scan of `bitmap_alloc` over `n` bits from bit `i` on. -/
def firstSet (map : ℕ → Bool) : ℕ → ℕ → Option ℕ
  | _, 0 => none
  | i, n + 1 => if map i then some i else firstSet map (i + 1) n

/-- The outcome of `bitmap_alloc` once the scan has ended. -/
def bitmapFound : Option ℕ → Op Vol Err ℕ
  | none => Op.throw .noMem
  | some b => do
    Op.modify fun v => { v with freemap := Function.update v.freemap b false }
    pure b

def bitmapAlloc : Op Vol Err ℕ := do
  bitmapFound (← Op.gets fun v => firstSet v.freemap 0 v.freemapBits)

def bitmapFree (b : ℕ) : Op Vol Err Unit := fun v =>
  if b < v.freemapBits ∧ v.freemap b = false then
    some (.ok (), { v with freemap := Function.update v.freemap b true })
  else none

/-- `sfs_block_inuse`, asserted: it panics outside of the volume. -/
def assertInuse (b : ℕ) : Op Vol Err Unit := fun v =>
  if b ≠ 0 ∧ b < v.blocks ∧ v.freemap b = false then some (.ok (), v) else none

/-- `sfs_rbuf`: `len` bytes at `off` in the block; `sfs_rblock` is the case of a whole block. -/
def rbuf (len b off : ℕ) : Op Vol Err (ℕ → UInt8) := fun v =>
  if off < SFS_BLKSIZE ∧ off + len ≤ SFS_BLKSIZE ∧ b ≠ 0 ∧ b < v.blocks then
    some (.ok fun i => v.disk b (off + i), v)
  else none

/-- `sfs_wbuf`: `len` bytes of `data` at `off` in the block; `sfs_wblock` is the case of a whole
block. -/
def wbuf (data : ℕ → UInt8) (len b off : ℕ) : Op Vol Err Unit := fun v =>
  if off < SFS_BLKSIZE ∧ off + len ≤ SFS_BLKSIZE ∧ b ≠ 0 ∧ b < v.blocks then
    some (.ok (), { v with disk := Function.update v.disk b (splice (v.disk b) off len data) })
  else none

def clearBlock (b : ℕ) : Op Vol Err Unit := fun v =>
  if b ≠ 0 ∧ b < v.blocks then
    some (.ok (), { v with disk := Function.update v.disk b fun _ => 0 })
  else none

def blockAlloc : Op Vol Err ℕ := do
  let b ← bitmapAlloc
  Op.assert (0 < (← Op.gets Vol.unused))
  Op.modify fun v => { v with unused := v.unused - 1, superDirty := true }
  assertInuse b
  clearBlock b
  pure b

def blockFree (b : ℕ) : Op Vol Err Unit := do
  assertInuse b
  bitmapFree b
  Op.modify fun v => { v with unused := v.unused + 1, superDirty := true }

/-- `struct sfs_disk_inode`; `info` is the word that `fileinfo.size` and `dirinfo.slots` share. -/
structure DiskInode where
  info : ℕ
  parent : ℕ
  type : ℕ
  nlinks : ℕ
  blocks : ℕ
  direct : ℕ → ℕ
  indirect : ℕ
  dbIndirect : ℕ

namespace DiskInode

/-- The 18 words of an inode on disk. -/
def words (d : DiskInode) (i : ℕ) : ℕ :=
  if i = 0 then d.info
  else if i = 1 then d.parent
  else if i = 2 then d.type % 65536 + 65536 * (d.nlinks % 65536)
  else if i = 3 then d.blocks
  else if i < 16 then d.direct (i - 4)
  else if i = 16 then d.indirect
  else d.dbIndirect

def ofBlock (b : Block) : DiskInode where
  info := word b 0
  parent := word b 1
  type := word b 2 % 65536
  nlinks := word b 2 / 65536
  blocks := word b 3
  direct i := if i < SFS_NDIRECT then word b (4 + i) else 0
  indirect := word b 16
  dbIndirect := word b 17

end DiskInode

/-- `sizeof(struct sfs_disk_inode)`. -/
def INODE_SIZE : ℕ := 72

/-- `sfs_rbuf` and `sfs_wbuf` of a disk inode. -/
def rinode (b : ℕ) : Op Vol Err DiskInode := do
  let data ← rbuf INODE_SIZE b 0
  pure (DiskInode.ofBlock data)

def winode (d : DiskInode) (b : ℕ) : Op Vol Err Unit := wbuf (ofWords d.words) INODE_SIZE b 0

/-- A word of an index block, as `sfs_rbuf` and `sfs_wbuf` transfer it. -/
def rword (b i : ℕ) : Op Vol Err ℕ := do
  let data ← rbuf 4 b (4 * i)
  pure (word data 0)

def wword (b i w : ℕ) : Op Vol Err Unit := wbuf (ofWords fun _ => w) 4 b (4 * i)

/-- The fields of an inode fit their width. -/
structure DiskInode.Fits (d : DiskInode) : Prop where
  info : d.info < 2 ^ 32
  parent : d.parent < 2 ^ 32
  type : d.type < 2 ^ 16
  nlinks : d.nlinks < 2 ^ 16
  blocks : d.blocks < 2 ^ 32
  direct : ∀ i, d.direct i < 2 ^ 32
  beyond : ∀ i, SFS_NDIRECT ≤ i → d.direct i = 0
  indirect : d.indirect < 2 ^ 32
  dbIndirect : d.dbIndirect < 2 ^ 32

/-- An inode that fits is read back as it was written. -/
theorem DiskInode.ofBlock_splice {d : DiskInode} (h : d.Fits) (b : Block) :
    DiskInode.ofBlock (splice b 0 INODE_SIZE (ofWords d.words)) = d := by
  have hw : ∀ i, i < 18 → word (splice b 0 INODE_SIZE (ofWords d.words)) i = d.words i % 2 ^ 32 := by
    intro i hi
    have := word_splice b d.words 0 18 i
    rw [if_pos ⟨Nat.zero_le i, by omega⟩] at this
    exact this
  obtain ⟨info, parent, type, nlinks, blocks, direct, indirect, dbIndirect⟩ := d
  unfold DiskInode.ofBlock
  rw [hw 0 (by omega), hw 1 (by omega), hw 2 (by omega), hw 3 (by omega), hw 16 (by omega),
    hw 17 (by omega)]
  have htype := h.type
  have hnlinks := h.nlinks
  dsimp only at htype hnlinks
  simp only [DiskInode.mk.injEq]
  refine ⟨Nat.mod_eq_of_lt h.info, Nat.mod_eq_of_lt h.parent, ?_, ?_, Nat.mod_eq_of_lt h.blocks, ?_,
    Nat.mod_eq_of_lt h.indirect, Nat.mod_eq_of_lt h.dbIndirect⟩
  · simp [DiskInode.words]
    omega
  · simp [DiskInode.words]
    omega
  · funext i
    split
    · rename_i hi
      have hi' : i < 12 := hi
      rw [hw (4 + i) (by omega)]
      have hword : DiskInode.words ⟨info, parent, type, nlinks, blocks, direct, indirect, dbIndirect⟩
          (4 + i) = direct i := by
        unfold DiskInode.words
        rw [if_neg (by omega), if_neg (by omega), if_neg (by omega), if_neg (by omega),
          if_pos (by omega)]
        dsimp only
        congr 1
        omega
      rw [hword]
      exact Nat.mod_eq_of_lt (h.direct i)
    · rename_i hi
      exact (h.beyond i (Nat.not_lt.mp hi)).symm

end Ucore.Sfs
