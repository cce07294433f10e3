import Mathlib.Data.Int.DivMod
import Ucore.Sfs.Bmap

/-!
# File I/O

Reference model of `sfs_io_nolock`, `sfs_tryseek` and `sfs_truncfile` of `sfs_inode.c` on the inode
that is being worked on.  `goto out` is an error code in `Xfer.ret` that makes every later part of the
transfer do nothing.
-/

namespace Ucore.Sfs

open Bytes

/-- The locals of `sfs_io_nolock`: the buffer, `alen`, `blkno` and `ret`. -/
structure Xfer where
  buf : ℕ → UInt8
  alen : ℕ
  blkno : ℕ
  ret : Option Err

/-- `sfs_buf_op` or `sfs_block_op`: `size` bytes between the buffer and offset `off` of a block. -/
def bufOp (write : Bool) (x : Xfer) (ino off size : ℕ) : Op Lk Err Xfer :=
  if write then do
    onVol (wbuf (fun i => x.buf (x.alen + i)) size ino off)
    pure { x with alen := x.alen + size, blkno := x.blkno + 1 }
  else do
    let data ← onVol (rbuf size ino off)
    pure { x with buf := splice x.buf x.alen size data, alen := x.alen + size, blkno := x.blkno + 1 }

/-- Block `blkno` is mapped and `size` bytes at `off` in it are transferred. -/
def Xfer.part (write : Bool) (off size : ℕ) (x : Xfer) : Op Lk Err Xfer :=
  if x.ret.isSome then pure x
  else do
    match ← Op.attempt (do bufOp write x (← bmapLoad x.blkno) off size) with
    | .ok x' => pure x'
    | .error e => pure { x with ret := some e }

/-- The loop over whole blocks. -/
def ioLoop (write : Bool) : ℕ → Xfer → Op Lk Err Xfer
  | 0, x => pure x
  | nblks + 1, x => do ioLoop write nblks (← x.part write 0 SFS_BLKSIZE)

/-- The whole blocks and the tail. -/
def ioRest (write : Bool) (nblks tail : ℕ) (x : Xfer) : Op Lk Err Xfer := do
  let x ← ioLoop write nblks x
  if tail ≠ 0 then x.part write 0 tail else pure x

/-- The transfer from `offset` to `endpos`: an unaligned head, whole blocks, a tail. -/
def ioParts (write : Bool) (offset endpos : ℕ) (x : Xfer) : Op Lk Err Xfer :=
  if offset % SFS_BLKSIZE ≠ 0 then
    if endpos / SFS_BLKSIZE - offset / SFS_BLKSIZE = 0 then
      x.part write (offset % SFS_BLKSIZE) (endpos - offset)
    else do
      let x ← x.part write (offset % SFS_BLKSIZE) (SFS_BLKSIZE - offset % SFS_BLKSIZE)
      ioRest write (endpos / SFS_BLKSIZE - offset / SFS_BLKSIZE - 1) (endpos % SFS_BLKSIZE) x
  else ioRest write (endpos / SFS_BLKSIZE - offset / SFS_BLKSIZE) (endpos % SFS_BLKSIZE) x

/-- The code at `out`: the file grows to what has been transferred. -/
def ioOut (offset : ℕ) (x : Xfer) : Op Lk Err Xfer := do
  let size ← Op.gets fun k => k.din.info
  if size < offset + x.alen then setDin fun d => { d with info := offset + x.alen }
  pure x

def ioRun (write : Bool) (buf : ℕ → UInt8) (offset endpos : ℕ) : Op Lk Err Xfer := do
  let x ← ioParts write offset endpos ⟨buf, 0, offset / SFS_BLKSIZE, none⟩
  ioOut offset x

/-- `sfs_io_nolock`.  `off_t` is a signed and `size_t` an unsigned 32-bit integer, so `endpos` is the
sum reduced to an `off_t`. -/
def ioNolock (write : Bool) (buf : ℕ → UInt8) (offset : ℤ) (len : ℕ) : Op Lk Err Xfer := do
  let din ← Op.gets Lk.din
  Op.assert (din.type ≠ SFS_TYPE_DIR)
  let endpos := Int.bmod (offset + len) (2 ^ 32)
  if offset < 0 ∨ (SFS_MAX_FILE_SIZE : ℤ) ≤ offset ∨ endpos < offset then
    pure ⟨buf, 0, 0, some .inval⟩
  else if offset = endpos then pure ⟨buf, 0, 0, none⟩
  else if write then ioRun true buf offset.toNat (min endpos.toNat SFS_MAX_FILE_SIZE)
  else if din.info ≤ offset.toNat then pure ⟨buf, 0, 0, none⟩
  else ioRun false buf offset.toNat (min (min endpos.toNat SFS_MAX_FILE_SIZE) din.info)

/-- The loop of `sfs_truncfile` that adds `n` blocks from block `nblks` on. -/
def growLoop : ℕ → ℕ → Op Lk Err Unit
  | _, 0 => pure ()
  | nblks, n + 1 => do
    let _ ← bmapLoad nblks
    growLoop (nblks + 1) n

/-- The loop of `sfs_truncfile` and of `sfs_reclaim` that drops `n` blocks. -/
def shrinkLoop : ℕ → Op Lk Err Unit
  | 0 => pure ()
  | n + 1 => do
    bmapTruncate
    shrinkLoop n

/-- The two loops of `sfs_truncfile`. -/
def resize (nblks tblks : ℕ) : Op Lk Err Unit :=
  if nblks < tblks then growLoop nblks (tblks - nblks) else shrinkLoop (nblks - tblks)

/-- `sfs_truncfile`. -/
def truncfile (len : ℤ) : Op Lk Err Unit := do
  if len < 0 ∨ (SFS_MAX_FILE_SIZE : ℤ) < len then Op.throw .inval
  else
    let din ← Op.gets Lk.din
    Op.assert (din.type ≠ SFS_TYPE_DIR)
    let tblks := roundupDiv len.toNat SFS_BLKSIZE
    if din.info = len.toNat then Op.assert (tblks = din.blocks)
    else
      resize din.blocks tblks
      Op.assert ((← Op.gets fun k => k.din.blocks) = tblks)
      setDin fun d => { d with info := len.toNat }

/-- `sfs_tryseek`. -/
def tryseek (pos : ℤ) : Op Lk Err Unit := do
  if pos < 0 ∨ (SFS_MAX_FILE_SIZE : ℤ) ≤ pos then Op.throw .inval
  else
    let size ← Op.gets fun k => k.din.info
    if size < pos.toNat then truncfile pos

end Ucore.Sfs
