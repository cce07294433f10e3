import Ucore.Sfs.Disk

/-!
# The block map of an inode

Reference model of `sfs_bmap_get_sub_nolock` … `sfs_bmap_truncate_nolock` of `sfs_inode.c`: logical
block numbers to blocks through the direct entries, the indirect block and the double-indirect block.
-/

namespace Ucore.Sfs

open Bytes

/-- The volume together with the inode that is being worked on. -/
structure Lk where
  vol : Vol
  din : DiskInode
  dirty : Bool

/-- An operation on the volume, while an inode is being worked on. -/
def onVol {α : Type} (x : Op Vol Err α) : Op Lk Err α :=
  Op.zoom Lk.vol (fun k v => { k with vol := v }) x

/-- A change of the disk inode in memory, with `dirty` set. -/
def setDin (f : DiskInode → DiskInode) : Op Lk Err Unit :=
  Op.modify fun k => { k with din := f k.din, dirty := true }

/-- The end of `sfs_bmap_get_sub_nolock`: a new block for entry `index` of the index block `ent`,
which is given back on failure if it has just been allocated. -/
def bmapFill (ent index : ℕ) (fresh : Bool) : Op Vol Err (ℕ × ℕ) := do
  match ← Op.attempt blockAlloc with
  | .ok ino =>
    wword ent index ino
    pure (ent, ino)
  | .error e =>
    if fresh then blockFree ent
    Op.throw e

/-- `sfs_bmap_get_sub_nolock`: the index block, which may be new, and its entry. -/
def bmapGetSub (ent index : ℕ) (create : Bool) : Op Vol Err (ℕ × ℕ) := do
  Op.assert (index < SFS_BLK_NENTRY)
  if ent ≠ 0 then
    let ino ← rword ent index
    if ino ≠ 0 ∨ create = false then pure (ent, ino) else bmapFill ent index false
  else if create = false then pure (ent, 0)
  else
    let ent ← blockAlloc
    bmapFill ent index true

/-- The direct entries. -/
def bmapGetDirect (index : ℕ) (create : Bool) : Op Lk Err ℕ := do
  let ino ← Op.gets fun k => k.din.direct index
  if ino = 0 ∧ create = true then
    let ino ← onVol blockAlloc
    setDin fun d => { d with direct := Function.update d.direct index ino }
    pure ino
  else pure ino

/-- The entries of the indirect block. -/
def bmapGetIndirect (index : ℕ) (create : Bool) : Op Lk Err ℕ := do
  let old ← Op.gets fun k => k.din.indirect
  let (ent, ino) ← onVol (bmapGetSub old index create)
  if ent ≠ old then
    Op.assert (old = 0)
    setDin fun d => { d with indirect := ent }
  pure ino

/-- The entries of the double-indirect block. -/
def bmapGetDouble (index : ℕ) (create : Bool) : Op Lk Err ℕ := do
  let old ← Op.gets fun k => k.din.dbIndirect
  let (ent, mid) ← onVol (bmapGetSub old (index / SFS_BLK_NENTRY) create)
  if ent ≠ old then
    Op.assert (old = 0)
    setDin fun d => { d with dbIndirect := ent }
  if mid ≠ 0 then
    let (_, ino) ← onVol (bmapGetSub mid (index % SFS_BLK_NENTRY) create)
    pure ino
  else pure mid

/-- The three ranges of `sfs_bmap_get_nolock`. -/
def bmapFind (index : ℕ) (create : Bool) : Op Lk Err ℕ :=
  if index < SFS_NDIRECT then bmapGetDirect index create
  else if index - SFS_NDIRECT < SFS_BLK_NENTRY then bmapGetIndirect (index - SFS_NDIRECT) create
  else bmapGetDouble (index - SFS_NDIRECT - SFS_BLK_NENTRY) create

/-- `sfs_bmap_get_nolock`. -/
def bmapGet (index : ℕ) (create : Bool) : Op Lk Err ℕ := do
  let ino ← bmapFind index create
  if ino ≠ 0 then onVol (assertInuse ino)
  pure ino

/-- `sfs_bmap_free_sub_nolock`. -/
def bmapFreeSub (ent index : ℕ) : Op Vol Err Unit := do
  assertInuse ent
  Op.assert (index < SFS_BLK_NENTRY)
  let ino ← rword ent index
  if ino ≠ 0 then
    wword ent index 0
    blockFree ino

/-- `sfs_bmap_free_nolock`. -/
def bmapFree (index : ℕ) : Op Lk Err Unit := do
  let din ← Op.gets Lk.din
  if index < SFS_NDIRECT then
    if din.direct index ≠ 0 then
      onVol (blockFree (din.direct index))
      setDin fun d => { d with direct := Function.update d.direct index 0 }
  else if index - SFS_NDIRECT < SFS_BLK_NENTRY then
    if din.indirect ≠ 0 then onVol (bmapFreeSub din.indirect (index - SFS_NDIRECT))
  else if din.dbIndirect ≠ 0 then
    let i := index - SFS_NDIRECT - SFS_BLK_NENTRY
    let (_, mid) ← onVol (bmapGetSub din.dbIndirect (i / SFS_BLK_NENTRY) false)
    if mid ≠ 0 then onVol (bmapFreeSub mid (i % SFS_BLK_NENTRY))

/-- `sfs_bmap_load_nolock`. -/
def bmapLoad (index : ℕ) : Op Lk Err ℕ := do
  let blocks ← Op.gets fun k => k.din.blocks
  Op.assert (index ≤ blocks)
  let ino ← bmapGet index (decide (index = blocks))
  onVol (assertInuse ino)
  if index = blocks then Op.modify fun k => { k with din := { k.din with blocks := blocks + 1 } }
  pure ino

/-- `sfs_bmap_truncate_nolock`. -/
def bmapTruncate : Op Lk Err Unit := do
  let blocks ← Op.gets fun k => k.din.blocks
  Op.assert (blocks ≠ 0)
  bmapFree (blocks - 1)
  setDin fun d => { d with blocks := blocks - 1 }

end Ucore.Sfs
