import Ucore.Sfs.Dirent
import Ucore.Sfs.Io

/-!
# The mounted file system

Reference model of the operations of `sfs_inode.c` and of `sfs_sync` on the state of a mounted volume:
the volume and the cached inodes.  Operations run one after the other, so every semaphore is free when
an operation starts, and `reclaim_count` is 1 for as long as an inode is cached.
-/

namespace Ucore.Sfs

open Bytes

/-- `struct sfs_inode` together with the `ref_count` of its VFS inode. -/
structure Sin where
  din : DiskInode
  dirty : Bool
  /-- `SFS_removed`. -/
  removed : Bool
  ref : ℕ

/-- `struct sfs_fs`; `info` is `super.info`, `cache` the inode list. -/
structure Fs where
  vol : Vol
  info : ℕ → UInt8
  cache : ℕ → Option Sin

/-- An operation on the volume. -/
def onDisk {α : Type} (x : Op Vol Err α) : Op Fs Err α :=
  Op.zoom Fs.vol (fun fs v => { fs with vol := v }) x

/-- The `sfs_inode` of a node that the caller holds. -/
def sinOf (ino : ℕ) : Op Fs Err Sin := fun fs =>
  match fs.cache ino with
  | some s => some (.ok s, fs)
  | none => none

def setSin (ino : ℕ) (s : Sin) : Op Fs Err Unit :=
  Op.modify fun fs => { fs with cache := Function.update fs.cache ino (some s) }

/-- An operation on the inode of a node that the caller holds. -/
def onSin {α : Type} (ino : ℕ) (x : Op Lk Err α) : Op Fs Err α := fun fs =>
  match fs.cache ino with
  | none => none
  | some s => (x ⟨fs.vol, s.din, s.dirty⟩).map fun (r, k) =>
    (r, { fs with
      vol := k.vol
      cache := Function.update fs.cache ino (some { s with din := k.din, dirty := k.dirty }) })

/-- A change of the disk inode in memory, with `dirty` set. -/
def editDin (ino : ℕ) (f : DiskInode → DiskInode) : Op Fs Err Unit := do
  let s ← sinOf ino
  setSin ino { s with din := f s.din, dirty := true }

def nlinksInc (ino : ℕ) : Op Fs Err Unit :=
  editDin ino fun d => { d with nlinks := (d.nlinks + 1) % 65536 }

def nlinksDec (ino : ℕ) : Op Fs Err Unit := do
  let s ← sinOf ino
  Op.assert (s.din.nlinks ≠ 0)
  editDin ino fun d => { d with nlinks := d.nlinks - 1 }

/-- `sfs_dirinfo_set_parent`. -/
def setParent (ino parent : ℕ) : Op Fs Err Unit := editDin ino fun d => { d with parent := parent }

/-- `trylock_sin` of an inode whose semaphore is free. -/
def trylockSin (ino : ℕ) : Op Fs Err Unit := do
  let s ← sinOf ino
  if s.removed then Op.throw .noEnt

/-- `sfs_load_inode`, with the check of `sfs_get_ops`. -/
def loadInode (ino : ℕ) : Op Fs Err Unit := do
  match ← Op.gets fun fs => fs.cache ino with
  | some s => setSin ino { s with ref := s.ref + 1 }
  | none =>
    onDisk (assertInuse ino)
    let din ← onDisk (rinode ino)
    Op.assert (din.nlinks ≠ 0)
    Op.assert (din.type = SFS_TYPE_DIR ∨ din.type = SFS_TYPE_FILE)
    setSin ino ⟨din, false, false, 1⟩

/-- `sfs_fsync`. -/
def fsync (ino : ℕ) : Op Fs Err Unit := do
  let s ← sinOf ino
  if s.din.nlinks = 0 ∨ s.dirty = false then pure ()
  else
    trylockSin ino
    setSin ino { s with dirty := false }
    onDisk (winode s.din ino)

/-- The loop of `sfs_reclaim` over the entries of the double-indirect block, from entry `i` on. -/
def freeMids (ent : ℕ) : ℕ → ℕ → Op Vol Err Unit
  | _, 0 => pure ()
  | i, n + 1 => do
    bmapFreeSub ent i
    freeMids ent (i + 1) n

/-- The double-indirect block and what is below it. -/
def freeDouble (ent : ℕ) : Op Vol Err Unit :=
  if ent = 0 then pure ()
  else do
    freeMids ent 0 SFS_BLK_NENTRY
    blockFree ent

/-- The blocks that `sfs_reclaim` frees of an inode without links once its data is gone. -/
def freeInode (ino : ℕ) (din : DiskInode) : Op Vol Err Unit := do
  blockFree ino
  if din.indirect = 0 then freeDouble din.dbIndirect
  else
    blockFree din.indirect
    freeDouble din.dbIndirect

/-- `sfs_remove_links`. -/
def removeLinks (ino : ℕ) : Op Fs Err Unit :=
  Op.modify fun fs => { fs with cache := Function.update fs.cache ino none }

/-- `sfs_reclaim`. -/
def reclaim (ino : ℕ) : Op Fs Err Unit := do
  let s ← sinOf ino
  if s.din.nlinks = 0 then
    onSin ino (shrinkLoop s.din.blocks)
    let s ← sinOf ino
    removeLinks ino
    onDisk (freeInode ino s.din)
  else
    if s.dirty then fsync ino
    removeLinks ino

/-- `vop_ref_dec`: the error of `vop_reclaim` is only printed. -/
def refDec (ino : ℕ) : Op Fs Err Unit := do
  let s ← sinOf ino
  Op.assert (0 < s.ref)
  setSin ino { s with ref := s.ref - 1 }
  if s.ref = 1 then
    let _ ← Op.attempt (reclaim ino)
    pure ()

/-- `sfs_dirent_link_nolock`. -/
def direntLink (dir slot lnk : ℕ) (name : Name) : Op Fs Err Unit := do
  onSin dir (direntWrite slot lnk name)
  editDin dir fun d => { d with info := (d.info + 1) % 2 ^ 32 }
  nlinksInc lnk

/-- `sfs_dirent_unlink_nolock`. -/
def direntUnlink (dir slot lnk : ℕ) : Op Fs Err Unit := do
  onSin dir (direntWrite slot 0 noName)
  Op.assert ((← sinOf dir).din.info ≠ 0)
  Op.assert ((← sinOf lnk).din.nlinks ≠ 0)
  editDin dir fun d => { d with info := d.info - 1 }
  editDin lnk fun d => { d with nlinks := d.nlinks - 1 }

/-- `sfs_dirent_create_inode`. -/
def direntCreateInode (type : ℕ) : Op Fs Err ℕ := do
  let ino ← onDisk blockAlloc
  setSin ino ⟨⟨0, 0, type, 0, 0, fun _ => 0, 0, 0⟩, false, false, 1⟩
  pure ino

/-- The names that an operation refuses at once. -/
def checkName (name : Name) (dots : Err) : Op Fs Err Unit :=
  if SFS_MAX_FNAME_LEN < strlen name then Op.throw .tooBig
  else if name = DOT ∨ name = DOTDOT then Op.throw dots
  else pure ()

/-- The dispatch through `sfs_node_dirops`: the operations of a directory fail on a file. -/
def asDir (ino : ℕ) : Op Fs Err Unit := do
  let s ← sinOf ino
  if s.din.type ≠ SFS_TYPE_DIR then Op.throw .notDir

/-- `sfs_lookup_once`: the caller holds the node that is returned. -/
def lookupOnce (dir : ℕ) (name : Name) : Op Fs Err ℕ := do
  trylockSin dir
  match (← onSin dir (direntSearch name)).found with
  | none => Op.throw .noEnt
  | some (ino, _) =>
    loadInode ino
    pure ino

/-- `sfs_load_parent`. -/
def loadParent (dir : ℕ) : Op Fs Err ℕ := do
  let s ← sinOf dir
  loadInode s.din.parent
  pure s.din.parent

/-- `sfs_create_nolock`. -/
def createNolock (dir : ℕ) (name : Name) (excl : Bool) : Op Fs Err ℕ := do
  let r ← onSin dir (direntSearch name)
  match r.found with
  | some (ino, _) =>
    if excl then Op.throw .exists
    else
      loadInode ino
      if (← sinOf ino).din.type = SFS_TYPE_FILE then pure ino
      else
        refDec ino
        Op.throw .exists
  | none =>
    let lnk ← direntCreateInode SFS_TYPE_FILE
    match ← Op.attempt (direntLink dir r.empty lnk name) with
    | .ok _ => pure lnk
    | .error e =>
      refDec lnk
      Op.throw e

/-- `sfs_create`. -/
def create (dir : ℕ) (name : Name) (excl : Bool) : Op Fs Err ℕ := do
  asDir dir
  checkName name .exists
  trylockSin dir
  createNolock dir name excl

/-- `sfs_mkdir_nolock`. -/
def mkdirNolock (dir : ℕ) (name : Name) : Op Fs Err Unit := do
  let r ← onSin dir (direntSearch name)
  if r.found.isSome then Op.throw .exists
  else
    let lnk ← direntCreateInode SFS_TYPE_DIR
    match ← Op.attempt (direntLink dir r.empty lnk name) with
    | .ok _ =>
      setParent lnk dir
      nlinksInc lnk
      nlinksInc dir
      refDec lnk
    | .error e =>
      Op.assert ((← sinOf lnk).din.nlinks = 0)
      refDec lnk
      Op.throw e

/-- `sfs_mkdir`. -/
def mkdir (dir : ℕ) (name : Name) : Op Fs Err Unit := do
  asDir dir
  checkName name .exists
  trylockSin dir
  mkdirNolock dir name

/-- `sfs_link_nolock`. -/
def linkNolock (dir : ℕ) (name : Name) (lnk : ℕ) : Op Fs Err Unit := do
  let r ← onSin dir (direntSearch name)
  if r.found.isSome then Op.throw .exists else direntLink dir r.empty lnk name

/-- `sfs_link`. -/
def link (dir : ℕ) (name : Name) (lnk : ℕ) : Op Fs Err Unit := do
  asDir dir
  checkName name .exists
  if (← sinOf lnk).din.type = SFS_TYPE_DIR then Op.throw .isDir
  else
    trylockSin dir
    linkNolock dir name lnk

/-- The directory case of `sfs_unlink_nolock`.  The semaphore of `dir` is held, so that `trylock_sin` of
the same inode does not return. -/
def unlinkDir (dir slot lnk : ℕ) : Op Fs Err Unit := do
  Op.assert (lnk ≠ dir)
  trylockSin lnk
  if (← sinOf lnk).din.info ≠ 0 then Op.throw .notEmpty
  else
    direntUnlink dir slot lnk
    let s ← sinOf lnk
    setSin lnk { s with removed := true }
    nlinksDec lnk
    nlinksDec dir

/-- `sfs_unlink_nolock`. -/
def unlinkNolock (dir : ℕ) (name : Name) : Op Fs Err Unit := do
  match (← onSin dir (direntSearch name)).found with
  | none => Op.throw .noEnt
  | some (lnk, slot) =>
    loadInode lnk
    let s ← sinOf lnk
    let r ← Op.attempt
      (if s.din.type ≠ SFS_TYPE_DIR then direntUnlink dir slot lnk else unlinkDir dir slot lnk)
    refDec lnk
    match r with
    | .ok _ => pure ()
    | .error e => Op.throw e

/-- `sfs_unlink`. -/
def unlink (dir : ℕ) (name : Name) : Op Fs Err Unit := do
  asDir dir
  checkName name .isDir
  trylockSin dir
  unlinkNolock dir name

/-- `sfs_rename1_nolock`. -/
def rename1Nolock (dir : ℕ) (name newName : Name) : Op Fs Err Unit := do
  if name = newName then pure ()
  else
    match (← onSin dir (direntSearch name)).found with
    | none => Op.throw .noEnt
    | some (ino, slot) =>
      if (← onSin dir (direntSearch newName)).found.isSome then Op.throw .exists
      else onSin dir (direntWrite slot ino newName)

/-- `sfs_rename2_nolock` from the unlinking on: the entry leaves `dir` and enters `newDir`; if that
fails it is put back. -/
def moveEntry (dir slot : ℕ) (name : Name) (newDir slot' : ℕ) (newName : Name) (lnk : ℕ) :
    Op Fs Err Unit := do
  direntUnlink dir slot lnk
  let isdir := (← sinOf lnk).din.type = SFS_TYPE_DIR
  if isdir then nlinksDec dir
  match ← Op.attempt (direntLink newDir slot' lnk newName) with
  | .ok _ =>
    if isdir then
      nlinksInc newDir
      setParent lnk newDir
  | .error e =>
    match ← Op.attempt (direntLink dir slot lnk name) with
    | .ok _ => if isdir then nlinksInc dir
    | .error _ => pure ()
    Op.throw e

/-- `sfs_rename2_nolock`. -/
def rename2Nolock (dir : ℕ) (name : Name) (newDir : ℕ) (newName : Name) : Op Fs Err Unit := do
  match (← onSin dir (direntSearch name)).found with
  | none => Op.throw .noEnt
  | some (lnk, slot) =>
    let r ← onSin newDir (direntSearch newName)
    if r.found.isSome then Op.throw .exists
    else
      loadInode lnk
      let res ← Op.attempt (moveEntry dir slot name newDir r.empty newName lnk)
      refDec lnk
      match res with
      | .ok _ => pure ()
      | .error e => Op.throw e

/-- `sfs_rename`. -/
def rename (dir : ℕ) (name : Name) (newDir : ℕ) (newName : Name) : Op Fs Err Unit := do
  asDir dir
  if SFS_MAX_FNAME_LEN < strlen newName then Op.throw .tooBig
  else
    checkName name .inval
    checkName newName .exists
    trylockSin dir
    if dir = newDir then rename1Nolock dir name newName
    else
      trylockSin newDir
      rename2Nolock dir name newDir newName

/-- One component of the path of `sfs_lookup`: the caller holds the node that is returned. -/
def lookup (dir : ℕ) (name : Name) : Op Fs Err ℕ := do
  asDir dir
  if name = DOT then
    let s ← sinOf dir
    setSin dir { s with ref := s.ref + 1 }
    pure dir
  else if name = DOTDOT then loadParent dir
  else if SFS_MAX_FNAME_LEN < strlen name then Op.throw .tooBig
  else lookupOnce dir name

/-- The dispatch through `sfs_node_fileops`. -/
def asFile (ino : ℕ) : Op Fs Err Unit := do
  let s ← sinOf ino
  if s.din.type ≠ SFS_TYPE_FILE then Op.throw .isDir

/-- `sfs_read` and `sfs_write`; the error code is in the `Xfer`. -/
def io (write : Bool) (ino : ℕ) (buf : ℕ → UInt8) (offset : ℤ) (len : ℕ) : Op Fs Err Xfer := do
  asFile ino
  trylockSin ino
  onSin ino (ioNolock write buf offset len)

/-- `vop_tryseek`; only directories are ever flagged as removed, so the lock that `sfs_truncfile` takes
on the way is there. -/
def seek (ino : ℕ) (pos : ℤ) : Op Fs Err Unit := do
  asFile ino
  trylockSin ino
  onSin ino (tryseek pos)

/-- `vop_truncate`, as `vfs_open` calls it for `O_TRUNC`. -/
def truncate (ino : ℕ) (len : ℤ) : Op Fs Err Unit := do
  asFile ino
  trylockSin ino
  onSin ino (truncfile len)

def SFS_MAGIC : ℕ := 0x2f8dbe2a

/-- `ROUNDUP_DIV(super.blocks, SFS_BLKBITS)`. -/
def Vol.freemapBlocks (v : Vol) : ℕ := roundupDiv v.blocks SFS_BLKBITS

/-- The block that `sfs_sync_super` writes. -/
def superBlock (v : Vol) (info : ℕ → UInt8) : Block := fun i =>
  if i < 12 then ofWords (fun j => if j = 0 then SFS_MAGIC else if j = 1 then v.blocks else v.unused) i
  else if i < 44 then info (i - 12)
  else 0

/-- Eight bits of the bitmap as a byte. -/
def packByte (map : ℕ → Bool) (i : ℕ) : UInt8 :=
  UInt8.ofNat ((List.range 8).foldr (fun k n => n * 2 + (map (8 * i + k)).toNat) 0)

/-- Block `j` of the bitmap. -/
def freemapBlock (v : Vol) (j : ℕ) : Block := fun i => packByte v.freemap (SFS_BLKSIZE * j + i)

/-- `sfs_sync_super` and `sfs_sync_freemap`. -/
def syncSuper : Op Fs Err Unit := Op.modify fun fs => { fs with
  vol := { fs.vol with
    superDirty := false
    disk := fun b =>
      if b = SFS_BLKN_SUPER then superBlock fs.vol fs.info
      else if SFS_BLKN_FREEMAP ≤ b ∧ b < SFS_BLKN_FREEMAP + fs.vol.freemapBlocks then
        freemapBlock fs.vol (b - SFS_BLKN_FREEMAP)
      else fs.vol.disk b } }

/-- The loop of `sfs_sync` over the inode list, by inode number: every inode is a block of the
volume. -/
def syncLoop : ℕ → Op Fs Err Unit
  | 0 => pure ()
  | n + 1 => do
    syncLoop n
    if (← Op.gets fun fs => fs.cache n).isSome then
      let _ ← Op.attempt (fsync n)
      pure ()

/-- `sfs_sync`. -/
def sync : Op Fs Err Unit := do
  syncLoop (← Op.gets fun fs => fs.vol.blocks)
  if ← Op.gets fun fs => fs.vol.superDirty then syncSuper

end Ucore.Sfs
