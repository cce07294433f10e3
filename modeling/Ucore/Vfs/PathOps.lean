import Mathlib.Logic.Function.Basic
import Ucore.Vfs.Lookup

/-!
# Path operations and the counters of inodes

Reference model of `vfspath.c`, of `vfsfile.c`, of the counters of `inode.c` and of the functions of
`sfs_inode.c` that take or drop references, over whatever the functions below them return: a device that
fails, memory or blocks that are short, a directory with any contents.

* `Below` — the functions that neither count references nor make inodes;
* `refInc`, `refDec`, `openInc`, `openDec`, `sfsReclaim` — the counters;
* `sfsLookup`, `sfsCreate`, `sfsUnlink`, … — the operations of a directory;
* `vfsOpen`, `vfsUnlink`, `vfsRename`, `vfsLink`, `vfsMkdir`, `vfsChdir` — the operations on paths.
-/

namespace Ucore.PathOps

open Sfs (Name noName DOT DOTDOT SLASH strlen pathComp lookupSubpath SFS_MAX_FNAME_LEN SFS_BLKN_ROOT
  SFS_TYPE_DIR SFS_TYPE_FILE SFS_TYPE_LINK)

inductive Errno where
  | inval
  | noMem
  | tooBig
  | noDev
  | naDev
  | busy
  | noEnt
  | isDir
  | notDir
  | xdev
  | exists
  | notEmpty
  /-- Any other code that a function below returns. -/
  | other (code : ℕ)
  deriving DecidableEq

/-- `in_ops`: `dev_node_ops`, `sfs_node_dirops` or `sfs_node_fileops`. -/
inductive Ops where
  | device
  | dir
  | file
  deriving DecidableEq

/-- `struct inode`, with the `reclaim_count` of the SFS inode in it; `inFs` is the mounted file system. -/
structure Inode where
  ops : Ops
  inFs : Option ℕ
  refCount : ℕ
  openCount : ℕ
  reclaimCount : ℕ

/-- `vfs_dev_t`. -/
structure Vdev (ν : Type) where
  devname : Name
  devnode : Option ν
  fs : Option ℕ
  mountable : Bool

/-- `ν` are the addresses of inodes and `inodes` those that are allocated; `rest` is everything else. -/
structure State (ν σ : Type) where
  inodes : ν → Option Inode
  pwd : Option ν
  bootfs : Option ν
  vdevs : List (Vdev ν)
  rest : σ

/-- A function that leaves the inodes alone; `none` is a failed assertion. -/
abbrev Low (ν σ α : Type) : Type := State ν σ → Option (α × σ)

/-- What `sfs_dirent_search_nolock` stores; `ret` is its return value. -/
structure Search where
  ret : Option Errno
  ino : ℕ
  slot : ℕ
  empty : ℕ

/-- The functions below. -/
structure Below (ν σ : Type) where
  /-- The fields of the `sfs_disk_inode` of a node. -/
  type : ν → State ν σ → ℕ
  nlinks : ν → State ν σ → ℕ
  slots : ν → State ν σ → ℕ
  parent : ν → State ν σ → ℕ
  /-- The scan of `lookup_sfs_nolock`. -/
  hashFind : ℕ → ℕ → State ν σ → Option ν
  kmalloc : Low ν σ Bool
  allocInode : Low ν σ (Option ν)
  /-- `assert(sfs_block_inuse(..))`, `sfs_rbuf` and `assert(din->nlinks != 0)`; the type that is read. -/
  readInode : ℕ → ℕ → Low ν σ (Except Errno ℕ)
  /-- The fields of a new `sfs_inode`. -/
  initSin : ℕ → ℕ → ν → Low ν σ Unit
  setLinks : ℕ → ν → Low ν σ Unit
  blockAlloc : ℕ → Low ν σ (Except Errno ℕ)
  blockFree : ℕ → ℕ → Low ν σ Unit
  trylockSin : ν → Low ν σ (Except Errno Unit)
  direntSearch : ν → Name → Low ν σ Search
  direntWrite : ν → ℕ → ℕ → Name → Low ν σ (Except Errno Unit)
  direntLink : ν → ℕ → ν → Name → Low ν σ (Except Errno Unit)
  direntUnlink : ν → ℕ → ν → Low ν σ (Except Errno Unit)
  setParent : ν → ν → Low ν σ Unit
  nlinksInc : ν → Low ν σ Unit
  nlinksDec : ν → Low ν σ Unit
  setRemoved : ν → Low ν σ Unit
  truncfile : ν → ℤ → Low ν σ (Except Errno Unit)
  fsync : ν → Low ν σ (Except Errno Unit)
  /-- The blocks of `sfs_reclaim` up to `sfs_remove_links`, and from there on. -/
  takeDown : ν → Low ν σ (Except Errno Unit)
  removeLinks : ν → Low ν σ Unit
  dopOpen : ν → ℕ → Low ν σ (Except Errno Unit)
  dopClose : ν → Low ν σ (Except Errno Unit)

section Counters

variable {ν σ : Type} [DecidableEq ν] (L : Below ν σ)

abbrev Act (ν σ α : Type) : Type := Op (State ν σ) Errno α

/-- A function below is called. -/
def call {α : Type} (f : Low ν σ α) : Act ν σ α := fun s =>
  (f s).map fun (a, rest) => (.ok a, { s with rest := rest })

/-- A function below is called, and an error code is returned on. -/
def check {α : Type} (f : Low ν σ (Except Errno α)) : Act ν σ α := do
  match ← call f with
  | .ok a => pure a
  | .error e => Op.throw e

/-- `struct inode` at an address; only allocated inodes are looked at. -/
def inode (node : ν) : Act ν σ Inode := fun s => (s.inodes node).map fun i => (.ok i, s)

def setInode (node : ν) (i : Option Inode) : Act ν σ Unit :=
  Op.modify fun s => { s with inodes := Function.update s.inodes node i }

/-- `MAX_INODE_COUNT`. -/
def MAX_INODE_COUNT : ℕ := 0x10000

/-- `inode_check`; it comes before every function of `in_ops`. -/
def inodeCheck (node : ν) : Act ν σ Inode := do
  let i ← inode node
  Op.assert (i.openCount ≤ i.refCount)
  Op.assert (i.refCount < MAX_INODE_COUNT ∧ i.openCount < MAX_INODE_COUNT)
  pure i

/-- `inode_ref_inc`. -/
def refInc (node : ν) : Act ν σ ℕ := do
  let i ← inode node
  setInode node (some { i with refCount := i.refCount + 1 })
  pure (i.refCount + 1)

/-- `inode_open_inc`. -/
def openInc (node : ν) : Act ν σ Unit := do
  let i ← inode node
  setInode node (some { i with openCount := i.openCount + 1 })

/-- `inode_kill`. -/
def inodeKill (node : ν) : Act ν σ Unit := do
  let i ← inode node
  Op.assert (i.refCount = 0)
  Op.assert (i.openCount = 0)
  setInode node none

/-- `sfs_reclaim`. -/
def sfsReclaim (node : ν) : Act ν σ Unit := do
  let i ← inode node
  Op.assert (0 < i.reclaimCount)
  setInode node (some { i with reclaimCount := i.reclaimCount - 1 })
  if i.reclaimCount - 1 ≠ 0 then Op.throw .busy
  else
    Op.assert (i.refCount = 0 ∧ i.openCount = 0)
    check (L.takeDown node)
    call (L.removeLinks node)
    inodeKill node

/-- `vop_reclaim`. -/
def vopReclaim (node : ν) : Act ν σ Unit := do
  let i ← inodeCheck node
  if i.ops = .device then pure () else sfsReclaim L node

/-- `inode_ref_dec`: the error of `vop_reclaim` is only printed. -/
def refDec (node : ν) : Act ν σ Unit := do
  let i ← inode node
  Op.assert (0 < i.refCount)
  setInode node (some { i with refCount := i.refCount - 1 })
  if i.refCount - 1 = 0 then
    let _ ← Op.attempt (vopReclaim L node)
    pure ()
  else pure ()

/-- `vop_close`. -/
def vopClose (node : ν) : Act ν σ Unit := do
  let i ← inodeCheck node
  check (if i.ops = .device then L.dopClose node else L.fsync node)

/-- `inode_open_dec`: the error of `vop_close` is only printed. -/
def openDec (node : ν) : Act ν σ Unit := do
  let i ← inode node
  Op.assert (0 < i.openCount)
  setInode node (some { i with openCount := i.openCount - 1 })
  if i.openCount - 1 = 0 then
    let _ ← Op.attempt (vopClose L node)
    pure ()
  else pure ()

end Counters

/-! ## `sfs_inode.c`

Operations run one after the other, so every semaphore is free when `trylock_sin` is called. -/

section Sfs

variable {ν σ : Type} [DecidableEq ν] (L : Below ν σ)

/-- `fsop_info(vop_fs(node), sfs)`. -/
def fsOf (node : ν) : Act ν σ ℕ := fun s =>
  ((s.inodes node).bind Inode.inFs).map fun fs => (.ok fs, s)

/-- `lookup_sfs_nolock`. -/
def lookupSfs (fs ino : ℕ) : Act ν σ (Option ν) := do
  match ← Op.gets (L.hashFind fs ino) with
  | none => pure none
  | some node =>
    if (← refInc node) = 1 then
      let i ← inode node
      setInode node (some { i with reclaimCount := i.reclaimCount + 1 })
    pure (some node)

/-- `vop_init`: the counters of a new inode. -/
def inodeInit (node : ν) (ops : Ops) (fs : ℕ) : Act ν σ Unit := do
  Op.assert ((← Op.gets fun s => s.inodes node).isNone)
  setInode node (some ⟨ops, some fs, 0, 0, 1⟩)
  let _ ← refInc node
  pure ()

/-- `sfs_get_ops`. -/
def sfsGetOps (type : ℕ) : Act ν σ Ops := do
  Op.assert (type = SFS_TYPE_DIR ∨ type = SFS_TYPE_FILE)
  pure (if type = SFS_TYPE_DIR then .dir else .file)

/-- `sfs_create_inode`; the address that `kmalloc` returns is a new one. -/
def createInode (fs type ino : ℕ) : Act ν σ ν := do
  match ← call L.allocInode with
  | none => Op.throw .noMem
  | some node =>
    inodeInit node (← sfsGetOps type) fs
    call (L.initSin type ino node)
    pure node

/-- `sfs_load_inode`. -/
def loadInode (fs ino : ℕ) : Act ν σ ν := do
  match ← lookupSfs L fs ino with
  | some node => pure node
  | none =>
    if ← call L.kmalloc then
      let type ← check (L.readInode fs ino)
      let node ← createInode L fs type ino
      call (L.setLinks fs node)
      pure node
    else Op.throw .noMem

/-- `sfs_dirent_create_inode`. -/
def direntCreateInode (fs type : ℕ) : Act ν σ ν := do
  if ← call L.kmalloc then
    let ino ← check (L.blockAlloc fs)
    match ← Op.attempt (createInode L fs type ino) with
    | .ok node =>
      call (L.setLinks fs node)
      pure node
    | .error e =>
      call (L.blockFree fs ino)
      Op.throw e
  else Op.throw .noMem

/-- `sfs_load_parent`. -/
def loadParent (fs : ℕ) (node : ν) : Act ν σ ν := do
  loadInode L fs (← Op.gets (L.parent node))

/-- `sfs_lookup_once`. -/
def lookupOnce (fs : ℕ) (node : ν) (name : Name) : Act ν σ ν := do
  check (L.trylockSin node)
  let r ← call (L.direntSearch node name)
  match r.ret with
  | some e => Op.throw e
  | none => loadInode L fs r.ino

/-- The check at the head of the loops of `sfs_lookup` and `sfs_lookup_parent`. -/
def checkDir (node : ν) : Act ν σ Unit := do
  if (← Op.gets (L.type node)) ≠ SFS_TYPE_DIR then
    refDec L node
    Op.throw .notDir

/-- The node of a component other than `.`, for which the reference to `node` is given up. -/
def lookupComp (fs : ℕ) (node : ν) (comp : Name) : Act ν σ ν :=
  Op.cleanup
    (if comp = DOTDOT then loadParent L fs node
    else if SFS_MAX_FNAME_LEN < strlen comp then Op.throw .tooBig
    else lookupOnce L fs node comp)
    (refDec L node)

/-- The loop of `sfs_lookup` from `next` on. -/
def lookupNext (fs : ℕ) (node : ν) (path : Name) : Act ν σ ν :=
  match h : lookupSubpath path with
  | none => if pathComp path = DOT then pure node else lookupComp L fs node (pathComp path)
  | some subpath =>
    if pathComp path = DOT then lookupNext fs node subpath
    else do
      let subnode ← lookupComp L fs node (pathComp path)
      checkDir L subnode
      lookupNext fs subnode subpath
termination_by strlen path
decreasing_by all_goals exact Sfs.lookupSubpath_lt h

/-- `sfs_lookup`. -/
def sfsLookup (node : ν) (path : Name) : Act ν σ ν := do
  let fs ← fsOf node
  Op.assert (path ≠ noName ∧ path.val.head? ≠ some SLASH)
  let _ ← refInc node
  checkDir L node
  lookupNext L fs node path

/-- The loop of `sfs_lookup_parent` from `next` on. -/
def lookupParentNext (fs : ℕ) (node : ν) (path : Name) : Act ν σ (ν × Name) :=
  match h : lookupSubpath path with
  | none => pure (node, pathComp path)
  | some subpath =>
    if pathComp path = DOT then lookupParentNext fs node subpath
    else do
      let subnode ← lookupComp L fs node (pathComp path)
      checkDir L subnode
      lookupParentNext fs subnode subpath
termination_by strlen path
decreasing_by all_goals exact Sfs.lookupSubpath_lt h

/-- `sfs_lookup_parent`; the name is `*endp`. -/
def sfsLookupParent (node : ν) (path : Name) : Act ν σ (ν × Name) := do
  let fs ← fsOf node
  Op.assert (path ≠ noName ∧ path.val.head? ≠ some SLASH)
  let _ ← refInc node
  checkDir L node
  lookupParentNext L fs node path

/-- `sfs_create_nolock`. -/
def createNolock (fs : ℕ) (node : ν) (name : Name) (excl : Bool) : Act ν σ ν := do
  let r ← call (L.direntSearch node name)
  if r.ret ≠ some .noEnt then
    match r.ret with
    | some e => Op.throw e
    | none =>
      if excl then Op.throw .exists
      else
        let link ← loadInode L fs r.ino
        if (← Op.gets (L.type link)) = SFS_TYPE_FILE then pure link
        else
          refDec L link
          Op.throw .exists
  else
    let link ← direntCreateInode L fs SFS_TYPE_FILE
    match ← Op.attempt (check (L.direntLink node r.empty link name)) with
    | .ok _ => pure link
    | .error e =>
      refDec L link
      Op.throw e

/-- The names that an operation refuses at once. -/
def checkName (name : Name) (dots : Errno) : Act ν σ Unit :=
  if SFS_MAX_FNAME_LEN < strlen name then Op.throw .tooBig
  else if name = DOT ∨ name = DOTDOT then Op.throw dots
  else pure ()

/-- `sfs_create`. -/
def sfsCreate (node : ν) (name : Name) (excl : Bool) : Act ν σ ν := do
  checkName name .exists
  let fs ← fsOf node
  check (L.trylockSin node)
  createNolock L fs node name excl

/-- `sfs_mkdir_nolock` once the new directory is there. -/
def linkDir (node link : ν) (slot : ℕ) (name : Name) : Act ν σ Unit := do
  match ← Op.attempt (check (L.direntLink node slot link name)) with
  | .error e =>
    Op.assert ((← Op.gets (L.nlinks link)) = 0)
    let i ← inode link
    Op.assert (i.refCount = 1 ∧ i.openCount = 0)
    Op.throw e
  | .ok _ =>
    call (L.setParent link node)
    call (L.nlinksInc link)
    call (L.nlinksInc node)

/-- `sfs_mkdir_nolock`. -/
def mkdirNolock (fs : ℕ) (node : ν) (name : Name) : Act ν σ Unit := do
  let r ← call (L.direntSearch node name)
  if r.ret ≠ some .noEnt then Op.throw (r.ret.getD .exists)
  else
    let link ← direntCreateInode L fs SFS_TYPE_DIR
    Op.cleanup (linkDir L node link r.empty name) (refDec L link)

/-- `sfs_mkdir`. -/
def sfsMkdir (node : ν) (name : Name) : Act ν σ Unit := do
  checkName name .exists
  let fs ← fsOf node
  check (L.trylockSin node)
  mkdirNolock L fs node name

/-- `sfs_link_nolock`. -/
def linkNolock (node link : ν) (name : Name) : Act ν σ Unit := do
  let r ← call (L.direntSearch node name)
  if r.ret ≠ some .noEnt then Op.throw (r.ret.getD .exists)
  else check (L.direntLink node r.empty link name)

/-- `sfs_link`. -/
def sfsLink (node : ν) (name : Name) (link : ν) : Act ν σ Unit := do
  checkName name .exists
  if (← Op.gets (L.type link)) = SFS_TYPE_DIR then Op.throw .isDir
  else
    check (L.trylockSin node)
    linkNolock L node link name

/-- The directory case of `sfs_unlink_nolock`. -/
def unlinkDir (node link : ν) (slot : ℕ) : Act ν σ Unit := do
  check (L.trylockSin link)
  if (← Op.gets (L.slots link)) ≠ 0 then Op.throw .notEmpty
  else
    check (L.direntUnlink node slot link)
    call (L.setRemoved link)
    call (L.nlinksDec link)
    call (L.nlinksDec node)

/-- `sfs_unlink_nolock`. -/
def unlinkNolock (fs : ℕ) (node : ν) (name : Name) : Act ν σ Unit := do
  let r ← call (L.direntSearch node name)
  match r.ret with
  | some e => Op.throw e
  | none =>
    let link ← loadInode L fs r.ino
    let type ← Op.gets (L.type link)
    Op.cleanup
      (if type ≠ SFS_TYPE_DIR then check (L.direntUnlink node r.slot link) else unlinkDir L node link r.slot)
      (refDec L link)

/-- `sfs_unlink`. -/
def sfsUnlink (node : ν) (name : Name) : Act ν σ Unit := do
  checkName name .isDir
  let fs ← fsOf node
  check (L.trylockSin node)
  unlinkNolock L fs node name

/-- `sfs_rename1_nolock`. -/
def rename1Nolock (node : ν) (name newName : Name) : Act ν σ Unit :=
  if name = newName then pure ()
  else do
    let r ← call (L.direntSearch node name)
    match r.ret with
    | some e => Op.throw e
    | none =>
      let r' ← call (L.direntSearch node newName)
      if r'.ret ≠ some .noEnt then Op.throw (r'.ret.getD .exists)
      else check (L.direntWrite node r.slot r.ino newName)

/-- `x`, if the entry is one of a directory. -/
def ifDir (isdir : Bool) (x : Act ν σ Unit) : Act ν σ Unit := if isdir then x else pure ()

/-- `sfs_rename2_nolock` from the second `sfs_dirent_link_nolock` on: if it fails the entry is put back. -/
def enterDir (node : ν) (slot : ℕ) (name : Name) (newNode : ν) (slot' : ℕ) (newName : Name) (link : ν)
    (isdir : Bool) : Act ν σ Unit := do
  match ← Op.attempt (check (L.direntLink newNode slot' link newName)) with
  | .error e =>
    match ← Op.attempt (check (L.direntLink node slot link name)) with
    | .ok _ =>
      ifDir isdir (call (L.nlinksInc node))
      Op.throw e
    | .error _ => Op.throw e
  | .ok _ =>
    ifDir isdir do
      call (L.nlinksInc newNode)
      call (L.setParent link newNode)

/-- `sfs_rename2_nolock` once the node is loaded: the entry moves. -/
def moveEntry (node : ν) (slot : ℕ) (name : Name) (newNode : ν) (slot' : ℕ) (newName : Name) (link : ν) :
    Act ν σ Unit := do
  check (L.direntUnlink node slot link)
  let type ← Op.gets (L.type link)
  let isdir : Bool := type = SFS_TYPE_DIR
  ifDir isdir (call (L.nlinksDec node))
  enterDir L node slot name newNode slot' newName link isdir

/-- `sfs_rename2_nolock`. -/
def rename2Nolock (fs : ℕ) (node : ν) (name : Name) (newNode : ν) (newName : Name) : Act ν σ Unit := do
  let r ← call (L.direntSearch node name)
  match r.ret with
  | some e => Op.throw e
  | none =>
    let r' ← call (L.direntSearch newNode newName)
    if r'.ret ≠ some .noEnt then Op.throw (r'.ret.getD .exists)
    else
      let link ← loadInode L fs r.ino
      Op.cleanup (moveEntry L node r.slot name newNode r'.empty newName link) (refDec L link)

/-- `sfs_rename`. -/
def sfsRename (node : ν) (name : Name) (newNode : ν) (newName : Name) : Act ν σ Unit :=
  if SFS_MAX_FNAME_LEN < strlen name ∨ SFS_MAX_FNAME_LEN < strlen newName then Op.throw .tooBig
  else if name = DOT ∨ name = DOTDOT then Op.throw .inval
  else if newName = DOT ∨ newName = DOTDOT then Op.throw .exists
  else do
    let fs ← fsOf node
    check (L.trylockSin node)
    if node = newNode then rename1Nolock L node name newName
    else
      check (L.trylockSin newNode)
      rename2Nolock L fs node name newNode newName

end Sfs

/-! ## `in_ops` -/

section Vops

variable {ν σ : Type} [DecidableEq ν] (L : Below ν σ)

/-- `dev_lookup`. -/
def devLookup (node : ν) (path : Name) : Act ν σ ν := do
  if path ≠ noName then Op.throw .noEnt
  else
    let _ ← refInc node
    pure node

/-- `vop_lookup`. -/
def vopLookup (node : ν) (path : Name) : Act ν σ ν := do
  match (← inodeCheck node).ops with
  | .device => devLookup node path
  | .dir => sfsLookup L node path
  | .file => Op.throw .notDir

/-- A function that only the operations of a directory have: `NULL_VOP_NOTDIR` for the others. -/
def ofDir {α : Type} (node : ν) (x : Act ν σ α) : Act ν σ α := do
  if (← inodeCheck node).ops = .dir then x else Op.throw .notDir

def vopLookupParent (node : ν) (path : Name) : Act ν σ (ν × Name) := ofDir node (sfsLookupParent L node path)

def vopCreate (node : ν) (name : Name) (excl : Bool) : Act ν σ ν := ofDir node (sfsCreate L node name excl)

def vopUnlink (node : ν) (name : Name) : Act ν σ Unit := ofDir node (sfsUnlink L node name)

def vopMkdir (node : ν) (name : Name) : Act ν σ Unit := ofDir node (sfsMkdir L node name)

def vopLink (node : ν) (name : Name) (link : ν) : Act ν σ Unit := ofDir node (sfsLink L node name link)

def vopRename (node : ν) (name : Name) (newNode : ν) (newName : Name) : Act ν σ Unit :=
  ofDir node (sfsRename L node name newNode newName)

def O_RDONLY : ℕ := 0

def O_WRONLY : ℕ := 1

def O_RDWR : ℕ := 2

def O_ACCMODE : ℕ := 3

def O_CREAT : ℕ := 4

def O_EXCL : ℕ := 8

def O_TRUNC : ℕ := 16

def O_APPEND : ℕ := 32

/-- A flag of `open_flags`. -/
def has (flags flag : ℕ) : Prop := flags &&& flag ≠ 0

instance (flags flag : ℕ) : Decidable (has flags flag) := inferInstanceAs (Decidable (_ ≠ _))

/-- `vop_open`: `dev_open`, `sfs_opendir` or `sfs_openfile`. -/
def vopOpen (node : ν) (flags : ℕ) : Act ν σ Unit := do
  match (← inodeCheck node).ops with
  | .device =>
    if has flags (O_CREAT ||| O_TRUNC ||| O_EXCL ||| O_APPEND) then Op.throw .inval
    else check (L.dopOpen node flags)
  | .dir => if flags &&& O_ACCMODE ≠ O_RDONLY ∨ has flags O_APPEND then Op.throw .isDir else pure ()
  | .file => pure ()

/-- `vop_truncate`. -/
def vopTruncate (node : ν) (len : ℤ) : Act ν σ Unit := do
  match (← inodeCheck node).ops with
  | .device => Op.throw .inval
  | .dir => Op.throw .isDir
  | .file => check (L.truncfile node len)

/-- `S_ISDIR` of what `vop_gettype` stores: `dev_gettype` or `sfs_gettype`. -/
def vopIsDir (node : ν) : Act ν σ Bool := do
  if (← inodeCheck node).ops = .device then pure false
  else
    let type ← Op.gets (L.type node)
    Op.assert (type = SFS_TYPE_DIR ∨ type = SFS_TYPE_FILE ∨ type = SFS_TYPE_LINK)
    pure (type = SFS_TYPE_DIR)

end Vops

/-! ## `vfs.c`, `vfsdev.c`, `vfspath.c` and `vfsfile.c` -/

section Vfs

variable {ν σ : Type} [DecidableEq ν] (L : Below ν σ)

/-- A node that a variable holds is handed out. -/
def handOut (var : State ν σ → Option ν) : Act ν σ ν := do
  match ← Op.gets var with
  | none => Op.throw .noEnt
  | some node =>
    let _ ← refInc node
    pure node

/-- `vfs_get_curdir`. -/
def getCurdir : Act ν σ ν := handOut State.pwd

/-- `vfs_get_bootfs`. -/
def getBootfs : Act ν σ ν := handOut State.bootfs

/-- `sfs_get_root`. -/
def sfsGetRoot (fs : ℕ) : Act ν σ ν := do
  match ← Op.attempt (loadInode L fs SFS_BLKN_ROOT) with
  | .ok node => pure node
  | .error _ => fun _ => none

/-- `vfs_get_root`. -/
def getRoot (devname : Name) : Act ν σ ν := do
  match (← Op.gets State.vdevs).find? fun vdev => vdev.devname = devname with
  | none => Op.throw .noDev
  | some vdev =>
    match vdev.fs with
    | some fs => sfsGetRoot L fs
    | none =>
      if vdev.mountable then Op.throw .naDev
      else
        match vdev.devnode with
        | none => fun _ => none
        | some node =>
          let _ ← refInc node
          pure node

/-- `fsop_get_root(node->in_fs)`. -/
def fsRoot (node : ν) : Act ν σ ν := do
  sfsGetRoot L (← fsOf node)

/-- What `vfslookup.c` calls. -/
def callees : VfsLookup.Callees (State ν σ) Errno ν where
  getCurdir := getCurdir
  getRoot := getRoot L
  getBootfs := getBootfs
  fsRoot := fsRoot L
  refDec := refDec L
  lookup := vopLookup L
  lookupParent := vopLookupParent L
  inval := .inval

def vfsLookup (path : Name) : Act ν σ ν := VfsLookup.vfsLookup (callees L) path

def vfsLookupParent (path : Name) : Act ν σ (ν × Name) := VfsLookup.vfsLookupParent (callees L) path

/-- The node that `vfs_open` opens. -/
def openNode (path : Name) (flags : ℕ) : Act ν σ ν :=
  if has flags O_CREAT then do
    let (dir, name) ← vfsLookupParent L path
    Op.cleanup (vopCreate L dir name (decide (has flags O_EXCL))) (refDec L dir)
  else vfsLookup L path

/-- `vfs_open`. -/
def vfsOpen (path : Name) (flags : ℕ) : Act ν σ ν :=
  let canWrite := flags &&& O_ACCMODE = O_WRONLY ∨ flags &&& O_ACCMODE = O_RDWR
  if ¬ canWrite ∧ flags &&& O_ACCMODE ≠ O_RDONLY then Op.throw .inval
  else if has flags O_TRUNC ∧ ¬ canWrite then Op.throw .inval
  else do
    let node ← openNode L path flags
    match ← Op.attempt (vopOpen L node flags) with
    | .error e =>
      refDec L node
      Op.throw e
    | .ok _ =>
      openInc node
      if has flags O_TRUNC then
        match ← Op.attempt (vopTruncate L node 0) with
        | .error e =>
          openDec L node
          refDec L node
          Op.throw e
        | .ok _ => pure node
      else pure node

/-- `vfs_unlink`. -/
def vfsUnlink (path : Name) : Act ν σ Unit := do
  let (dir, name) ← vfsLookupParent L path
  Op.cleanup (vopUnlink L dir name) (refDec L dir)

/-- `vfs_mkdir`. -/
def vfsMkdir (path : Name) : Act ν σ Unit := do
  let (dir, name) ← vfsLookupParent L path
  Op.cleanup (vopMkdir L dir name) (refDec L dir)

/-- The references to two nodes are given up. -/
def refDecs (node node' : ν) : Act ν σ Unit := do
  refDec L node
  refDec L node'

/-- `x`, if the nodes are in one mounted file system. -/
def sameFs (node node' : ν) (x : Act ν σ Unit) : Act ν σ Unit := do
  let i ← inode node
  let i' ← inode node'
  if i.inFs = none ∨ i.inFs ≠ i'.inFs then Op.throw .xdev else x

/-- The second path of `vfs_rename` and of `vfs_link`. -/
def lookupNew (node : ν) (newPath : Name) : Act ν σ (ν × Name) := do
  match ← Op.attempt (vfsLookupParent L newPath) with
  | .ok found => pure found
  | .error e =>
    refDec L node
    Op.throw e

/-- `vfs_rename`. -/
def vfsRename (oldPath newPath : Name) : Act ν σ Unit := do
  let (oldDir, oldName) ← vfsLookupParent L oldPath
  let (newDir, newName) ← lookupNew L oldDir newPath
  Op.cleanup (sameFs oldDir newDir (vopRename L oldDir oldName newDir newName)) (refDecs L oldDir newDir)

/-- `vfs_link`. -/
def vfsLink (oldPath newPath : Name) : Act ν σ Unit := do
  let oldNode ← vfsLookup L oldPath
  let (newDir, newName) ← lookupNew L oldNode newPath
  Op.cleanup (sameFs oldNode newDir (vopLink L newDir newName oldNode)) (refDecs L oldNode newDir)

/-- The reference of the directory before. -/
def dropOld : Option ν → Act ν σ Unit
  | none => pure ()
  | some old => refDec L old

/-- `set_cwd_nolock`. -/
def setCwd (pwd : ν) : Act ν σ Unit := Op.modify fun s => { s with pwd := some pwd }

/-- `vfs_set_curdir`, of a node. -/
def setCurdir (dir : ν) : Act ν σ Unit := do
  let oldDir ← Op.gets State.pwd
  if oldDir ≠ some dir then
    if ¬ (← vopIsDir L dir) then Op.throw .notDir
    else
      let _ ← refInc dir
      setCwd dir
      dropOld L oldDir
  else pure ()

/-- `vfs_chdir`. -/
def vfsChdir (path : Name) : Act ν σ Unit := do
  let node ← vfsLookup L path
  Op.cleanup (setCurdir L node) (refDec L node)

end Vfs

end Ucore.PathOps
