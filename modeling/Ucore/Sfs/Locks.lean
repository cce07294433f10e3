import Mathlib.Logic.Relation
import Mathlib.Data.List.Basic
import Mathlib.Logic.Function.Basic

/-!
# Lock order of the SFS operations

Every SFS operation as the sequence of `down` and `up` it performs on `mutex_sem`, `fs_sem`,
`io_sem` and the inode semaphores (`sfs_fs.c`, `sfs_inode.c`, `sfs_io.c`), run by any number of
processes in any interleaving:

* `Code` — the remaining steps of a running operation. It branches on the shared data where
  the source does (`read`), and on what the data does not decide (`choose`): the outcome of a
  device transfer or of `kmalloc`, a number of blocks, whether a reclaim is the last one.
* `Op.code` — the operations, under the names of the source.
* `State.act` — one step of one process; a process that cannot take its next semaphore has no
  step, and `State.Waits` says whom it waits for.
-/

namespace Ucore.Locks

/-- An inode in memory: which object it is, and the `ino` it was loaded for. -/
structure Node where
  id : ℕ
  ino : ℕ
  deriving DecidableEq, Repr

inductive Sem where
  | mutex
  | fs
  | io
  | sin (x : Node)
  deriving DecidableEq, Repr

/-- What the operations read and write under their locks. -/
structure Fs where
  /-- The entries of a directory, by inode number. -/
  entries : ℕ → List (String × ℕ)
  parent : ℕ → ℕ
  isDir : ℕ → Bool
  nlinks : ℕ → ℕ
  /-- Blocks that are in use. -/
  used : ℕ → Bool
  /-- `inode_list`. -/
  cache : List Node
  dirty : Node → Bool
  /-- `SFS_removed`. -/
  removed : Node → Bool

/-- The remaining steps of an operation. -/
inductive Code where
  | done
  | down (m : Sem) (k : Code)
  | up (m : Sem) (k : Code)
  | read (k : Fs → Code)
  | write (f : Fs → Fs) (k : Code)
  | choose (k : ℕ → Code)
  /-- `vop_ref_inc` by a process that has a reference. -/
  | dup (x : Node) (k : Code)
  /-- `lookup_sfs_nolock`: goes on with the cached inode, to which it takes a reference. -/
  | lookupSfs (ino : ℕ) (k : Option Node → Code)
  /-- `alloc_inode`: a new object, with one reference. -/
  | new (ino : ℕ) (k : Node → Code)
  /-- `vop_ref_dec`: goes on with whether the count is zero now. -/
  | put (x : Node) (k : Bool → Code)
  /-- `assert(inode_ref_count(node) == 0)`. -/
  | idle (x : Node) (k : Code)

namespace Fs

def setDirty (fs : Fs) (x : Node) (b : Bool) : Fs :=
  { fs with dirty := Function.update fs.dirty x b }

/-- `sfs_block_alloc` of a block for a new inode. -/
def allocIno (fs : Fs) (ino : ℕ) (dir : Bool) : Fs :=
  { fs with
    used := Function.update fs.used ino true
    entries := Function.update fs.entries ino []
    isDir := Function.update fs.isDir ino dir
    nlinks := Function.update fs.nlinks ino 0 }

def freeIno (fs : Fs) (ino : ℕ) : Fs :=
  { fs with used := Function.update fs.used ino false }

/-- `sfs_create_inode`: `dirty` and `flags` start at 0. -/
def createInode (fs : Fs) (x : Node) : Fs :=
  { fs with
    dirty := Function.update fs.dirty x false
    removed := Function.update fs.removed x false }

def setLinks (fs : Fs) (x : Node) : Fs := { fs with cache := x :: fs.cache }

def removeLinks (fs : Fs) (x : Node) : Fs := { fs with cache := fs.cache.erase x }

/-- The cached inode of a number. -/
def lookup (fs : Fs) (ino : ℕ) : Option Node := fs.cache.find? fun x => x.ino = ino

def nlinksInc (fs : Fs) (x : Node) : Fs :=
  { fs.setDirty x true with nlinks := Function.update fs.nlinks x.ino (fs.nlinks x.ino + 1) }

def nlinksDec (fs : Fs) (x : Node) : Fs :=
  { fs.setDirty x true with nlinks := Function.update fs.nlinks x.ino (fs.nlinks x.ino - 1) }

/-- What `sfs_dirent_link_nolock` changes once the entry is written. -/
def direntLink (fs : Fs) (d : Node) (name : String) (x : Node) : Fs :=
  { (fs.setDirty d true).nlinksInc x with
    entries := Function.update fs.entries d.ino ((name, x.ino) :: fs.entries d.ino) }

/-- What `sfs_dirent_unlink_nolock` changes once the entry is cleared. -/
def direntUnlink (fs : Fs) (d : Node) (name : String) (x : Node) : Fs :=
  { (fs.setDirty d true).nlinksDec x with
    entries := Function.update fs.entries d.ino
      ((fs.entries d.ino).filter fun e => e.1 ≠ name) }

/-- What `sfs_rename1_nolock` writes. -/
def direntRename (fs : Fs) (d : Node) (name newName : String) : Fs :=
  { fs with
    entries := Function.update fs.entries d.ino
      ((fs.entries d.ino).map fun e => if e.1 = name then (newName, e.2) else e) }

def setParent (fs : Fs) (x d : Node) : Fs :=
  { fs.setDirty x true with parent := Function.update fs.parent x.ino d.ino }

def setRemoved (fs : Fs) (x : Node) : Fs :=
  { fs with removed := Function.update fs.removed x true }

/-- The directory structure is a tree: no chain of entries leads back to where it started, and
no directory is named twice. -/
structure Tree (fs : Fs) : Prop where
  acyclic : ∀ d, ¬ Relation.TransGen (fun a b => ∃ name, (name, b) ∈ fs.entries a) d d
  once : ∀ a b c e f, fs.isDir c = true → (e, c) ∈ fs.entries a → (f, c) ∈ fs.entries b →
    a = b ∧ e = f

theorem Tree.ne {fs : Fs} (h : fs.Tree) {d c : ℕ} {name : String}
    (hl : (fs.entries d).lookup name = some c) : c ≠ d := by
  intro he
  subst he
  obtain ⟨l₁, l₂, hes, -⟩ := List.lookup_eq_some_iff.mp hl
  have hmem : (name, c) ∈ fs.entries c := by rw [hes]; simp
  exact h.acyclic c (.single ⟨name, hmem⟩)

end Fs

/-! ## The operations -/

namespace Code

/-- An outcome that the data does not decide. -/
def fallible (fail ok : Code) : Code := .choose fun c => if c = 0 then ok else fail

/-- `n` transfers, each under `io_sem` (`sfs_rbuf`, `sfs_wbuf`, `sfs_rwblock`,
`sfs_clear_block`, `sfs_sync_super`). -/
def ios : ℕ → Code → Code
  | 0, k => k
  | n + 1, k => .down .io (.up .io (ios n k))

/-- Some transfers, the last of which may fail. -/
def disk (fail ok : Code) : Code := .choose fun n => ios n (fallible fail ok)

def trylockSin (x : Node) (fail ok : Code) : Code :=
  .read fun fs =>
    if fs.removed x then fail
    else .down (.sin x) (.read fun fs => if fs.removed x then .up (.sin x) fail else ok)

/-- `sfs_fsync`; goes on with whether it returned 0. -/
def fsync (x : Node) (k : Bool → Code) : Code :=
  .read fun fs =>
    if fs.nlinks x.ino = 0 ∨ fs.dirty x = false then k true
    else trylockSin x (k false) (.read fun fs =>
      if fs.dirty x then
        .write (fun fs => fs.setDirty x false) (ios 1 (fallible
          (.write (fun fs => fs.setDirty x true) (.up (.sin x) (k false)))
          (.up (.sin x) (k true))))
      else .up (.sin x) (k true))

/-- `sfs_reclaim` from `sfs_remove_links` on. -/
def reclaimKill (x : Node) (k : Code) : Code :=
  .write (fun fs => fs.removeLinks x) (.up .fs (.read fun fs =>
    if fs.nlinks x.ino = 0 then
      .write (fun fs => fs.freeIno x.ino) (.choose fun n => ios n k)
    else k))

def reclaim (x : Node) (k : Code) : Code :=
  -- `choose`: whether `reclaim_count` is still positive after this call took its part
  .down .fs (.choose fun busy =>
    if busy ≠ 0 then .up .fs k
    else .idle x (.read fun fs =>
      if fs.nlinks x.ino = 0 then .choose fun n => ios n (reclaimKill x k)
      else if fs.dirty x then fsync x fun ok => if ok then reclaimKill x k else .up .fs k
      else reclaimKill x k))

/-- `vop_ref_dec`. -/
def refDec (x : Node) (k : Code) : Code :=
  .put x fun zero => if zero then reclaim x k else k

/-- `sfs_load_inode`. -/
def loadInode (ino : ℕ) (fail : Code) (k : Node → Code) : Code :=
  .down .fs (.lookupSfs ino fun node =>
    match node with
    | some x => .up .fs (k x)
    | none =>
      fallible (.up .fs fail) (disk (.up .fs fail) (fallible (.up .fs fail)
        (.new ino fun x => .write (fun fs => (fs.createInode x).setLinks x) (.up .fs (k x))))))

/-- `sfs_dirent_search_nolock`. -/
def search (d : Node) (name : String) (fail : Code) (found : ℕ → Code) (absent : Code) : Code :=
  disk fail (.read fun fs =>
    match (fs.entries d.ino).lookup name with
    | some ino => found ino
    | none => absent)

/-- `sfs_dirent_create_inode`. -/
def direntCreateInode (dir : Bool) (fail : Code) (k : Node → Code) : Code :=
  fallible fail (.choose fun ino => .read fun fs =>
    if fs.used ino then fail
    else .write (fun fs => fs.allocIno ino dir) (ios 1 (fallible fail
      (fallible (.write (fun fs => fs.freeIno ino) fail)
        (.new ino fun x => .write (fun fs => fs.createInode x)
          (.down .fs (.write (fun fs => fs.setLinks x) (.up .fs (k x)))))))))

/-- `sfs_dirent_link_nolock`. -/
def direntLink (d : Node) (name : String) (x : Node) (fail ok : Code) : Code :=
  disk fail (.write (fun fs => fs.direntLink d name x) ok)

/-- `sfs_dirent_unlink_nolock`. -/
def direntUnlink (d : Node) (name : String) (x : Node) (fail ok : Code) : Code :=
  disk fail (.write (fun fs => fs.direntUnlink d name x) ok)

/-- The checks of a name that come before any lock. -/
def checkName (name : String) (k : Code) : Code :=
  if 255 < name.utf8ByteSize ∨ name = "." ∨ name = ".." then .done else k

def createNolock (d : Node) (name : String) (excl : Bool) (k : Code) : Code :=
  search d name k
    (fun ino =>
      if excl then k
      else loadInode ino k fun x => .read fun fs =>
        if fs.isDir x.ino then refDec x k else k)
    (direntCreateInode false k fun x => direntLink d name x (refDec x k) k)

def create (d : Node) (name : String) (excl : Bool) : Code :=
  checkName name (trylockSin d .done (createNolock d name excl (.up (.sin d) .done)))

def mkdirNolock (d : Node) (name : String) (k : Code) : Code :=
  search d name k (fun _ => k) (direntCreateInode true k fun x =>
    direntLink d name x (refDec x k)
      (.write (fun fs => ((fs.setParent x d).nlinksInc x).nlinksInc d) (refDec x k)))

def mkdir (d : Node) (name : String) : Code :=
  checkName name (trylockSin d .done (mkdirNolock d name (.up (.sin d) .done)))

def linkNolock (d : Node) (name : String) (x : Node) (k : Code) : Code :=
  search d name k (fun _ => k) (direntLink d name x k k)

def link (d : Node) (name : String) (x : Node) : Code :=
  checkName name (.read fun fs =>
    if fs.isDir x.ino then .done
    else trylockSin d .done (linkNolock d name x (.up (.sin d) .done)))

/-- The branch of `sfs_unlink_nolock` for a directory `x`. -/
def unlinkDir (d : Node) (name : String) (x : Node) (k : Code) : Code :=
  trylockSin x k (.read fun fs =>
    if (fs.entries x.ino).length ≠ 0 then .up (.sin x) k
    else direntUnlink d name x (.up (.sin x) k)
      (.write (fun fs => ((fs.setRemoved x).nlinksDec x).nlinksDec d) (.up (.sin x) k)))

def unlinkNolock (d : Node) (name : String) (k : Code) : Code :=
  search d name k
    (fun ino => loadInode ino k fun x => .read fun fs =>
      if fs.isDir x.ino then unlinkDir d name x (refDec x k)
      else direntUnlink d name x (refDec x k) (refDec x k))
    k

def unlink (d : Node) (name : String) : Code :=
  checkName name (.down .mutex (trylockSin d (.up .mutex .done)
    (unlinkNolock d name (.up (.sin d) (.up .mutex .done)))))

def rename1Nolock (d : Node) (name newName : String) (k : Code) : Code :=
  if name = newName then k
  else search d name k
    (fun _ => search d newName k (fun _ => k)
      (disk k (.write (fun fs => fs.direntRename d name newName) k)))
    k

/-- The steps of `sfs_rename2_nolock` from `sfs_dirent_unlink_nolock` on. -/
def rename2Move (d : Node) (name : String) (d' : Node) (newName : String) (x : Node)
    (k : Code) : Code :=
  direntUnlink d name x k (.read fun fs =>
    let adjust (f : Fs → Fs) (k : Code) := if fs.isDir x.ino then Code.write f k else k
    adjust (fun fs => fs.nlinksDec d) (direntLink d' newName x
      (direntLink d name x k (adjust (fun fs => fs.nlinksInc d) k))
      (adjust (fun fs => (fs.nlinksInc d').setParent x d') k)))

def rename2Nolock (d : Node) (name : String) (d' : Node) (newName : String) (k : Code) : Code :=
  search d name k
    (fun ino => search d' newName k (fun _ => k)
      (loadInode ino k fun x => rename2Move d name d' newName x (refDec x k)))
    k

def rename (d : Node) (name : String) (d' : Node) (newName : String) : Code :=
  checkName name (checkName newName (.down .mutex (trylockSin d (.up .mutex .done)
    (if d = d' then rename1Nolock d name newName (.up (.sin d) (.up .mutex .done))
     else trylockSin d' (.up (.sin d) (.up .mutex .done))
       (rename2Nolock d name d' newName
         (.up (.sin d') (.up (.sin d) (.up .mutex .done))))))))

/-- `sfs_lookup_once`. -/
def lookupOnce (d : Node) (name : String) (fail : Code) (k : Node → Code) : Code :=
  trylockSin d fail (search d name (.up (.sin d) fail)
    (fun ino => .up (.sin d) (loadInode ino fail k)) (.up (.sin d) fail))

/-- The loop of `sfs_lookup` over the components of the path, from a directory it has a
reference to. -/
def lookupFrom : Node → List String → Code
  | _, [] => .done
  | d, name :: path => .read fun fs =>
    if fs.isDir d.ino = false then refDec d .done
    else if name = "." then lookupFrom d path
    else if name = ".." then
      loadInode (fs.parent d.ino) (refDec d .done) fun x => refDec d (lookupFrom x path)
    else if 255 < name.utf8ByteSize then refDec d .done
    else lookupOnce d name (refDec d .done) fun x => refDec d (lookupFrom x path)

def lookup (d : Node) (path : List String) : Code := .dup d (lookupFrom d path)

/-- `sfs_read` and `sfs_write`. -/
def sfsIo (x : Node) : Code :=
  trylockSin x .done (disk (.up (.sin x) .done) (.up (.sin x) .done))

def truncfile (x : Node) : Code :=
  -- `choose`: whether the file has that size already
  fallible .done (trylockSin x .done (disk (.up (.sin x) .done)
    (.write (fun fs => fs.setDirty x true) (.up (.sin x) .done))))

/-- `sfs_sync` over the rest of `inode_list`. -/
def syncList : List Node → Code
  | [] => .up .fs (.choose fun n => ios n .done)
  | x :: l => fsync x fun _ => syncList l

def sync : Code := .down .fs (.read fun fs => syncList fs.cache)

end Code

inductive Op where
  | sync
  | create (d : Node) (name : String) (excl : Bool)
  | mkdir (d : Node) (name : String)
  | link (d : Node) (name : String) (x : Node)
  | unlink (d : Node) (name : String)
  | rename (d : Node) (name : String) (d' : Node) (newName : String)
  | lookup (d : Node) (path : List String)
  | io (x : Node)
  | truncfile (x : Node)
  | fsync (x : Node)
  /-- A reference is dropped, which may reclaim the inode. -/
  | drop (x : Node)

namespace Op

def code : Op → Code
  | sync => .sync
  | create d name excl => .create d name excl
  | mkdir d name => .mkdir d name
  | link d name x => .link d name x
  | unlink d name => .unlink d name
  | rename d name d' newName => .rename d name d' newName
  | lookup d path => .lookup d path
  | io x => .sfsIo x
  | truncfile x => .truncfile x
  | fsync x => .fsync x fun _ => .done
  | drop x => .refDec x .done

/-- The inodes an operation is called with. -/
def args : Op → List Node
  | sync => []
  | create d _ _ => [d]
  | mkdir d _ => [d]
  | link d _ x => [d, x]
  | unlink d _ => [d]
  | rename d _ d' _ => [d, d']
  | lookup d _ => [d]
  | io x => [x]
  | truncfile x => [x]
  | fsync x => [x]
  | drop x => [x]

end Op

/-- A process: the operation it runs or ran last, what remains of it, the semaphores and the
references it has. -/
structure Proc where
  op : Op
  code : Code
  held : List Sem
  mine : List Node

structure State (n : ℕ) where
  fs : Fs
  /-- Objects from here on have not been allocated yet. -/
  next : ℕ
  proc : Fin n → Proc

inductive Act (n : ℕ) where
  | start (p : Fin n) (op : Op)
  /-- The next step of a running operation; `c` is what a `choose` gets. -/
  | run (p : Fin n) (c : ℕ)
  /-- A reference of `p` is given to `q` as well, as `fork` does for the new process. -/
  | share (p q : Fin n) (x : Node)

namespace State

variable {n : ℕ}

def Free (s : State n) (m : Sem) : Prop := ∀ q, m ∉ (s.proc q).held

/-- `inode_ref_count` is 0. -/
def Unref (s : State n) (x : Node) : Prop := ∀ q, x ∉ (s.proc q).mine

instance (s : State n) (m : Sem) : Decidable (s.Free m) := by unfold Free; infer_instance

instance (s : State n) (x : Node) : Decidable (s.Unref x) := by unfold Unref; infer_instance

def setProc (s : State n) (p : Fin n) (pr : Proc) : State n :=
  { s with proc := Function.update s.proc p pr }

def run (s : State n) (p : Fin n) (c : ℕ) : Option (State n) :=
  let pr := s.proc p
  match pr.code with
  | .done => none
  | .down m k =>
    if s.Free m then some (s.setProc p { pr with code := k, held := m :: pr.held }) else none
  | .up m k =>
    if m ∈ pr.held then some (s.setProc p { pr with code := k, held := pr.held.erase m })
    else none
  | .read k => some (s.setProc p { pr with code := k s.fs })
  | .write f k => some { s.setProc p { pr with code := k } with fs := f s.fs }
  | .choose k => some (s.setProc p { pr with code := k c })
  | .dup x k =>
    if x ∈ pr.mine then some (s.setProc p { pr with code := k, mine := x :: pr.mine }) else none
  | .lookupSfs ino k =>
    match s.fs.lookup ino with
    | some x => some (s.setProc p { pr with code := k (some x), mine := x :: pr.mine })
    | none => some (s.setProc p { pr with code := k none })
  | .new ino k =>
    some { s.setProc p { pr with code := k ⟨s.next, ino⟩, mine := ⟨s.next, ino⟩ :: pr.mine } with
      next := s.next + 1 }
  | .put x k =>
    if x ∈ pr.mine then
      let s' := s.setProc p { pr with mine := pr.mine.erase x }
      some (s'.setProc p { s'.proc p with code := k (decide (s'.Unref x)) })
    else none
  | .idle x k => if s.Unref x then some (s.setProc p { pr with code := k }) else none

def act (s : State n) : Act n → Option (State n)
  | .start p op =>
    match (s.proc p).code with
    | .done =>
      if op.args ⊆ (s.proc p).mine then
        some (s.setProc p { s.proc p with op := op, code := op.code })
      else none
    | _ => none
  | .run p c => s.run p c
  | .share p q x =>
    match (s.proc q).code with
    | .done =>
      if x ∈ (s.proc p).mine then
        some (s.setProc q { s.proc q with mine := x :: (s.proc q).mine })
      else none
    | _ => none

/-- Process `p` waits for a semaphore that `q` has. -/
def Waits (s : State n) (p q : Fin n) : Prop :=
  ∃ m k, (s.proc p).code = .down m k ∧ m ∈ (s.proc q).held

/-- No operation is running. -/
structure Quiescent (s : State n) : Prop where
  done : ∀ p, (s.proc p).code = .done
  free : ∀ p, (s.proc p).held = []
  cached : ∀ x ∈ s.fs.cache, x.id < s.next
  refs : ∀ p, ∀ x ∈ (s.proc p).mine, x.id < s.next

end State

end Ucore.Locks
