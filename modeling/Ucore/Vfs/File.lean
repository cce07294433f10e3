import Mathlib.Data.List.Basic
import Mathlib.Logic.Function.Basic
import Ucore.Mm.Layout

/-!
# Files of a process

Reference model of `kern/fs/file.c`, of `dup_fs`, `fs_closeall` and `fs_destroy` (`kern/fs/fs.c`), of
`vfs_open` and `vfs_close` (`kern/fs/vfs/vfsfile.c`) and of the counters of `kern/fs/vfs/inode.c`, for
threads that share tables of files.  A thread gives up the processor only inside a function of a file
system; here it may do so at every program point `Pc`, which is more often.

* `File`, `Inode`, `Threads` — the tables, the inodes and where each thread is;
* `Threads.step` — what a thread does between two program points; `none` is a failed assertion;
* `Life` — what a descriptor is for: it is opened, used, closed, and then `vfs_close` is called.
-/

namespace Ucore.Vfs

/-- `E_BUSY`. -/
def E_BUSY : Int := 15

/-- `E_MAX_OPEN`. -/
def E_MAX_OPEN : Int := 22

/-- `NO_FD`. -/
def NO_FD : Int := -0x9527

def O_WRONLY : ℕ := 1

def O_RDWR : ℕ := 2

def O_ACCMODE : ℕ := 3

def O_TRUNC : ℕ := 0x10

def O_APPEND : ℕ := 0x20

/-- `FS_STRUCT_NENTRY`: a page holds a `struct fs_struct` (32 bytes) and these many `struct file`. -/
def FS_STRUCT_NENTRY : ℕ := (4096 - 32) / 28

inductive Status where
  | none
  | init
  | opened
  | closed
  deriving DecidableEq, Repr

/-- `struct file`; its `fd` is its index in the table. -/
structure File where
  status : Status
  readable : Bool
  writable : Bool
  pos : Int
  node : Option ℕ
  openCount : ℕ

/-- A table, and an index in it. -/
abbrev Slot := ℕ × ℕ

/-- Where an inode comes from; `pipe` is an end of `pipe_open`, `fifo` has a name. -/
inductive Kind where
  | device
  | pipe
  | fifo
  | sfs
  deriving DecidableEq, Repr

/-- `struct inode`.  It is `dying` while `sfs_reclaim` takes it down. -/
structure Inode where
  kind : Kind
  refCount : ℕ
  openCount : ℕ
  reclaimCount : ℕ
  alive : Bool
  dying : Bool

/-- An operation between `filemap_acquire` and `filemap_release`. -/
inductive Op where
  | read
  | write
  /-- the place is known before the file system is asked -/
  | seek (pos : Int)
  | seekEnd (pos : Int)
  /-- the value of `whence` is none of the three -/
  | seekInval
  deriving DecidableEq, Repr

/-- What follows `filemap_close`, `filemap_release` and `filemap_free`. -/
inductive Next where
  | ret (ret : Int)
  /-- `filemap_free` of the other end of a pipe -/
  | free (x : Slot) (ret : Int)
  | closeall (table i : ℕ)
  | destroy (table i : ℕ)
  deriving DecidableEq, Repr

/-- What follows `vop_ref_dec`. -/
inductive After where
  | done
  /-- `filemap_free` of a file that has not been opened -/
  | free (x : Slot) (next : Next)
  /-- the end of `filemap_free` -/
  | freed (x : Slot) (next : Next)
  deriving DecidableEq, Repr

/-- Where a thread is. -/
inductive Pc where
  | run
  /-- `file_open`: `vfs_lookup` or `vop_create` -/
  | lookup (x : Slot) (flags : ℕ)
  | vopOpen (x : Slot) (flags node : ℕ)
  | truncate (x : Slot) (flags node : ℕ)
  | fstat (x : Slot) (flags node : ℕ)
  /-- `file_pipe`: `pipe_open` -/
  | pipe (x y : Slot)
  /-- an operation has acquired the file -/
  | io (x : Slot) (op : Op)
  /-- before `vop_open_dec` in `vfs_close` -/
  | vfsClose (node : ℕ) (after : After)
  /-- in `vop_close` -/
  | vopClose (node : ℕ) (after : After)
  /-- before `vop_ref_dec` -/
  | refDec (node : ℕ) (after : After)
  /-- in `vop_reclaim` -/
  | reclaim (node : ℕ) (after : After)
  /-- in `sfs_reclaim`, with the lock of the file system -/
  | dying (node : ℕ) (after : After)
  | free (x : Slot) (next : Next)
  | freed (x : Slot) (next : Next)
  /-- the loop of `fs_closeall` -/
  | closeall (table i : ℕ)
  /-- the loop of `fs_destroy` -/
  | destroy (table i : ℕ)
  /-- the assertion in it -/
  | destroyCheck (table i : ℕ)
  deriving DecidableEq, Repr

def After.pc : After → Pc
  | .done => .run
  | .free x next => .free x next
  | .freed x next => .freed x next

/-! ## What a descriptor is for -/

/-- What happens to a descriptor. -/
inductive Event where
  | opened
  | began
  | finished
  | closed
  | vfsClose
  deriving DecidableEq, Repr

/-- The life of a descriptor, with the number of operations in flight. -/
inductive Life where
  | idle
  | opened (ops : ℕ)
  | closed (ops : ℕ)
  deriving DecidableEq, Repr

/-- `vfs_close` comes after the descriptor has been closed and the last operation has finished. -/
def Life.next : Life → Event → Option Life
  | .idle, .opened => some (.opened 0)
  | .opened k, .began => some (.opened (k + 1))
  | .opened (k + 1), .finished => some (.opened k)
  | .opened k, .closed => some (.closed k)
  | .closed (k + 1), .finished => some (.closed k)
  | .closed 0, .vfsClose => some .idle
  | _, _ => none

/-- The life of the descriptor `x` after the events of a log, newest first; `none` if they cannot have
come in this order. -/
def lifeOf (x : Slot) : List (Slot × Event) → Option Life
  | [] => some .idle
  | (y, e) :: log => if y = x then (lifeOf x log).bind (·.next e) else lifeOf x log

/-! ## The system -/

/-- The tables of files, the inodes, the references to inodes that other code holds, and for each thread
its table, where it is and what its last call has returned. -/
structure Threads where
  file : Slot → File
  fsCount : ℕ → ℕ
  inode : ℕ → Inode
  others : ℕ → ℕ
  table : ℕ → Option ℕ
  pc : ℕ → Pc
  ret : ℕ → Int
  log : List (Slot × Event)

/-- What the functions of a file system answer: an error or zero, the result of `vop_fstat`, the size of
the file, the number of bytes read or written, and inodes. -/
structure Env where
  ret : Int
  fstat : Int
  size : Int
  copied : ℕ
  node : ℕ
  wnode : ℕ

namespace Threads

variable (s : Threads)

def setPc (t : ℕ) (pc : Pc) : Threads := { s with pc := Function.update s.pc t pc }

def setFile (x : Slot) (f : File) : Threads := { s with file := Function.update s.file x f }

def setInode (n : ℕ) (i : Inode) : Threads := { s with inode := Function.update s.inode n i }

def happens (x : Slot) (e : Event) : Threads := { s with log := (x, e) :: s.log }

/-- A call returns. -/
def leave (t : ℕ) (ret : Int) : Threads :=
  { s.setPc t .run with ret := Function.update s.ret t ret }

/-! ## Inodes -/

/-- `vop_ref_inc`. -/
def refInc (n : ℕ) : Threads :=
  s.setInode n { s.inode n with refCount := (s.inode n).refCount + 1 }

/-- `vop_open_inc`. -/
def openInc (n : ℕ) : Threads :=
  s.setInode n { s.inode n with openCount := (s.inode n).openCount + 1 }

/-- What a file system does when it finds an inode that it has in memory. -/
def found (n : ℕ) : Threads :=
  let i := s.inode n
  s.setInode n { i with
    refCount := i.refCount + 1
    reclaimCount :=
      if (i.kind = .sfs ∨ i.kind = .fifo) ∧ i.refCount + 1 = 1 then i.reclaimCount + 1
      else i.reclaimCount }

/-- `vop_init`, and the fields of the file system. -/
def vopInit (n : ℕ) (kind : Kind) : Threads := s.setInode n ⟨kind, 1, 0, 1, true, false⟩

/-- `inode_kill`. -/
def inodeKill (n : ℕ) : Option Threads := do
  guard ((s.inode n).refCount = 0)
  guard ((s.inode n).openCount = 0)
  return s.setInode n { s.inode n with alive := false, dying := false }

/-- `vop_open_dec`, the first half of `vfs_close`. -/
def openDec (t n : ℕ) (after : After) : Option Threads := do
  guard (0 < (s.inode n).openCount)
  let s := s.setInode n { s.inode n with openCount := (s.inode n).openCount - 1 }
  if (s.inode n).openCount = 0 then return s.setPc t (.vopClose n after)
  else return s.setPc t (.refDec n after)

/-- `vop_ref_dec`. -/
def refDec (t n : ℕ) (after : After) : Option Threads := do
  guard (0 < (s.inode n).refCount)
  let s := s.setInode n { s.inode n with refCount := (s.inode n).refCount - 1 }
  if (s.inode n).refCount = 0 then return s.setPc t (.reclaim n after)
  else return s.setPc t after.pc

/-- `vop_reclaim`: nothing for a device, `pipe_inode_reclaim`, and `sfs_reclaim` up to the decision to
take the inode down. -/
def vopReclaim (t n : ℕ) (after : After) : Option Threads :=
  let i := s.inode n
  match i.kind with
  | .device => some (s.setPc t after.pc)
  | .pipe => (s.inodeKill n).map (·.setPc t after.pc)
  | .fifo => do
    guard (0 < i.reclaimCount)
    let s := s.setInode n { i with reclaimCount := i.reclaimCount - 1 }
    if i.reclaimCount - 1 ≠ 0 ∨ i.refCount ≠ 0 then return s.setPc t after.pc
    else
      let s ← s.inodeKill n
      return s.setPc t after.pc
  | .sfs => do
    guard (0 < i.reclaimCount)
    if i.reclaimCount - 1 ≠ 0 then
      return (s.setInode n { i with reclaimCount := i.reclaimCount - 1 }).setPc t after.pc
    else
      guard (i.refCount = 0 ∧ i.openCount = 0)
      return (s.setInode n { i with reclaimCount := i.reclaimCount - 1, dying := true }).setPc t
        (.dying n after)

/-! ## `filemap` -/

/-- `testfd`. -/
def testfd (fd : Int) : Bool := decide (0 ≤ fd ∧ fd < FS_STRUCT_NENTRY)

/-- `get_filemap`. -/
def getFilemap (t : ℕ) : Option ℕ := do
  let table ← s.table t
  guard (0 < s.fsCount table)
  return table

/-- `fd2file`; `none` stands for `-E_INVAL`. -/
def fd2file (table : ℕ) (fd : Int) : Option Slot :=
  if testfd fd ∧ (s.file (table, fd.toNat)).status = .opened then some (table, fd.toNat) else none

/-- The search of `filemap_alloc`. -/
def filemapFind (table : ℕ) (fd : Int) : Except Int Slot :=
  if fd = NO_FD then
    match (List.range FS_STRUCT_NENTRY).find? fun i => decide ((s.file (table, i)).status = .none) with
    | some i => .ok (table, i)
    | none => .error (-E_MAX_OPEN)
  else if testfd fd then
    if (s.file (table, fd.toNat)).status = .none then .ok (table, fd.toNat) else .error (-E_BUSY)
  else .error (-E_INVAL)

/-- `filemap_alloc` from `found` on. -/
def filemapInit (x : Slot) : Option Threads := do
  guard ((s.file x).openCount = 0)
  return s.setFile x { s.file x with status := .init, node := none }

/-- What follows. -/
def next (t : ℕ) : Next → Threads
  | .ret ret => s.leave t ret
  | .free x ret => s.setPc t (.free x (.ret ret))
  | .closeall table i => s.setPc t (.closeall table i)
  | .destroy table i => s.setPc t (.destroyCheck table i)

/-- `filemap_free`, up to `vfs_close`. -/
def filemapFree (t : ℕ) (x : Slot) (next : Next) : Option Threads := do
  let f := s.file x
  guard (f.status = .init ∨ f.status = .closed)
  guard (f.openCount = 0)
  if f.status = .closed then
    let n ← f.node
    return (s.happens x .vfsClose).setPc t (.vfsClose n (.freed x next))
  else return (s.setFile x { f with status := .none }).next t next

/-- `filemap_acquire`. -/
def filemapAcquire (x : Slot) : Option Threads := do
  let f := s.file x
  guard (f.status = .opened)
  return (s.setFile x { f with openCount := f.openCount + 1 }).happens x .began

/-- `filemap_release`. -/
def filemapRelease (t : ℕ) (x : Slot) (next : Next) : Option Threads := do
  let f := s.file x
  guard (f.status = .opened ∨ f.status = .closed)
  guard (0 < f.openCount)
  let s := (s.setFile x { f with openCount := f.openCount - 1 }).happens x .finished
  if f.openCount - 1 = 0 then s.filemapFree t x next else return s.next t next

/-- `filemap_open`. -/
def filemapOpen (x : Slot) : Option Threads := do
  let f := s.file x
  guard (f.status = .init ∧ f.node ≠ none)
  return (s.setFile x { f with status := .opened, openCount := f.openCount + 1 }).happens x .opened

/-- `filemap_close`. -/
def filemapClose (t : ℕ) (x : Slot) (next : Next) : Option Threads := do
  let f := s.file x
  guard (f.status = .opened)
  guard (0 < f.openCount)
  let s := (s.setFile x { f with status := .closed, openCount := f.openCount - 1 }).happens x .closed
  if f.openCount - 1 = 0 then s.filemapFree t x next else return s.next t next

/-- `filemap_dup`. -/
def filemapDup (dst src : Slot) : Option Threads := do
  let f := s.file src
  guard ((s.file dst).status = .init ∧ f.status = .opened)
  let n ← f.node
  let s := s.setFile dst { s.file dst with
    pos := f.pos, readable := f.readable, writable := f.writable, node := some n }
  ((s.refInc n).openInc n).filemapOpen dst

end Threads

end Ucore.Vfs
