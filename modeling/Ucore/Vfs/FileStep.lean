import Ucore.Vfs.File

/-!
# Calls on files, step by step

`file_open`, `file_close`, `file_read`, `file_write`, `file_seek`, `file_dup` and `file_pipe`
(`kern/fs/file.c`), `fs_closeall`, `dup_fs`, `fs_destroy` (`kern/fs/fs.c`), and how `do_fork`, `do_execve`
and `do_exit` use them (`kern/process/proc.c`).
-/

namespace Ucore.Vfs

namespace Threads

variable (s : Threads)

/-! ## `file_open` -/

/-- `readable` in `file_open`. -/
def readable (flags : ℕ) : Bool := decide (flags &&& O_ACCMODE = 0 ∨ flags &&& O_ACCMODE = O_RDWR)

/-- `writable`, and `can_write` in `vfs_open`. -/
def writable (flags : ℕ) : Bool := decide (flags &&& O_ACCMODE = O_WRONLY ∨ flags &&& O_ACCMODE = O_RDWR)

def fileOpen (t flags : ℕ) : Option Threads :=
  if flags &&& O_ACCMODE = O_ACCMODE then some (s.leave t (-E_INVAL))
  else do
    let table ← s.getFilemap t
    match s.filemapFind table NO_FD with
    | .error e => return s.leave t e
    | .ok x => (← s.filemapInit x).setPc t (.lookup x flags)

/-- The end of `file_open`. -/
def fileOpened (t : ℕ) (x : Slot) (flags n : ℕ) (pos : Int) : Option Threads := do
  let s ← (s.setFile x { s.file x with
    pos := pos, node := some n, readable := readable flags, writable := writable flags }).filemapOpen x
  return s.leave t x.2

/-- `file_open` after `vfs_open`. -/
def vfsOpened (t : ℕ) (x : Slot) (flags n : ℕ) : Option Threads :=
  if flags &&& O_APPEND ≠ 0 then some (s.setPc t (.fstat x flags n)) else s.fileOpened t x flags n 0

/-- `vfs_open` from `vop_open_inc` on. -/
def vfsOpen (t : ℕ) (x : Slot) (flags n : ℕ) : Option Threads :=
  let s := s.openInc n
  if flags &&& O_TRUNC ≠ 0 then some (s.setPc t (.truncate x flags n)) else s.vfsOpened t x flags n

/-! ## The other calls -/

def fileClose (t : ℕ) (fd : Int) : Option Threads := do
  match s.fd2file (← s.getFilemap t) fd with
  | none => return s.leave t (-E_INVAL)
  | some x => s.filemapClose t x (.ret 0)

/-- `file_read`, up to `vop_read`. -/
def fileRead (t : ℕ) (fd : Int) : Option Threads := do
  match s.fd2file (← s.getFilemap t) fd with
  | none => return s.leave t (-E_INVAL)
  | some x =>
    if (s.file x).readable then (← s.filemapAcquire x).setPc t (.io x .read)
    else return s.leave t (-E_INVAL)

/-- `file_write`, up to `vop_write`. -/
def fileWrite (t : ℕ) (fd : Int) : Option Threads := do
  match s.fd2file (← s.getFilemap t) fd with
  | none => return s.leave t (-E_INVAL)
  | some x =>
    if (s.file x).writable then (← s.filemapAcquire x).setPc t (.io x .write)
    else return s.leave t (-E_INVAL)

/-- `switch (whence)` in `file_seek`. -/
def seekOp (f : File) (pos whence : Int) : Op :=
  if whence = 0 then .seek pos
  else if whence = 1 then .seek (pos + f.pos)
  else if whence = 2 then .seekEnd pos
  else .seekInval

/-- `file_seek`, up to the first call of a file system. -/
def fileSeek (t : ℕ) (fd pos whence : Int) : Option Threads := do
  match s.fd2file (← s.getFilemap t) fd with
  | none => return s.leave t (-E_INVAL)
  | some x => (← s.filemapAcquire x).setPc t (.io x (seekOp (s.file x) pos whence))

def fileDup (t : ℕ) (fd1 fd2 : Int) : Option Threads := do
  match s.fd2file (← s.getFilemap t) fd1 with
  | none => return s.leave t (-E_INVAL)
  | some x =>
    match s.filemapFind (← s.getFilemap t) fd2 with
    | .error e => return s.leave t e
    | .ok y =>
      let s ← (← s.filemapInit y).filemapDup y x
      return s.leave t y.2

/-- `file_pipe`, up to `pipe_open`. -/
def filePipe (t : ℕ) : Option Threads := do
  match s.filemapFind (← s.getFilemap t) NO_FD with
  | .error e => return s.leave t e
  | .ok x =>
    let s ← s.filemapInit x
    match s.filemapFind (← s.getFilemap t) NO_FD with
    | .error e => s.filemapFree t x (.ret e)
    | .ok y => (← s.filemapInit y).setPc t (.pipe x y)

/-- One end of a new pipe. -/
def pipeEnd (x : Slot) (n : ℕ) (reader : Bool) : Option Threads :=
  (s.setFile x { s.file x with
    pos := 0, node := some n, readable := reader, writable := !reader }).filemapOpen x

/-- `file_pipe` after `pipe_open`; the references to the new inodes go to the files. -/
def filePiped (env : Env) (t : ℕ) (x y : Slot) : Option Threads := do
  let s := { s with others := Function.update s.others env.node (s.others env.node - 1) }
  let s := { s with others := Function.update s.others env.wnode (s.others env.wnode - 1) }
  let s := (s.openInc env.node).openInc env.wnode
  let s ← s.pipeEnd x env.node true
  let s ← s.pipeEnd y env.wnode false
  return s.leave t 0

/-- What an operation does when the file system has answered. -/
def ioPos (f : File) (env : Env) : Op → Int × Int
  | .read | .write => (env.ret, if f.status = .opened then f.pos + env.copied else f.pos)
  | .seek pos => (env.ret, if env.ret = 0 then pos else f.pos)
  | .seekEnd pos =>
    if env.fstat = 0 then (env.ret, if env.ret = 0 then pos + env.size else f.pos)
    else (env.fstat, f.pos)
  | .seekInval => (-E_INVAL, f.pos)

def ioEnd (env : Env) (t : ℕ) (x : Slot) (op : Op) : Option Threads :=
  let f := s.file x
  (s.setFile x { f with pos := (ioPos f env op).2 }).filemapRelease t x (.ret (ioPos f env op).1)

/-! ## Tables -/

/-- The body of the loop of `fs_closeall`. -/
def closeallStep (t table i : ℕ) : Option Threads :=
  if i < FS_STRUCT_NENTRY then
    if (s.file (table, i)).status = .opened then s.filemapClose t (table, i) (.closeall table (i + 1))
    else some (s.setPc t (.closeall table (i + 1)))
  else some (s.leave t 0)

/-- The body of the loop of `fs_destroy`. -/
def destroyStep (t table i : ℕ) : Option Threads :=
  if i < FS_STRUCT_NENTRY then
    if (s.file (table, i)).status = .opened then s.filemapClose t (table, i) (.destroy table i)
    else some (s.setPc t (.destroyCheck table i))
  else some (s.leave t 0)

/-- The body of the loop of `dup_fs`. -/
def dupFile (dst src i : ℕ) : Option Threads :=
  if (s.file (src, i)).status = .opened then
    (s.setFile (dst, i) { s.file (dst, i) with status := .init }).filemapDup (dst, i) (src, i)
  else some s

/-- `dup_fs`. -/
def dupFs (dst src : ℕ) : Option Threads := do
  guard (s.fsCount dst = 0 ∧ 0 < s.fsCount src)
  (List.range FS_STRUCT_NENTRY).foldlM (fun s i => s.dupFile dst src i) s

/-- The new thread `u` has the table. -/
def join (u table : ℕ) : Threads :=
  { s with
    fsCount := Function.update s.fsCount table (s.fsCount table + 1)
    table := Function.update s.table u (some table) }

/-- `copy_fs`: the new thread shares the table of `t`, or gets a copy. -/
def copyFs (t u : ℕ) : Option ℕ → Option Threads
  | none => do
    let table ← s.table t
    return s.join u table
  | some dst => do
    let src ← s.table t
    return (← s.dupFs dst src).join u dst

/-- `put_fs`. -/
def putFs (t : ℕ) : Option Threads := do
  let table ← s.table t
  let s := { s with
    fsCount := Function.update s.fsCount table (s.fsCount table - 1)
    table := Function.update s.table t none }
  if s.fsCount table = 0 then return s.setPc t (.destroy table 0) else return s

/-! ## Steps -/

/-- A thread goes on. -/
def go (env : Env) (t : ℕ) : Option Threads :=
  match s.pc t with
  | .run => none
  | .lookup x flags =>
    if flags &&& O_TRUNC ≠ 0 ∧ writable flags = false then some (s.setPc t (.free x (.ret (-E_INVAL))))
    else if env.ret ≠ 0 then some (s.setPc t (.free x (.ret env.ret)))
    else some ({ s with
      others := Function.update s.others env.node (s.others env.node - 1) }.setPc t (.vopOpen x flags env.node))
  | .vopOpen x flags n =>
    if env.ret ≠ 0 then some (s.setPc t (.refDec n (.free x (.ret env.ret)))) else s.vfsOpen t x flags n
  | .truncate x flags n =>
    if env.ret ≠ 0 then some (s.setPc t (.vfsClose n (.free x (.ret env.ret))))
    else s.vfsOpened t x flags n
  | .fstat x flags n =>
    if env.ret ≠ 0 then some (s.setPc t (.vfsClose n (.free x (.ret env.ret))))
    else s.fileOpened t x flags n env.size
  | .pipe x y =>
    if env.ret ≠ 0 then some (s.setPc t (.free x (.free y env.ret))) else s.filePiped env t x y
  | .io x op => s.ioEnd env t x op
  | .vfsClose n after => s.openDec t n after
  | .vopClose n after => some (s.setPc t (.refDec n after))
  | .refDec n after => s.refDec t n after
  | .reclaim n after => s.vopReclaim t n after
  | .dying n after =>
    if env.ret = 0 then (s.inodeKill n).map (·.setPc t after.pc)
    else some ((s.setInode n { s.inode n with dying := false }).setPc t after.pc)
  | .free x next => s.filemapFree t x next
  | .freed x next => some ((s.setFile x { s.file x with status := .none }).next t next)
  | .closeall table i => s.closeallStep t table i
  | .destroy table i => s.destroyStep t table i
  | .destroyCheck table i => do
    guard ((s.file (table, i)).status = .none)
    return s.setPc t (.destroy table (i + 1))

end Threads

/-- What can happen next. -/
inductive Action where
  | open (t flags : ℕ)
  | close (t : ℕ) (fd : Int)
  | read (t : ℕ) (fd : Int)
  | write (t : ℕ) (fd : Int)
  | seek (t : ℕ) (fd pos whence : Int)
  | dup (t : ℕ) (fd1 fd2 : Int)
  | pipe (t : ℕ)
  /-- `fs_closeall` in `do_execve` -/
  | closeall (t : ℕ)
  /-- `copy_fs` in `do_fork`, for the new thread `u` -/
  | fork (t u : ℕ) (dst : Option ℕ)
  /-- `put_fs` in `do_exit` -/
  | exit (t : ℕ)
  | go (env : Env) (t : ℕ)
  /-- a file system makes an inode -/
  | create (n : ℕ) (kind : Kind)
  /-- a file system finds an inode in memory, or who has a reference takes another -/
  | found (n : ℕ)
  /-- other code gives up a reference -/
  | drop (t n : ℕ)

/-- What follows is the loop of `fs_destroy`, for this table. -/
def Next.destroys : Next → Option ℕ
  | .destroy table _ => some table
  | _ => none

def After.destroys : After → Option ℕ
  | .done => none
  | .free _ next | .freed _ next => next.destroys

/-- The thread is in `fs_destroy` for this table. -/
def Pc.destroys : Pc → Option ℕ
  | .vfsClose _ after | .vopClose _ after | .refDec _ after | .reclaim _ after | .dying _ after =>
    after.destroys
  | .free _ next | .freed _ next => next.destroys
  | .destroy table _ | .destroyCheck table _ => some table
  | _ => none

namespace Threads

variable (s : Threads)

/-- A table that `fs_create` has made. -/
structure NewTable (table : ℕ) : Prop where
  fsCount : s.fsCount table = 0
  destroys : ∀ t, (s.pc t).destroys ≠ some table
  file : ∀ i, (s.file (table, i)).status = .none ∧ (s.file (table, i)).openCount = 0

/-- When an action can happen. -/
def Enabled : Action → Prop
  | .open t _ | .close t _ | .read t _ | .write t _ | .seek t _ _ _ | .dup t _ _ | .pipe t | .closeall t
  | .exit t => s.pc t = .run ∧ s.table t ≠ none
  | .fork t u dst => s.pc t = .run ∧ s.table t ≠ none ∧ s.pc u = .run ∧ s.table u = none ∧
      ∀ table, dst = some table → s.NewTable table
  | .go env t =>
    match s.pc t with
    | .run => False
    | .lookup _ _ => env.ret = 0 → 0 < s.others env.node
    | .pipe _ _ => env.ret = 0 → env.node ≠ env.wnode ∧ 0 < s.others env.node ∧ 0 < s.others env.wnode
    | _ => True
  | .create n _ => (s.inode n).alive = false
  | .found n => (s.inode n).alive = true ∧ (s.inode n).dying = false ∧
      ((s.inode n).kind = .pipe → 0 < (s.inode n).refCount)
  | .drop t n => s.pc t = .run ∧ 0 < s.others n

def step : Action → Option Threads
  | .open t flags => s.fileOpen t flags
  | .close t fd => s.fileClose t fd
  | .read t fd => s.fileRead t fd
  | .write t fd => s.fileWrite t fd
  | .seek t fd pos whence => s.fileSeek t fd pos whence
  | .dup t fd1 fd2 => s.fileDup t fd1 fd2
  | .pipe t => s.filePipe t
  | .closeall t => do
    let table ← s.getFilemap t
    return s.setPc t (.closeall table 2)
  | .fork t u dst => s.copyFs t u dst
  | .exit t => s.putFs t
  | .go env t => s.go env t
  | .create n kind => some { s.vopInit n kind with others := Function.update s.others n (s.others n + 1) }
  | .found n => some { s.found n with others := Function.update s.others n (s.others n + 1) }
  | .drop t n => some ({ s with others := Function.update s.others n (s.others n - 1) }.setPc t
      (.refDec n .done))

/-- `idleproc` has a table without files. -/
def boot : Threads where
  file _ := ⟨.none, false, false, 0, none, 0⟩
  fsCount := Function.update (fun _ => 0) 0 1
  inode _ := ⟨.device, 0, 0, 0, false, false⟩
  others _ := 0
  table := Function.update (fun _ => none) 0 (some 0)
  pc _ := .run
  ret _ := 0
  log := []

end Threads

/-- The states that a run can reach. -/
inductive Reaches : Threads → Prop where
  | boot : Reaches .boot
  | step {s s' : Threads} (a : Action) : Reaches s → s.Enabled a → s.step a = some s' → Reaches s'

end Ucore.Vfs
