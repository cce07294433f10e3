import Mathlib.Algebra.Group.Int.Defs
import Mathlib.Algebra.Group.Prod
import Mathlib.Algebra.Group.Action.Defs
import Ucore.Mm.Vmm
import Ucore.Vfs.File

/-!
# The kernel objects that `do_fork` copies or shares

Reference model of the allocations, the reference counts and the teardown that `do_fork` uses outside
the page tables: `kern/sync/sem.c` (`semu_create`, `dup_sem_queue`, `exit_sem_queue`), `kern/fs/fs.c`
(`fs_create`, `dup_fs`, `fs_destroy`), `filemap_dup` and `filemap_close` of `kern/fs/file.c`, and
`copy_sem`, `put_sem_queue`, `copy_fs`, `put_fs` of `kern/process/proc.c`.

* A `Heap` has the objects that `kmalloc` has given out, by their address.  `kmalloc` returns `NULL`
  or any address that is not in use, as an argument decides.
* All counters of an object are in one place, `Counters`; the contents of a `vma_struct` are in the
  `Mm` of its address space.
* `do_fork` is one step here: a semaphore that it would have to wait for has no result, like a failed
  assertion or the use of `NULL` or of a freed object.
-/

namespace Ucore.Fork

open Vfs (File FS_STRUCT_NENTRY)

def CLONE_VM : UInt32 := 0x00000100

def CLONE_SEM : UInt32 := 0x00000400

def CLONE_FS : UInt32 := 0x00000800

/-- The reference count of an object, the `open_count` of an inode, and the value of its
semaphore. -/
abbrev Counters := ℤ × ℤ × ℤ

/-- One reference. -/
def aRef : Counters := (1, 0, 0)

/-- One more in `open_count`. -/
def anOpen : Counters := (0, 1, 0)

/-- One more in the value of the semaphore. -/
def anUp : Counters := (0, 0, 1)

/-- What a process has, besides the fields in the process table. -/
structure Resources where
  /-- the first page of the kernel stack -/
  kstack : ℕ
  semQueue : Option ℕ
  fsStruct : Option ℕ
  mm : Option ℕ
  timeSlice : ℤ

/-- `struct fs_struct`. -/
structure FsStruct where
  pwd : Option ℕ
  filemap : ℕ → File

/-- `struct mm_struct`: the VMAs, the objects of the red-black tree, the frame of the page
directory. -/
structure MmStruct where
  vm : Mm
  tree : Option (ℕ × ℕ × ℕ)
  pgdir : Option ℕ
  brkStart : ℕ
  brk : ℕ

/-- What an object is. -/
inductive Body where
  | proc (x : Resources)
  | semQueue (semuList : List ℕ)
  | semu (sem : ℕ)
  | sem (valid : Bool)
  | fs (x : FsStruct)
  | inode
  | mm (x : MmStruct)
  | vma
  | shmem
  | rbTree
  | rbNode

structure Obj where
  counters : Counters
  body : Body

namespace Obj

variable (x : Obj)

/-- `sem_count`, `sem_queue_count`, `fs_count`, `mm_count`, `shmem_ref`, `inode_ref_count`. -/
def count : ℤ := x.counters.1

/-- `inode_open_count`. -/
def openCount : ℤ := x.counters.2.1

/-- `sem->value`. -/
def value : ℤ := x.counters.2.2

end Obj

instance : AddAction Counters Obj where
  vadd c x := ⟨c + x.counters, x.body⟩
  zero_vadd x := by
    show (⟨0 + x.counters, x.body⟩ : Obj) = x
    rw [zero_add]
  add_vadd c d x := by
    show (⟨c + d + x.counters, x.body⟩ : Obj) = ⟨c + (d + x.counters), x.body⟩
    rw [add_assoc]

theorem vadd_def (c : Counters) (x : Obj) : c +ᵥ x = ⟨c + x.counters, x.body⟩ := rfl

@[simp] theorem vadd_body (c : Counters) (x : Obj) : (c +ᵥ x).body = x.body := rfl

@[simp] theorem vadd_count (c : Counters) (x : Obj) : (c +ᵥ x).count = c.1 + x.count := rfl

@[simp] theorem vadd_openCount (c : Counters) (x : Obj) : (c +ᵥ x).openCount = c.2.1 + x.openCount := rfl

@[simp] theorem vadd_value (c : Counters) (x : Obj) : (c +ᵥ x).value = c.2.2 + x.value := rfl

/-- The objects that are in use. -/
abbrev Heap := ℕ → Option Obj

namespace Heap

variable (h : Heap)

/-- `kmalloc`, and the initialisation of the object. -/
def kmalloc (r : Option ℕ) (x : ℕ → Obj) : Option ℕ × Heap :=
  match r.filter fun a => (h a).isNone with
  | none => (none, h)
  | some a => (some a, Function.update h a (some (x a)))

/-- `kfree`. -/
def kfree (a : ℕ) : Option Heap := (h a).map fun _ => Function.update h a none

/-- An amount is added to the counters of an object; the result has the object. -/
def add (a : ℕ) (c : Counters) : Option (Obj × Heap) :=
  (h a).map fun x => (c +ᵥ x, Function.update h a (some (c +ᵥ x)))

/-- The contents of an object change. -/
def setBody (a : ℕ) (b : Body) : Option Heap :=
  (h a).map fun x => Function.update h a (some { x with body := b })

/-- `down`, on a semaphore that is free. -/
def down (a : ℕ) : Option Heap := do
  let x ← h a
  guard (0 < x.value)
  (h.add a (-anUp)).map Prod.snd

/-- `up`, on a semaphore that nobody waits for. -/
def up (a : ℕ) : Option Heap := (h.add a anUp).map Prod.snd

/-! ## Semaphores -/

/-- The queue at `q`. -/
def semuList (q : ℕ) : Option (List ℕ) :=
  match h q with
  | some ⟨_, .semQueue l⟩ => some l
  | _ => none

/-- `semu->sem`. -/
def semOf (u : ℕ) : Option ℕ :=
  match h u with
  | some ⟨_, .semu sem⟩ => some sem
  | _ => none

/-- `sem->valid`. -/
def semValid (sem : ℕ) : Option Bool :=
  match h sem with
  | some ⟨_, .sem valid⟩ => some valid
  | _ => none

/-- `sem_queue_create`. -/
def semQueueCreate (r : Option ℕ) : Option ℕ × Heap := h.kmalloc r fun _ => ⟨anUp, .semQueue []⟩

/-- `semu_create` for a semaphore that exists. -/
def semuCreate (r : Option ℕ) (sem : ℕ) : Option (Option ℕ × Heap) :=
  match h.kmalloc r fun _ => ⟨0, .semu sem⟩ with
  | (none, h) => some (none, h)
  | (some u, h) => (h.add sem aRef).map fun y => (some u, y.2)

/-- `semu_destroy`. -/
def semuDestroy (u : ℕ) : Option Heap := do
  let sem ← h.semOf u
  let (x, h) ← h.add sem (-aRef)
  let h ← if x.count = 0 then h.kfree sem else some h
  h.kfree u

/-- The loop of `dup_sem_queue`; `list_add` puts a new entry in front. -/
def dupSemLoop (a : ℕ → Option ℕ) : List ℕ → List ℕ → Heap → Option (Int × List ℕ × Heap)
  | [], dst, h => some (0, dst, h)
  | u :: us, dst, h => do
    let sem ← h.semOf u
    let valid ← h.semValid sem
    if valid then do
      let (v, h) ← h.semuCreate (a u) sem
      match v with
      | none => some (-E_NO_MEM, dst, h)
      | some v => dupSemLoop a us (v :: dst) h
    else dupSemLoop a us dst h

/-- `dup_sem_queue`. -/
def dupSemQueue (a : ℕ → Option ℕ) (dst src : ℕ) : Option (Int × Heap) := do
  let l ← h.semuList dst
  let us ← h.semuList src
  let (ret, l, h) ← dupSemLoop a us l h
  let h ← h.setBody dst (.semQueue l)
  return (ret, h)

/-- The loop of `exit_sem_queue`. -/
def exitSemLoop : List ℕ → Heap → Option Heap
  | [], h => some h
  | u :: us, h => do
    let h ← h.semuDestroy u
    exitSemLoop us h

/-- `exit_sem_queue` and `sem_queue_destroy`. -/
def exitSemQueue (q : ℕ) : Option Heap := do
  let x ← h q
  guard (x.count = 0)
  let us ← h.semuList q
  let h ← exitSemLoop us h
  h.kfree q

/-! ## Open files -/

/-- `vop_ref_dec`: the last reference takes the inode with it.  What `vop_reclaim` does to the file
system is left out. -/
def vopRefDec (n : ℕ) : Option Heap := do
  let x ← h n
  guard (0 < x.count)
  let (x, h) ← h.add n (-aRef)
  if x.count = 0 then h.kfree n else some h

/-- `vop_open_dec`, without `vop_close`. -/
def vopOpenDec (n : ℕ) : Option Heap := do
  let x ← h n
  guard (0 < x.openCount)
  (h.add n (-anOpen)).map Prod.snd

/-- `vfs_close`. -/
def vfsClose (n : ℕ) : Option Heap := do
  let h ← h.vopOpenDec n
  h.vopRefDec n

/-- A `struct file` after `filemap_init`. -/
def fileInit : File := ⟨.none, false, false, 0, none, 0⟩

/-- `filemap_open`. -/
def filemapOpen (f : File) : Option File := do
  guard (f.status = .init ∧ f.node ≠ none)
  return { f with status := .opened, openCount := f.openCount + 1 }

/-- `filemap_dup`, with the status that `dup_fs` gives before; the result is `*dst`. -/
def filemapDup (dst src : File) : Option (File × Heap) := do
  let dst := { dst with status := .init }
  guard (src.status = .opened)
  let node ← src.node
  let (_, h) ← h.add node aRef
  let (_, h) ← h.add node anOpen
  let dst ← filemapOpen
    { dst with pos := src.pos, readable := src.readable, writable := src.writable, node := some node }
  return (dst, h)

/-- `filemap_free`. -/
def filemapFree (f : File) : Option (File × Heap) := do
  guard (f.status = .init ∨ f.status = .closed)
  guard (f.openCount = 0)
  if f.status = .closed then
    let node ← f.node
    let h ← h.vfsClose node
    return ({ f with status := .none }, h)
  else return ({ f with status := .none }, h)

/-- `filemap_close`. -/
def filemapClose (f : File) : Option (File × Heap) := do
  guard (f.status = .opened)
  guard (0 < f.openCount)
  let f := { f with status := .closed, openCount := f.openCount - 1 }
  if f.openCount = 0 then h.filemapFree f else some (f, h)

/-- The structure at `f`. -/
def fsAt (f : ℕ) : Option FsStruct :=
  match h f with
  | some ⟨_, .fs x⟩ => some x
  | _ => none

/-- `fs_create`. -/
def fsCreate (r : Option ℕ) : Option ℕ × Heap :=
  h.kmalloc r fun _ => ⟨anUp, .fs ⟨none, fun _ => fileInit⟩⟩

/-- The loop of `dup_fs`. -/
def dupFsLoop (src : ℕ → File) : List ℕ → (ℕ → File) → Heap → Option ((ℕ → File) × Heap)
  | [], dst, h => some (dst, h)
  | i :: is, dst, h =>
    if (src i).status = .opened then do
      let (f, h) ← h.filemapDup (dst i) (src i)
      dupFsLoop src is (Function.update dst i f) h
    else dupFsLoop src is dst h

/-- `vop_ref_inc(pwd)`, if there is one. -/
def incPwd : Option ℕ → Option Heap
  | none => some h
  | some n => (h.add n aRef).map Prod.snd

/-- `vop_ref_dec(pwd)`, if there is one. -/
def decPwd : Option ℕ → Option Heap
  | none => some h
  | some n => h.vopRefDec n

/-- `dup_fs`. -/
def dupFs (dst src : ℕ) : Option (Int × Heap) := do
  let x ← h dst
  let y ← h src
  guard (x.count = 0 ∧ 0 < y.count)
  let toFs ← h.fsAt dst
  let fromFs ← h.fsAt src
  let h ← h.incPwd fromFs.pwd
  let (filemap, h) ← dupFsLoop fromFs.filemap (List.range FS_STRUCT_NENTRY) toFs.filemap h
  let h ← h.setBody dst (.fs ⟨fromFs.pwd, filemap⟩)
  return (0, h)

/-- The loop of `fs_destroy`. -/
def fsDestroyLoop : List ℕ → (ℕ → File) → Heap → Option Heap
  | [], _, h => some h
  | i :: is, filemap, h => do
    let (f, h) ← if (filemap i).status = .opened then h.filemapClose (filemap i)
      else some (filemap i, h)
    guard (f.status = .none)
    fsDestroyLoop is (Function.update filemap i f) h

/-- `fs_destroy`. -/
def fsDestroy (f : ℕ) : Option Heap := do
  let x ← h f
  guard (x.count = 0)
  let fs ← h.fsAt f
  let h ← h.decPwd fs.pwd
  let h ← fsDestroyLoop (List.range FS_STRUCT_NENTRY) fs.filemap h
  h.kfree f

end Heap

/-- A call of `kmalloc` in `do_fork`, by what it is for; the copy of an entry or of a VMA is named by
the original. -/
inductive Site where
  | proc
  | semQueue
  | semu (u : ℕ)
  | fs
  | mm
  | vma (v : ℕ)
  | rbTree (v : ℕ)
  | rbNil (v : ℕ)
  | rbRoot (v : ℕ)
  deriving DecidableEq, Repr

namespace Heap

variable (h : Heap)

/-! ## `copy_sem` and `copy_fs` -/

/-- `copy_sem`: the return value, `proc->sem_queue`, and the memory. -/
def copySem (a : Site → Option ℕ) (cloneFlags : UInt32) (old : Option ℕ) :
    Option (Int × Option ℕ × Heap) :=
  match old with
  | none => some (0, none, h)
  | some q =>
    if cloneFlags &&& CLONE_SEM ≠ 0 then (h.add q aRef).map fun y => (0, some q, y.2)
    else
      match h.semQueueCreate (a .semQueue) with
      | (none, h) => some (-E_NO_MEM, none, h)
      | (some dst, h) => do
        let h ← h.down q
        let (ret, h) ← h.dupSemQueue (fun u => a (.semu u)) dst q
        let h ← h.up q
        if ret ≠ 0 then do
          let h ← h.exitSemQueue dst
          return (ret, none, h)
        else do
          let (_, h) ← h.add dst aRef
          return (0, some dst, h)

/-- `put_sem_queue`. -/
def putSemQueue : Option ℕ → Option Heap
  | none => some h
  | some q => do
    let (x, h) ← h.add q (-aRef)
    if x.count = 0 then h.exitSemQueue q else some h

/-- `copy_fs`: the return value, `proc->fs_struct`, and the memory. -/
def copyFs (a : Site → Option ℕ) (cloneFlags : UInt32) (old : Option ℕ) :
    Option (Int × Option ℕ × Heap) := do
  let f ← old
  if cloneFlags &&& CLONE_FS ≠ 0 then (h.add f aRef).map fun y => (0, some f, y.2)
  else
    match h.fsCreate (a .fs) with
    | (none, h) => some (-E_NO_MEM, none, h)
    | (some dst, h) => do
      let (ret, h) ← h.dupFs dst f
      if ret ≠ 0 then do
        let h ← h.fsDestroy dst
        return (ret, none, h)
      else do
        let (_, h) ← h.add dst aRef
        return (0, some dst, h)

/-- `put_fs`. -/
def putFs : Option ℕ → Option Heap
  | none => some h
  | some f => do
    let (x, h) ← h.add f (-aRef)
    if x.count = 0 then h.fsDestroy f else some h

end Heap

end Ucore.Fork
