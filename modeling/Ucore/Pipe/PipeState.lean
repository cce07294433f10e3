import Ucore.Sync.Wait

/-!
# Pipes

Reference model of `kern/fs/pipe/pipe_state.c`: `pipe_state_read`, `pipe_state_write` and
`pipe_state_close`, with the waits and wake-ups between them.

A call leaves the processor only in `pipe_state_wait`; what it does up to there, and after it, is one step.
The buffers of the calls are in the memory of the kernel.  `ref_count`, which the three calls only assert,
is left out.  Writes are numbered in the order in which they are made; the numbers are not in the code.
-/

namespace Ucore.Pipes

open Waits (Kern)

def WT_PIPE : UInt32 := 0x80000200

/-- `PGSIZE - sizeof(struct pipe_state)`. -/
def PIPE_BUFSIZE : ℕ := 4096 - 56

/-- `reader_queue`, where readers wait for a writer, and `writer_queue`. -/
inductive Queue where
  | reader
  | writer
  deriving DecidableEq, Repr

/-- Where a process is: outside, or in `pipe_state_wait` of a read of `n` bytes or of a write of `buf` that has
appended `ret` of them. -/
inductive Call where
  | idle
  | reading (n : ℕ)
  | writing (w : ℕ) (buf : List UInt8) (ret : ℕ)
  deriving DecidableEq, Repr

/-- `struct pipe_state`, with the value of its semaphore; the kernel with the two queues, the calls, and the
number of writes made. -/
structure Pipe where
  rpos : UInt32
  wpos : UInt32
  buf : ℕ → UInt8
  isclosed : Bool
  sem : ℕ
  kern : Kern Queue
  call : ℕ → Call
  writes : ℕ

/-- What a step has done: a read of `n` bytes returns `data`, returns nothing because its wait was interrupted,
or waits; a write has appended `data` and waits, or has appended `data` and returns `ret`. -/
inductive Event where
  | took (p n : ℕ) (data : List UInt8)
  | gaveUp (p n : ℕ)
  | waits (p : ℕ)
  | put (w : ℕ) (data : List UInt8)
  | wrote (w : ℕ) (buf data : List UInt8) (ret : ℕ)
  | closed
  | killed (p : ℕ)
  deriving DecidableEq, Repr

variable (s : Pipe)

def Pipe.setCall (p : ℕ) (c : Call) : Pipe := { s with call := Function.update s.call p c }

/-- `lock_state`; no result is a process that must wait for the semaphore. -/
def Pipe.lockState : Option Pipe := if 0 < s.sem then some { s with sem := s.sem - 1 } else none

/-- `unlock_state`. -/
def Pipe.unlockState : Pipe := { s with sem := s.sem + 1 }

/-- `is_empty`. -/
def Pipe.isEmpty : Bool := s.rpos = s.wpos

/-- `is_full`. -/
def Pipe.isFull : Bool := PIPE_BUFSIZE ≤ (s.wpos - s.rpos).toNat

/-- The slot of a position. -/
def slot (pos : UInt32) : ℕ := pos.toNat % PIPE_BUFSIZE

/-- `pipe_state_wakeup`. -/
def Pipe.wakeup (q : Queue) : Option Pipe :=
  if s.kern.queues q ≠ [] then (s.kern.wakeupQueue q WT_PIPE).map fun k => { s with kern := k } else some s

/-- `pipe_state_wait`, up to `schedule()`. -/
def Pipe.wait (q : Queue) (p : ℕ) : Pipe := { s with kern := s.kern.waitCurrentSet q p WT_PIPE }

/-- The loop of `pipe_state_read`, with the bytes left to read. -/
def Pipe.readLoop (s : Pipe) : ℕ → List UInt8 × Pipe
  | 0 => ([], s)
  | n + 1 =>
    if s.isEmpty then ([], s)
    else
      let r := Pipe.readLoop { s with rpos := s.rpos + 1 } n
      (s.buf (slot s.rpos) :: r.1, r.2)

/-- `pipe_state_read` from `try_again`. -/
def Pipe.read (p n : ℕ) : Option (Event × Pipe) :=
  s.lockState.bind fun s =>
    if s.isEmpty then
      if s.isclosed then some (.took p n [], s.unlockState.setCall p .idle)
      else some (.waits p, (s.unlockState.wait .reader p).setCall p (.reading n))
    else
      let r := s.readLoop n
      (if r.1 ≠ [] then r.2.wakeup .writer else some r.2).map fun s =>
        (.took p n r.1, s.unlockState.setCall p .idle)

/-- The loop of `pipe_state_write` over the bytes left to write; how many it has appended. -/
def Pipe.writeLoop (s : Pipe) : List UInt8 → ℕ × Pipe
  | [] => (0, s)
  | b :: rest =>
    if s.isFull then (0, s)
    else
      let r := Pipe.writeLoop { s with buf := Function.update s.buf (slot s.wpos) b, wpos := s.wpos + 1 } rest
      (r.1 + 1, r.2)

/-- `pipe_state_write` from `try_again`. -/
def Pipe.write (p w : ℕ) (buf : List UInt8) (ret : ℕ) : Option (Event × Pipe) :=
  s.lockState.bind fun s =>
    if s.isclosed then some (.wrote w buf [] ret, s.unlockState.setCall p .idle)
    else
      let r := s.writeLoop (buf.drop ret)
      let data := (buf.drop ret).take r.1
      if ret + r.1 < buf.length then
        (r.2.wakeup .reader).map fun s =>
          (.put w data, (s.unlockState.wait .writer p).setCall p (.writing w buf (ret + r.1)))
      else
        (if r.1 ≠ 0 then r.2.wakeup .reader else some r.2).map fun s =>
          (.wrote w buf data (ret + r.1), s.unlockState.setCall p .idle)

/-- `pipe_state_close`. -/
def Pipe.close : Option (Event × Pipe) :=
  (Pipe.wakeup { s with isclosed := true } .reader).bind fun s =>
    (s.wakeup .writer).map fun s => (.closed, s)

/-- The rest of a call after `schedule()`. -/
def Pipe.resume (p : ℕ) : Option (Event × Pipe) :=
  match s.call p, s.kern.wait p with
  | .reading n, some w =>
    let s := { s with kern := (s.kern.waitCurrentDel .reader p).dropWait p }
    if w.wakeupFlags = WT_PIPE then s.read p n else some (.gaveUp p n, s.setCall p .idle)
  | .writing x buf ret, some w =>
    let s := { s with kern := (s.kern.waitCurrentDel .writer p).dropWait p }
    if w.wakeupFlags = WT_PIPE then s.write p x buf ret
    else some (.wrote x buf [] ret, s.setCall p .idle)
  | _, _ => none

/-- A step. -/
inductive Op where
  | read (p n : ℕ)
  | write (p : ℕ) (buf : List UInt8)
  | resume (p : ℕ)
  | close
  | kill (p : ℕ)
  deriving DecidableEq, Repr

/-- One step; no result is a failed assertion, or a wait for the semaphore. -/
def Pipe.step : Op → Option (Event × Pipe)
  | .read p n => s.read p n
  | .write p buf => Pipe.write { s with writes := s.writes + 1 } p s.writes buf 0
  | .resume p => s.resume p
  | .close => s.close
  | .kill p => (s.kern.doKill p).map fun k => (.killed p, { s with kern := k })

/-- The process runs, and is where it takes the step. -/
def Pipe.Enabled : Op → Prop
  | .read p _ | .write p _ => (s.kern.procs p).state = .runnable ∧ s.call p = .idle
  | .resume p => (s.kern.procs p).state = .runnable ∧ s.call p ≠ .idle
  | .close | .kill _ => True

/-- Any number of steps, with what they have done, the last one first. -/
inductive Run (s₀ : Pipe) : List Event → Pipe → Prop
  | nil : Run s₀ [] s₀
  | cons {tr : List Event} {s s' : Pipe} {e : Event} (op : Op) (hrun : Run s₀ tr s)
      (henabled : s.Enabled op) (hstep : s.step op = some (e, s')) : Run s₀ (e :: tr) s'

/-- `pipe_state_create`; `kmalloc` leaves anything in the buffer. -/
def pipeStateCreate (kern : Kern Queue) (buf : ℕ → UInt8) : Pipe :=
  ⟨0, 0, buf, false, 1, kern, fun _ => .idle, 0⟩

end Ucore.Pipes
