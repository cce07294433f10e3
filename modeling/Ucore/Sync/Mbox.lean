import Ucore.Sync.Wait

/-!
# Mailboxes

Reference model of `kern/sync/mbox.c`: `ipc_mbox_init` with `new_mbox`, `ipc_mbox_send` with `send_msg`
and `add_msg`, `ipc_mbox_recv` with `recv_msg` and `pick_msg`, and `ipc_mbox_free` with `mbox_free`; and
of `do_sleep` (`kern/process/proc.c`), whose timers are in the same list.

A call leaves the processor where it waits for a slot or a message, where it locks the memory of its
process to copy from or to the user, and where `new_mbox` allocates a page; what it does after that is
a step of its own.  What the user's memory holds, and whether a copy or an allocation succeeds, are the
arguments of these steps.  A mailbox goes by its `id`.  `slots` and `inuse` are bounded by the number of
processes and `MAX_MSG_SLOTS`, and are natural numbers here.

Messages, and the mailboxes that one `ipc_mbox_init` opens, are numbered in the order of their making;
the numbers, and the clock `now` that never wraps, are not in the code.
-/

namespace Ucore.Mboxes

open Ksem (WT_INTERRUPTED)
open Waits (Kern Ret ipcCheckTimeout)

def WT_TIMER : UInt32 := 0x80000002

def WT_MBOX_SEND : UInt32 := 0x80000120

def WT_MBOX_RECV : UInt32 := 0x80000121

def MAX_MBOX_NUM : ℕ := 8192

/-- `PGSIZE / sizeof(struct msg_mbox)`. -/
def MBOX_P_PAGE : ℕ := 4096 / 44

def MAX_MBOX_PAGES : ℕ := (MAX_MBOX_NUM + MBOX_P_PAGE - 1) / MBOX_P_PAGE

def MAX_MSG_SLOTS : ℕ := 0x1000

def MAX_MSG_BYTES : ℕ := 0x10000

/-- `struct msg_msg`, with the number of the message. -/
structure Msg where
  num : ℕ
  pid : ℕ
  data : List UInt8
  deriving DecidableEq, Repr

def Msg.bytes (msg : Msg) : ℕ := msg.data.length

inductive MboxState where
  | closed
  | opened
  | closing
  deriving DecidableEq, Repr

/-- `struct msg_mbox`, with the number of the `ipc_mbox_init` that opened it last; the two wait queues
are in the kernel. -/
structure Mbox where
  inuse : ℕ
  state : MboxState
  maxSlots : ℕ
  slots : ℕ
  msgs : List Msg
  opening : ℕ
  deriving DecidableEq, Repr

inductive Side where
  | senders
  | receivers
  deriving DecidableEq, Repr

/-- Where a process is: before the second `get_mbox` of a send or a receive, inside `send_msg` or
`recv_msg`, with a message that it has picked, in `new_mbox` or in `do_sleep`. -/
inductive Call where
  | idle
  | loading (id : ℕ) (timeout : UInt32)
  | sending (m : ℕ) (msg : Msg) (timeout savedTicks : UInt32) (start : ℕ)
  | preparing (id : ℕ) (timeout : UInt32)
  | receiving (m size : ℕ) (timeout savedTicks : UInt32) (start : ℕ)
  | holding (id : ℕ) (msg : Msg) (opening : ℕ)
  | mapping (maxSlots page : ℕ)
  | sleeping (time : UInt32)
  deriving DecidableEq, Repr

/-- The kernel, the mailboxes, `free_mbox_list`, the pages of `mbox_map`, `sem_mbox_map` (`true` while a
process is in `new_mbox`), the calls, and the numbers given so far. -/
structure Sys where
  kern : Kern (ℕ × Side)
  mbox : ℕ → Mbox
  free : List ℕ
  mapped : ℕ → Bool
  mapping : Bool
  call : ℕ → Call
  loads : ℕ
  opens : ℕ
  now : ℕ

/-- What a call returns. -/
inductive Res where
  | ok
  | wait (r : Ret)
  | inval
  | noMem
  | tooBig
  deriving DecidableEq, Repr

/-- What a step has done. -/
inductive Event where
  | returned (p : ℕ) (r : Res)
  | begun (p : ℕ)
  | waiting (p : ℕ)
  | sent (p n : ℕ)
  | failed (p n : ℕ) (r : Res)
  | picked (p n : ℕ)
  | delivered (p n : ℕ)
  | putBack (p n from' into : ℕ)
  | discarded (p n from' : ℕ)
  | freed (p m opening : ℕ) (ns : List ℕ)
  | opened (p m opening : ℕ)
  | ticked
  | killed (p : ℕ)
  deriving DecidableEq, Repr

/-- The process that an event is about, if it takes a step of its own. -/
def Event.proc : Event → Option ℕ
  | .returned p _ | .begun p | .waiting p | .sent p _ | .failed p _ _ | .picked p _ | .delivered p _
  | .putBack p _ _ _ | .discarded p _ _ | .freed p _ _ _ | .opened p _ _ => some p
  | .ticked | .killed _ => none

/-- How a step can fail: the assertion of `add_timer`, or one of the mailboxes and queues. -/
inductive Fault where
  | timer
  | assertion
  deriving DecidableEq, Repr

/-- A kernel function fails its assertion. -/
def orFault {α : Type} (f : Fault) : Option α → Except Fault α
  | some a => .ok a
  | none => .error f

variable (s : Sys)

def Sys.setMbox (m : ℕ) (b : Mbox) : Sys := { s with mbox := Function.update s.mbox m b }

def Sys.setCall (p : ℕ) (c : Call) : Sys := { s with call := Function.update s.call p c }

/-- `get_mbox`: there is an open mailbox. -/
def Sys.getMbox (id : ℕ) : Bool :=
  id < MAX_MBOX_NUM && s.mapped (id / MBOX_P_PAGE) && (s.mbox id).state = .opened

/-- `mbox_free`. -/
def Sys.mboxFree (m : ℕ) : Except Fault Sys :=
  let b := s.mbox m
  if b.state = .closing ∧ b.inuse = 0 then
    if b.msgs = [] ∧ s.kern.queues (m, .senders) = [] ∧ s.kern.queues (m, .receivers) = [] then
      .ok { s.setMbox m { b with state := .closed, maxSlots := 0, slots := 0 } with free := s.free ++ [m] }
    else .error .assertion
  else .error .assertion

/-- `wakeup_first` on a queue of a mailbox. -/
def Sys.wakeupFirst (m : ℕ) (side : Side) (flags : UInt32) : Except Fault Sys :=
  (orFault .assertion (s.kern.wakeupFirst (m, side) flags)).map fun k => { s with kern := k }

/-- `wakeup_queue` on a queue of a mailbox. -/
def Sys.wakeupQueue (m : ℕ) (side : Side) (flags : UInt32) : Except Fault Sys :=
  (orFault .assertion (s.kern.wakeupQueue (m, side) flags)).map fun k => { s with kern := k }

/-- `add_msg`. -/
def Sys.addMsg (m : ℕ) (msg : Msg) (append : Bool) : Except Fault Sys :=
  let b := s.mbox m
  if b.state = .opened then
    let msgs := if append then b.msgs ++ [msg] else msg :: b.msgs
    (s.setMbox m { b with slots := b.slots + 1, msgs := msgs }).wakeupFirst m .receivers WT_MBOX_RECV
  else .error .assertion

/-- `pick_msg`; no message is `-E_TOO_BIG`. -/
def Sys.pickMsg (m maxBytes : ℕ) : Except Fault (Option Msg × Sys) :=
  let b := s.mbox m
  if b.state = .opened ∧ 0 < b.slots then
    match b.msgs with
    | [] => .error .assertion
    | msg :: rest =>
      if maxBytes < msg.bytes then .ok (none, s)
      else
        ((s.setMbox m { b with slots := b.slots - 1, msgs := rest }).wakeupFirst m .senders
          WT_MBOX_SEND).map fun s => (some msg, s)
  else .error .assertion

/-- The end of `send_msg` and `recv_msg`. -/
def Sys.leave (m : ℕ) (failed : Bool) : Except Fault Sys :=
  let b := s.mbox m
  let s := s.setMbox m { b with inuse := b.inuse - 1 }
  if b.state ≠ .opened then
    if failed ∧ b.state = .closing then
      if b.inuse - 1 = 0 then s.mboxFree m else .ok s
    else .error .assertion
  else .ok s

/-- The process goes to sleep in a queue of a mailbox. -/
def Sys.wait (p m : ℕ) (side : Side) (waitState timeout : UInt32) : Except Fault (Event × Sys) :=
  (orFault .timer ((s.kern.waitCurrentSet (m, side) p waitState).ipcAddTimer p timeout)).map fun k =>
    (.waiting p, { s with kern := k })

/-- The process runs again after its sleep in a queue. -/
def Sys.unwait (p m : ℕ) (side : Side) (timeout : UInt32) : Sys :=
  { s with kern := ((s.kern.ipcDelTimer p timeout).waitCurrentDel (m, side) p).dropWait p }

/-- `send_msg` from the head of its loop. -/
def Sys.sendLoop (p m : ℕ) (msg : Msg) (timeout : UInt32) : Except Fault (Event × Sys) :=
  let b := s.mbox m
  if b.maxSlots ≤ b.slots then
    if b.state = .opened then s.wait p m .senders WT_MBOX_SEND timeout else .error .assertion
  else if b.state = .opened ∧ b.slots < b.maxSlots then
    (s.addMsg m msg true).bind fun s => (s.leave m false).map fun s => (.sent p msg.num, s.setCall p .idle)
  else .error .assertion

/-- `send_msg` after `schedule()`, with the end of `ipc_mbox_send`. -/
def Sys.resumeSend (p m : ℕ) (msg : Msg) (timeout savedTicks flags : UInt32) :
    Except Fault (Event × Sys) :=
  let s := s.unwait p m .senders timeout
  if (s.mbox m).state ≠ .opened ∨ flags ≠ WT_MBOX_SEND then
    let ret := if flags = WT_MBOX_SEND then WT_INTERRUPTED else flags
    (s.leave m (ret ≠ 0)).bind fun s =>
      if ret = WT_INTERRUPTED then
        .ok (.failed p msg.num (.wait (ipcCheckTimeout timeout savedTicks s.kern.ticks)), s.setCall p .idle)
      else .error .assertion
  else s.sendLoop p m msg timeout

/-- `recv_msg` from the head of its loop. -/
def Sys.recvLoop (p m size : ℕ) (timeout : UInt32) : Except Fault (Event × Sys) :=
  let b := s.mbox m
  if b.slots = 0 then
    if b.state = .opened then s.wait p m .receivers WT_MBOX_RECV timeout else .error .assertion
  else if b.state = .opened ∧ 0 < b.slots ∧ b.msgs ≠ [] then
    (s.pickMsg m size).bind fun r =>
      match r.1 with
      | none =>
        (r.2.wakeupFirst m .receivers WT_MBOX_RECV).bind fun s =>
          (s.leave m true).map fun s => (.returned p .tooBig, s.setCall p .idle)
      | some msg =>
        (r.2.leave m false).map fun s => (.picked p msg.num, s.setCall p (.holding m msg b.opening))
  else .error .assertion

/-- `recv_msg` after `schedule()`, with the end of a failed `ipc_mbox_recv`. -/
def Sys.resumeRecv (p m size : ℕ) (timeout savedTicks flags : UInt32) : Except Fault (Event × Sys) :=
  let s := s.unwait p m .receivers timeout
  if (s.mbox m).state ≠ .opened ∨ flags ≠ WT_MBOX_RECV then
    (s.leave m true).map fun s =>
      (.returned p (.wait (ipcCheckTimeout timeout savedTicks s.kern.ticks)), s.setCall p .idle)
  else s.recvLoop p m size timeout

/-- A process enters `send_msg` or `recv_msg`: `ipc_timer_init`, and `inuse ++`. -/
def Sys.enter (p m : ℕ) (timeout : UInt32) (c : Call) : Sys :=
  { (s.setMbox m { s.mbox m with inuse := (s.mbox m).inuse + 1 }).setCall p c with
    kern := s.kern.ipcTimerInit p timeout }

/-- `ipc_mbox_send`, up to `lock_mm`. -/
def Sys.ipcMboxSend (p id : ℕ) (timeout : UInt32) : Event × Sys :=
  if s.getMbox id then (.begun p, s.setCall p (.loading id timeout)) else (.returned p .inval, s)

/-- What `ipc_mbox_send` reads from the user: no message, for a bad buffer or for lack of memory, or the
bytes of one. -/
inductive Loaded where
  | inval
  | noMem
  | data (bytes : List UInt8)
  deriving DecidableEq, Repr

/-- `ipc_mbox_send` from `unlock_mm` on, up to the call of `schedule()`. -/
def Sys.load (p id : ℕ) (timeout : UInt32) : Loaded → Except Fault (Event × Sys)
  | .inval => .ok (.returned p .inval, s.setCall p .idle)
  | .noMem => .ok (.returned p .noMem, s.setCall p .idle)
  | .data bytes =>
    let msg : Msg := ⟨s.loads, p, bytes⟩
    let s := { s with loads := s.loads + 1 }
    if s.getMbox id then
      (s.enter p id timeout (.sending id msg timeout s.kern.ticks s.now)).sendLoop p id msg timeout
    else .ok (.failed p msg.num .inval, s.setCall p .idle)

/-- `ipc_mbox_recv`, up to `lock_mm`. -/
def Sys.ipcMboxRecv (p id : ℕ) (timeout : UInt32) : Event × Sys :=
  if s.getMbox id then (.begun p, s.setCall p (.preparing id timeout)) else (.returned p .inval, s)

/-- `ipc_mbox_recv` from `unlock_mm` on, up to the call of `schedule()`; the size of the buffer, if the
user's memory has one. -/
def Sys.prepare (p id : ℕ) (timeout : UInt32) (size : Option ℕ) : Except Fault (Event × Sys) :=
  match size with
  | none => .ok (.returned p .inval, s.setCall p .idle)
  | some size =>
    if s.getMbox id then
      (s.enter p id timeout (.receiving id size timeout s.kern.ticks s.now)).recvLoop p id size timeout
    else .ok (.returned p .inval, s.setCall p .idle)

/-- The end of `ipc_mbox_recv`, when the message has been copied to the user or could not be. -/
def Sys.copied (p id : ℕ) (msg : Msg) (opening : ℕ) (ok : Bool) : Except Fault (Event × Sys) :=
  if ok then .ok (.delivered p msg.num, s.setCall p .idle)
  else if s.getMbox id then
    (s.addMsg id msg false).map fun s' =>
      (.putBack p msg.num opening (s.mbox id).opening, s'.setCall p .idle)
  else .ok (.discarded p msg.num opening, s.setCall p .idle)

/-- `ipc_mbox_free`. -/
def Sys.ipcMboxFree (p id : ℕ) : Except Fault (Event × Sys) :=
  if s.getMbox id then
    let b := s.mbox id
    let e := Event.freed p id b.opening (b.msgs.map Msg.num)
    ((s.setMbox id { b with state := .closing, msgs := [] }).wakeupQueue id .senders
      WT_INTERRUPTED).bind fun s =>
        (s.wakeupQueue id .receivers WT_INTERRUPTED).bind fun s =>
          if b.inuse = 0 then (s.mboxFree id).map fun s => (e, s) else .ok (e, s)
  else .ok (.returned p .inval, s)

/-- The end of `new_mbox`: the first free mailbox is opened. -/
def Sys.openFirst (p maxSlots : ℕ) : Event × Sys :=
  match s.free with
  | [] => (.returned p .noMem, s.setCall p .idle)
  | m :: rest =>
    (.opened p m s.opens,
      { (s.setMbox m { s.mbox m with state := .opened, maxSlots := maxSlots, opening := s.opens }).setCall p
        .idle with free := rest, opens := s.opens + 1 })

/-- The first page of `mbox_map` that is missing. -/
def Sys.missingPage : Option ℕ := (List.range MAX_MBOX_PAGES).find? fun i => !s.mapped i

/-- `ipc_mbox_init`, up to the allocation of a page. -/
def Sys.ipcMboxInit (p maxSlots : ℕ) : Event × Sys :=
  if maxSlots = 0 ∨ MAX_MSG_SLOTS < maxSlots then (.returned p .inval, s)
  else if s.free = [] then
    match s.missingPage with
    | none => (.returned p .noMem, s)
    | some i => (.begun p, { s.setCall p (.mapping maxSlots i) with mapping := true })
  else s.openFirst p maxSlots

/-- A mailbox of a new page. -/
def Mbox.fresh : Mbox := ⟨0, .closed, 0, 0, [], 0⟩

/-- `new_mbox` after `alloc_page`, and the end of `ipc_mbox_init`. -/
def Sys.map (p maxSlots i : ℕ) (page : Bool) : Event × Sys :=
  let s := { s with mapping := false }
  if page then
    let ids := (List.range MBOX_P_PAGE).map (i * MBOX_P_PAGE + ·)
    let s :=
      { s with
        mapped := Function.update s.mapped i true
        mbox := fun m => if m / MBOX_P_PAGE = i then Mbox.fresh else s.mbox m
        free := s.free ++ ids }
    s.openFirst p maxSlots
  else s.openFirst p maxSlots

/-- `do_sleep`. -/
def Sys.doSleep (p : ℕ) (time : UInt32) : Except Fault (Event × Sys) :=
  if time = 0 then .ok (.returned p .ok, s)
  else
    let k := s.kern.ipcTimerInit p time
    let k := k.setProc p { k.procs p with state := .sleeping, waitState := WT_TIMER }
    (orFault .timer (k.ipcAddTimer p time)).map fun k =>
      (.begun p, { s.setCall p (.sleeping time) with kern := k })

/-- A step. -/
inductive Op where
  | init (p maxSlots : ℕ)
  | map (p : ℕ) (page : Bool)
  | send (p id : ℕ) (timeout : UInt32)
  | load (p : ℕ) (loaded : Loaded)
  | recv (p id : ℕ) (timeout : UInt32)
  | prepare (p : ℕ) (size : Option ℕ)
  | resume (p : ℕ)
  | copy (p : ℕ) (ok : Bool)
  | free (p id : ℕ)
  | sleep (p : ℕ) (time : UInt32)
  | tick
  | kill (p : ℕ)
  deriving DecidableEq, Repr

/-- The process that takes the step. -/
def Op.proc : Op → Option ℕ
  | .init p _ | .map p _ | .send p _ _ | .load p _ | .recv p _ _ | .prepare p _ | .resume p | .copy p _
  | .free p _ | .sleep p _ => some p
  | .tick | .kill _ => none

/-- The rest of a call after `schedule()`. -/
def Sys.resume (p : ℕ) : Except Fault (Event × Sys) :=
  match s.call p, s.kern.wait p with
  | .sending m msg timeout savedTicks _, some w =>
    s.resumeSend p m msg timeout savedTicks w.wakeupFlags
  | .receiving m size timeout savedTicks _, some w =>
    s.resumeRecv p m size timeout savedTicks w.wakeupFlags
  | .sleeping time, _ =>
    .ok (.returned p .ok, { s.setCall p .idle with kern := s.kern.ipcDelTimer p time })
  | _, _ => .error .assertion

/-- One step. -/
def Sys.step : Op → Except Fault (Event × Sys)
  | .init p maxSlots => .ok (s.ipcMboxInit p maxSlots)
  | .map p page =>
    match s.call p with
    | .mapping maxSlots i => .ok (s.map p maxSlots i page)
    | _ => .error .assertion
  | .send p id timeout => .ok (s.ipcMboxSend p id timeout)
  | .load p loaded =>
    match s.call p with
    | .loading id timeout => s.load p id timeout loaded
    | _ => .error .assertion
  | .recv p id timeout => .ok (s.ipcMboxRecv p id timeout)
  | .prepare p size =>
    match s.call p with
    | .preparing id timeout => s.prepare p id timeout size
    | _ => .error .assertion
  | .resume p => s.resume p
  | .copy p ok =>
    match s.call p with
    | .holding id msg opening => s.copied p id msg opening ok
    | _ => .error .assertion
  | .free p id => s.ipcMboxFree p id
  | .sleep p time => s.doSleep p time
  | .tick =>
    (orFault .assertion s.kern.tick).map fun k => (.ticked, { s with kern := k, now := s.now + 1 })
  | .kill p => (orFault .assertion (s.kern.doKill p)).map fun k => (.killed p, { s with kern := k })

/-- The call of a process whose rest is `resume`. -/
def Call.Waits : Call → Prop
  | .sending .. | .receiving .. | .sleeping _ => True
  | _ => False

/-- The process runs, and is where it takes the step; `sem_mbox_map` is free for `ipc_mbox_init`, and a
message is not empty and not too long. -/
def Sys.Enabled : Op → Prop
  | .init p _ => (s.kern.procs p).state = .runnable ∧ s.call p = .idle ∧ s.mapping = false
  | .send p _ _ | .recv p _ _ | .free p _ | .sleep p _ =>
    (s.kern.procs p).state = .runnable ∧ s.call p = .idle
  | .map p _ => (s.kern.procs p).state = .runnable ∧ ∃ maxSlots i, s.call p = .mapping maxSlots i
  | .load p loaded => (s.kern.procs p).state = .runnable ∧ (∃ id timeout, s.call p = .loading id timeout) ∧
    ∀ bytes, loaded = .data bytes → 0 < bytes.length ∧ bytes.length ≤ MAX_MSG_BYTES
  | .prepare p size => (s.kern.procs p).state = .runnable ∧
    (∃ id timeout, s.call p = .preparing id timeout) ∧ size ≠ some 0
  | .resume p => (s.kern.procs p).state = .runnable ∧ (s.call p).Waits
  | .copy p _ => (s.kern.procs p).state = .runnable ∧ ∃ id msg opening, s.call p = .holding id msg opening
  | .tick | .kill _ => True

/-- Any number of steps, with what they have done, the last one first. -/
inductive Run (s₀ : Sys) : List Event → Sys → Prop
  | nil : Run s₀ [] s₀
  | cons {tr : List Event} {s s' : Sys} {e : Event} (op : Op) (hrun : Run s₀ tr s)
      (henabled : s.Enabled op) (hstep : s.step op = .ok (e, s')) : Run s₀ (e :: tr) s'

/-- A run in which every step meets a condition on the state before it. -/
inductive RunIf (P : Sys → Op → Prop) (s₀ : Sys) : List Event → Sys → Prop
  | nil : RunIf P s₀ [] s₀
  | cons {tr : List Event} {s s' : Sys} {e : Event} (op : Op) (hrun : RunIf P s₀ tr s) (hmeets : P s op)
      (henabled : s.Enabled op) (hstep : s.step op = .ok (e, s')) : RunIf P s₀ (e :: tr) s'

/-- `mbox_init`. -/
def Sys.mboxInit (kern : Kern (ℕ × Side)) : Sys :=
  ⟨kern, fun _ => Mbox.fresh, [], fun _ => false, false, fun _ => .idle, 0, 0, 0⟩

end Ucore.Mboxes
