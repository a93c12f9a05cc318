import Anthill.Msgbuf

set_option autoImplicit false

namespace Anthill

def msbNoblock : Flags := 1

-- The sender's id, or -1. The position is an index into the array without a check.
def queuePop (msgbuf : Msgbuf) : Except Halt (Int × Msgbuf) :=
  if inside : msgbuf.recvQueuePos.toNat < queueSize then
    let pos : Fin queueSize := ⟨msgbuf.recvQueuePos.toNat, inside⟩
    if msgbuf.recvQueue pos = -1 then .ok (-1, msgbuf)
    else
      .ok (msgbuf.recvQueue pos, { msgbuf with
        recvQueue := Function.update msgbuf.recvQueue pos (-1)
        recvQueuePos := (msgbuf.recvQueuePos + 1) % 8 })
  else .error .fault

-- The place that is `i` places behind the position.
def queuePlace (msgbuf : Msgbuf) (i : Fin queueSize) : Fin queueSize :=
  Paged.place queueSize (msgbuf.recvQueuePos.toNat + i.val)

-- Whether there was room. The bound `QUEUE_SIZE + recv_queue_pos` of the loop may wrap.
def queuePush (msgbuf : Msgbuf) (sendId : Int) : Bool × Msgbuf :=
  if msgbuf.recvQueuePos.toNat + queueSize < 2 ^ 64 then
    match Slots.first fun i => msgbuf.recvQueue (queuePlace msgbuf i) = -1 with
    | some i =>
      (true, { msgbuf with recvQueue := Function.update msgbuf.recvQueue (queuePlace msgbuf i) sendId })
    | none => (false, msgbuf)
  else (false, msgbuf)

/-- A msgbuf_send that has passed its checks. -/
structure MsgSend where
  receiver : Nat
  sendId : Int
  recvId : Int
  flags : Flags
deriving DecidableEq, Repr

/-- A msgbuf_recv that has passed its checks. -/
structure MsgRecv where
  receiver : Nat
  id : Int
deriving DecidableEq, Repr

/-- What a task calls task_block for. -/
inductive MsgWait where
  | space (send : MsgSend)
  | reply (send : MsgSend)
  | message (recv : MsgRecv)
deriving DecidableEq, Repr

/-- Where a task is between two atomic steps. -/
inductive MsgPc where
  | idle
  | push (send : MsgSend)
  | wake (send : MsgSend)
  | pop (recv : MsgRecv)
  | look (recv : MsgRecv) (sendId : Int)
  | answer (id replyId : Int) (receiver : Nat)
  | block (wait : MsgWait)
  | blocked (wait : MsgWait)
deriving DecidableEq, Repr

inductive MsgRet where
  | id (result : MsgbufRId) (buf : Option Word)
  | err (result : KernErr)
deriving DecidableEq, Repr

/-- What a step does to the states of the tasks. -/
inductive MsgEffect where
  | none
  | block
  | unblock (pid : Int)
deriving DecidableEq, Repr

structure MsgMove where
  sys : MsgSys
  pc : MsgPc
  ret : Option MsgRet
  effect : MsgEffect

inductive MsgCall where
  | create (name : List CChar) (size : Word) (sendBuf : Bool)
  | connect (id : Int) (name : List CChar)
  | disconnect (sendId recvId : Int)
  | close (id : Int)
  | send (sendId recvId : Int) (flags : Flags)
  | recv (id : Int)
  | reply (id replyId : Int)

def MsgSys.returns (s : MsgSys) (ret : MsgRet) : MsgMove := ⟨s, .idle, some ret, .none⟩

def MsgSys.goes (s : MsgSys) (pc : MsgPc) : MsgMove := ⟨s, pc, none, .none⟩

-- The checks of msgbuf_send.
def msgbufSend (s : MsgSys) (sendId recvId : Int) (flags : Flags) : Except Halt MsgMove :=
  match msgbufGet s.reg sendId, msgbufGet s.reg recvId with
  | .ok (some n), .ok (some r) =>
    if ¬ s.owns n then .ok (s.returns (.err .msbFnd))
    else if connGet (s.reg.buf n) recvId = none then .ok (s.returns (.err .msbCod))
    else .ok (s.goes (.push ⟨r, sendId, recvId, flags⟩))
  | .ok _, .ok _ => .ok (s.returns (.err .msbFnd))
  | .error halt, _ => .error halt
  | _, .error halt => .error halt

-- The checks of msgbuf_recv.
def msgbufRecv (s : MsgSys) (id : Int) : Except Halt MsgMove :=
  match msgbufGet s.reg id with
  | .ok (some n) =>
    if s.owns n then .ok (s.goes (.pop ⟨n, id⟩)) else .ok (s.returns (.id ⟨-1, .msbFnd⟩ none))
  | .ok none => .ok (s.returns (.id ⟨-1, .msbFnd⟩ none))
  | .error halt => .error halt

-- The checks of msgbuf_reply. The code calls the replier's message buffer `sender`.
def msgbufReply (s : MsgSys) (id replyId : Int) : Except Halt MsgMove :=
  match msgbufGet s.reg id, msgbufGet s.reg replyId with
  | .ok (some n), .ok (some r) =>
    if s.owns n then .ok (s.goes (.answer id replyId r)) else .ok (s.returns (.err .msbFnd))
  | .ok _, .ok _ => .ok (s.returns (.err .msbFnd))
  | .error halt, _ => .error halt
  | _, .error halt => .error halt

-- A call of the current task, up to its first step that others may be interleaved with.
def MsgCall.act (stale : Stale) (s : MsgSys) : MsgCall → Except Halt MsgMove
  | .create name size sendBuf =>
    (msgbufCreate stale s name size sendBuf).map fun r => r.2.returns (.id r.1.1 r.1.2)
  | .connect id name => (msgbufConnect s id name).map fun r => r.2.returns (.id r.1 none)
  | .disconnect sendId recvId => (msgbufDisconnect s sendId recvId).map fun r => r.2.returns (.err r.1)
  | .close id => (msgbufClose s id).map fun r => r.2.returns (.err r.1)
  | .send sendId recvId flags => msgbufSend s sendId recvId flags
  | .recv id => msgbufRecv s id
  | .reply id replyId => msgbufReply s id replyId

def MsgSys.ownerPid (s : MsgSys) (n : Nat) : Int := (s.sys.task (s.reg.buf n).owner).pid

-- Whether the sender of a popped id is still there and connected: the connection's address.
def MsgSys.sender (s : MsgSys) (recv : MsgRecv) (sendId : Int) : Except Halt (Option Word) :=
  match msgbufGet s.reg sendId with
  | .error halt => .error halt
  | .ok none => .ok none
  | .ok (some n) => .ok ((connGet (s.reg.buf n) recv.id).map fun c => ((s.reg.buf n).connections c).addr)

-- The next step of a task that is inside a call.
def MsgPc.go (s : MsgSys) : MsgPc → Option (Except Halt MsgMove)
  | .idle => none
  | .push send =>
    let pushed := queuePush (s.reg.buf send.receiver) send.sendId
    let s := { s with reg := s.reg.setBuf send.receiver fun _ => pushed.2 }
    some (.ok (s.goes (if pushed.1 then .wake send else .block (.space send))))
  | .wake send =>
    let effect := .unblock (s.ownerPid send.receiver)
    if send.flags &&& msbNoblock ≠ 0 then some (.ok ⟨s, .idle, some (.err .ok), effect⟩)
    else some (.ok ⟨s, .block (.reply send), none, effect⟩)
  | .pop recv =>
    match queuePop (s.reg.buf recv.receiver) with
    | .error halt => some (.error halt)
    | .ok (sendId, msgbuf) =>
      let s := { s with reg := s.reg.setBuf recv.receiver fun _ => msgbuf }
      some (.ok (s.goes (if sendId = -1 then .block (.message recv) else .look recv sendId)))
  | .look recv sendId =>
    match s.sender recv sendId with
    | .error halt => some (.error halt)
    | .ok none => some (.ok (s.goes (.pop recv)))
    | .ok (some addr) => some (.ok (s.returns (.id ⟨sendId, .ok⟩ (some addr))))
  | .answer _ _ receiver => some (.ok ⟨s, .idle, some (.err .ok), .unblock (s.ownerPid receiver)⟩)
  | .block wait => some (.ok ⟨s, .blocked wait, none, .block⟩)
  -- task_block returns.
  | .blocked (.space send) => some (.ok (s.goes (.push send)))
  | .blocked (.reply _) => some (.ok (s.returns (.err .ok)))
  | .blocked (.message recv) => some (.ok (s.goes (.pop recv)))

inductive MsgAction where
  | call (call : MsgCall)
  | go

/-- The tasks, by the addresses of their structs, in the middle of message buffer calls. -/
structure MsgTasks where
  msg : MsgSys
  pc : Word → MsgPc

-- No task is inside a call, and no node has been taken.
def MsgTasks.fresh (sys : Sys) : MsgTasks := ⟨⟨sys, ⟨[], 0⟩⟩, fun _ => .idle⟩

-- The system while task `t` runs.
def MsgSys.as (s : MsgSys) (t : Word) : MsgSys := { s with sys := { s.sys with current := t } }

/-- One atomic step of task `t`. -/
def MsgTasks.step (stale : Stale) (w : MsgTasks) (t : Word) : MsgAction → Option (Except Halt MsgMove)
  | .call call => if w.pc t = .idle then some (call.act stale (w.msg.as t)) else none
  | .go => (w.pc t).go (w.msg.as t)

-- The tasks after a step of `t`.
def MsgTasks.after (w : MsgTasks) (t : Word) (move : MsgMove) : MsgTasks :=
  ⟨move.sys, Function.update w.pc t move.pc⟩

end Anthill
