import Anthill.Descriptor
import Anthill.Slots

set_option autoImplicit false

namespace Anthill

abbrev Byte := BitVec 8

-- An `int` that holds flag bits.
abbrev Flags := BitVec 32

def eExist : Int := 1
def eAcces : Int := 2
def eNfile : Int := 3
def eNospc : Int := 4
def eInval : Int := 5
def eNoent : Int := 6
def eBadf : Int := 7
def eMsgsize : Int := 8
def eAgain : Int := 9

def oRdonly : Flags := (1 : Flags) <<< 0
def oWronly : Flags := (1 : Flags) <<< 1
def oRdwr : Flags := (1 : Flags) <<< 2
def oCreat : Flags := (1 : Flags) <<< 3
def oExcl : Flags := (1 : Flags) <<< 4
def oNonblock : Flags := (1 : Flags) <<< 5
def blckRecv : Flags := (1 : Flags) <<< 6
def blckSend : Flags := (1 : Flags) <<< 7

-- FNV-1a over the characters before the terminating NUL.
def strhash (name : List Byte) : Word :=
  name.foldl (fun hash c => (hash ^^^ c.setWidth 64) * 0x00000100000001B3) 0xcbf29ce484222325

abbrev mqMaxOpen : Nat := 32
abbrev mqMaxSubscribers : Nat := 8
abbrev mqMaxMsgSize : Nat := 128
abbrev mqMaxMsg : Nat := 8

instance mqOpenNeZero : NeZero mqMaxOpen := ⟨by decide⟩

instance mqSubscribersNeZero : NeZero mqMaxSubscribers := ⟨by decide⟩

structure MqMessage where
  size : Word
  message : Nat → Byte

def MqMessage.bytes (m : MqMessage) : List Byte := (List.range m.size.toNat).map m.message

structure MqTask where
  pid : Int
  flags : Flags
deriving DecidableEq, Repr

structure MqAttr where
  mqFlags : Int
  mqMaxmsg : Int
  mqMsgsize : Int
  mqCurmsg : Int
deriving DecidableEq, Repr

-- The cells of `messages` from MQ_MAX_MSG on are not part of the array: no function reads or writes
-- them, an access there is a fault.
structure Mqueue where
  id : Int
  isOpen : Bool
  hash : Word
  subs : Fin mqMaxSubscribers → MqTask
  attr : MqAttr
  head : Int
  tail : Int
  messages : Nat → MqMessage

structure Mqueues where
  openQueues : Fin mqMaxOpen → Mqueue
  mqueueCount : Word

/-- An access outside messages[], or a copy of more bytes than a message holds. -/
inductive MqFault where
  | index
  | copy
deriving DecidableEq, Repr

def Mqueues.setQueue (s : Mqueues) (q : Fin mqMaxOpen) (mqueue : Mqueue) : Mqueues :=
  { s with openQueues := Function.update s.openQueues q mqueue }

def Mqueue.setSub (mqueue : Mqueue) (p : Fin mqMaxSubscribers) (sub : MqTask) : Mqueue :=
  { mqueue with subs := Function.update mqueue.subs p sub }

def Mqueues.find (s : Mqueues) (id : Int) : Option (Fin mqMaxOpen) :=
  Slots.first fun i => (s.openQueues i).id = id

def Mqueues.findHash (s : Mqueues) (hash : Word) : Option (Fin mqMaxOpen) :=
  Slots.first fun i => (s.openQueues i).id ≠ 0 ∧ (s.openQueues i).hash = hash

def findSubscriber (mqueue : Mqueue) (pid : Int) : Option (Fin mqMaxSubscribers) :=
  Slots.first fun i => (pid ≠ 0 ∧ (mqueue.subs i).pid = pid) ∨ (pid = 0 ∧ 0 < (mqueue.subs i).pid)

-- The tasks that task_unblock is called for, in order, and the queue afterwards.
def unblockSubscribers (mqueue : Mqueue) (flag : Flags) : List Int × Mqueue :=
  (((List.finRange mqMaxSubscribers).filter fun i => (mqueue.subs i).flags &&& flag ≠ 0).map
      fun i => (mqueue.subs i).pid,
    { mqueue with
      subs := fun i =>
        if (mqueue.subs i).flags &&& flag ≠ 0 then
          { mqueue.subs i with flags := (mqueue.subs i).flags ^^^ flag }
        else mqueue.subs i })

def subscribe (mqueue : Mqueue) (pid : Int) (flags : Flags) : Option Mqueue :=
  (Slots.first fun i => (mqueue.subs i).pid = 0).map fun i => mqueue.setSub i ⟨pid, flags⟩

def unsubscribe (mqueue : Mqueue) (pid : Int) : Bool × Mqueue :=
  match findSubscriber mqueue pid with
  | none => (false, mqueue)
  | some i => (true, mqueue.setSub i ⟨-1, 0⟩)

def inMessages (i : Int) : Prop := 0 ≤ i ∧ i < mqMaxMsg

instance (i : Int) : Decidable (inMessages i) := inferInstanceAs (Decidable (_ ∧ _))

def Mqueue.setCurmsg (mqueue : Mqueue) (n : Int) : Mqueue :=
  { mqueue with attr := { mqueue.attr with mqCurmsg := n } }

-- The assignment of the size and the memcpy into message `i`.
def Mqueue.store (mqueue : Mqueue) (i : Nat) (msgPtr : Nat → Byte) (msgLen : Word) : Mqueue :=
  { mqueue with
    messages := Function.update mqueue.messages i
      ⟨msgLen, fun j => if j < msgLen.toNat then msgPtr j else (mqueue.messages i).message j⟩ }

def Mqueue.wrapTail (mqueue : Mqueue) : Mqueue :=
  if mqueue.tail = mqueue.attr.mqMaxmsg - 1 then { mqueue with tail := -1 } else mqueue

def Mqueue.wrapHead (mqueue : Mqueue) : Mqueue :=
  if mqueue.head = mqueue.attr.mqMaxmsg - 1 then { mqueue with head := -1 } else mqueue

structure Enqueued where
  accepted : Bool
  woken : List Int
  queue : Mqueue

-- The end of _enqueue, from the cell that `++mqueue->tail` leads to.
def Mqueue.put (mqueue : Mqueue) (msgPtr : Nat → Byte) (msgLen : Word) : Enqueued :=
  let tail := mqueue.tail + 1
  let mqueue := { mqueue with tail := tail }.store tail.toNat msgPtr msgLen
  let unblocked :=
    if mqueue.attr.mqCurmsg = 0 then unblockSubscribers mqueue blckRecv else ([], mqueue)
  ⟨true, unblocked.1, unblocked.2.setCurmsg (unblocked.2.attr.mqCurmsg + 1)⟩

def enqueue (mqueue : Mqueue) (msgPtr : Nat → Byte) (msgLen : Word) : Except MqFault Enqueued :=
  let mqueue := mqueue.wrapTail
  if mqueue.attr.mqCurmsg = mqueue.attr.mqMaxmsg then .ok ⟨false, [], mqueue⟩
  else if ¬ inMessages (mqueue.tail + 1) then .error .index
  else if mqMaxMsgSize < msgLen.toNat then .error .copy
  else .ok (mqueue.put msgPtr msgLen)

structure Dequeued where
  result : Int
  bytes : List Byte
  queue : Mqueue

def dequeue (mqueue : Mqueue) (msgLen : Word) : Except MqFault Dequeued :=
  if mqueue.attr.mqCurmsg = 0 then .ok ⟨0, [], mqueue⟩
  else
    let mqueue := mqueue.wrapHead
    if ¬ inMessages (mqueue.head + 1) then .error .index
    else
      let message := mqueue.messages (mqueue.head + 1).toNat
      if message.size > msgLen then .ok ⟨-eMsgsize, [], mqueue⟩
      else if mqMaxMsgSize < message.size.toNat then .error .copy
      else
        .ok ⟨message.size.toInt, message.bytes,
          { mqueue with head := mqueue.head + 1 }.setCurmsg (mqueue.attr.mqCurmsg - 1)⟩

def destroy (mqueue : Mqueue) : Mqueue :=
  let mqueue := { mqueue with isOpen := false }
  if (findSubscriber mqueue 0).isSome then mqueue else { mqueue with id := 0, hash := 0 }

-- The checks that mqueue_open makes on a given attribute.
def attrCheck (attr : MqAttr) : Option Int :=
  if attr.mqMaxmsg = 0 then some eInval
  else if attr.mqMaxmsg > mqMaxMsg then some eNospc
  else if attr.mqMsgsize = 0 then some eInval
  else if attr.mqMsgsize > mqMaxMsgSize then some eNospc
  else none

-- The limits of a new queue, or the error that mqueue_open returns.
def attrLimits : Option MqAttr → Except Int (Int × Int)
  | some attr =>
    match attrCheck attr with
    | some err => .error err
    | none => .ok (attr.mqMaxmsg, attr.mqMsgsize)
  | none => .ok (mqMaxMsg, mqMaxMsgSize)

-- `mqd_t` is an int, the counter a size_t.
def toMqd (count : Word) : Int := (count.setWidth 32).toInt

def Mqueues.create (s : Mqueues) (q : Fin mqMaxOpen) (hash : Word) (limits : Int × Int) : Mqueues :=
  let count := s.mqueueCount + 1
  let mqueue := s.openQueues q
  { (s.setQueue q { mqueue with
      id := toMqd count, isOpen := true, hash := hash, head := -1, tail := -1
      attr := ⟨0, limits.1, limits.2, 0⟩ }) with mqueueCount := count }

-- The end of mqueue_open, once the queue has been found or made.
def mqueueJoin (s : Mqueues) (pid : Int) (oflag : Flags) : Option (Fin mqMaxOpen) → Int × Mqueues
  | none => (-eNoent, s)
  | some q =>
    if ¬ (s.openQueues q).isOpen then (-eNoent, s)
    else
      match subscribe (s.openQueues q) pid oflag with
      | none => (-eAcces, s)
      | some mqueue => ((s.openQueues q).id, s.setQueue q mqueue)

def mqueueOpen (s : Mqueues) (pid : Int) (name : List Byte) (oflag : Flags) (attr : Option MqAttr) :
    Int × Mqueues :=
  let hash := strhash name
  match s.findHash hash with
  | some q =>
    if oflag &&& oCreat ≠ 0 ∧ oflag &&& oExcl ≠ 0 then (-eExist, s) else mqueueJoin s pid oflag (some q)
  | none =>
    if oflag &&& oCreat = 0 then mqueueJoin s pid oflag none
    else
      match Slots.first fun i => (s.openQueues i).id = 0 with
      | none => (-eNfile, s)
      | some q =>
        match attrLimits attr with
        | .error err => (-err, s)
        | .ok limits => mqueueJoin (s.create q hash limits) pid oflag (some q)

def mqueueClose (s : Mqueues) (pid : Int) (mqdes : Int) : Int × Mqueues :=
  match s.find mqdes with
  | none => (-eBadf, s)
  | some q =>
    let mqueue := (unsubscribe (s.openQueues q) pid).2
    if mqueue.isOpen = false ∧ findSubscriber mqueue 0 = none then (0, s.setQueue q (destroy mqueue))
    else (0, s.setQueue q mqueue)

def mqueueUnlink (s : Mqueues) (name : List Byte) : Int × Mqueues :=
  match s.findHash (strhash name) with
  | none => (-eNoent, s)
  | some q => (0, s.setQueue q (destroy (s.openQueues q)))

/-- The loop in which a task is blocked, with the pointers it holds. -/
inductive MqWait where
  | send (q : Fin mqMaxOpen) (p : Fin mqMaxSubscribers) (msgPtr : Nat → Byte) (msgLen : Word)
  | receive (q : Fin mqMaxOpen) (p : Fin mqMaxSubscribers) (msgLen : Word)

inductive MqOutcome where
  | returned (result : Int) (bytes : List Byte)
  | blocked (wait : MqWait)

def Mqueue.addFlag (mqueue : Mqueue) (p : Fin mqMaxSubscribers) (flag : Flags) : Mqueue :=
  mqueue.setSub p { mqueue.subs p with flags := (mqueue.subs p).flags ||| flag }

-- One round of the loop of mqueue_send or of mqueue_receive.
def MqWait.round (s : Mqueues) : MqWait → Except MqFault (MqOutcome × Mqueues)
  | .send q p msgPtr msgLen =>
    match enqueue (s.openQueues q) msgPtr msgLen with
    | .error fault => .error fault
    | .ok ⟨true, _, mqueue⟩ => .ok (.returned 0 [], s.setQueue q mqueue)
    | .ok ⟨false, _, mqueue⟩ =>
      if (mqueue.subs p).flags &&& oNonblock ≠ 0 then .ok (.returned (-eAgain) [], s.setQueue q mqueue)
      else .ok (.blocked (.send q p msgPtr msgLen), s.setQueue q (mqueue.addFlag p blckSend))
  | .receive q p msgLen =>
    match dequeue (s.openQueues q) msgLen with
    | .error fault => .error fault
    | .ok ⟨result, bytes, mqueue⟩ =>
      if result > 0 then .ok (.returned result bytes, s.setQueue q mqueue)
      else if (mqueue.subs p).flags &&& oNonblock ≠ 0 then
        .ok (.returned (-eAgain) [], s.setQueue q mqueue)
      else .ok (.blocked (.receive q p msgLen), s.setQueue q (mqueue.addFlag p blckRecv))

def mqueueSend (s : Mqueues) (pid : Int) (id : Int) (msgPtr : Nat → Byte) (msgLen : Word) :
    Except MqFault (MqOutcome × Mqueues) :=
  match s.find id with
  | none => .ok (.returned (-eBadf) [], s)
  | some q =>
    if msgLen.toInt > (s.openQueues q).attr.mqMsgsize then .ok (.returned (-eMsgsize) [], s)
    else
      match findSubscriber (s.openQueues q) pid with
      | none => .ok (.returned (-eAcces) [], s)
      | some p =>
        if ((s.openQueues q).subs p).flags &&& oRdonly ≠ 0 then .ok (.returned (-eAcces) [], s)
        else (MqWait.send q p msgPtr msgLen).round s

def mqueueReceive (s : Mqueues) (pid : Int) (id : Int) (msgLen : Word) :
    Except MqFault (MqOutcome × Mqueues) :=
  match s.find id with
  | none => .ok (.returned (-eBadf) [], s)
  | some q =>
    match findSubscriber (s.openQueues q) pid with
    | none => .ok (.returned (-eAcces) [], s)
    | some p =>
      if ((s.openQueues q).subs p).flags &&& oWronly ≠ 0 then .ok (.returned (-eAcces) [], s)
      else (MqWait.receive q p msgLen).round s

inductive MqCall where
  | open (pid : Int) (name : List Byte) (oflag : Flags) (attr : Option MqAttr)
  | close (pid : Int) (mqdes : Int)
  | unlink (pid : Int) (name : List Byte)
  | send (pid : Int) (id : Int) (msgPtr : Nat → Byte) (msgLen : Word)
  | receive (pid : Int) (id : Int) (msgLen : Word)
  -- task_block has returned, and the loop goes round again.
  | retry (pid : Int) (wait : MqWait)

def MqCall.pid : MqCall → Int
  | .open pid _ _ _ | .close pid _ | .unlink pid _ | .send pid _ _ _ | .receive pid _ _ | .retry pid _ =>
    pid

def MqCall.act (s : Mqueues) : MqCall → Except MqFault (MqOutcome × Mqueues)
  | .open pid name oflag attr =>
    .ok (.returned (mqueueOpen s pid name oflag attr).1 [], (mqueueOpen s pid name oflag attr).2)
  | .close pid mqdes => .ok (.returned (mqueueClose s pid mqdes).1 [], (mqueueClose s pid mqdes).2)
  | .unlink _ name => .ok (.returned (mqueueUnlink s name).1 [], (mqueueUnlink s name).2)
  | .send pid id msgPtr msgLen => mqueueSend s pid id msgPtr msgLen
  | .receive pid id msgLen => mqueueReceive s pid id msgLen
  | .retry _ wait => wait.round s

/-- The loop that a call of mqueue_send or mqueue_receive comes to when it passes its checks. -/
def MqCall.enters (s : Mqueues) : MqCall → Option MqWait
  | .send pid id msgPtr msgLen =>
    (s.find id).bind fun q =>
      if msgLen.toInt > (s.openQueues q).attr.mqMsgsize then none
      else
        (findSubscriber (s.openQueues q) pid).bind fun p =>
          if ((s.openQueues q).subs p).flags &&& oRdonly ≠ 0 then none else some (.send q p msgPtr msgLen)
  | .receive pid id msgLen =>
    (s.find id).bind fun q =>
      (findSubscriber (s.openQueues q) pid).bind fun p =>
        if ((s.openQueues q).subs p).flags &&& oWronly ≠ 0 then none else some (.receive q p msgLen)
  | .retry _ wait => some wait
  | _ => none

structure MqSys where
  queues : Mqueues
  waiting : Int → Option MqWait

def MqOutcome.wait : MqOutcome → Option MqWait
  | .returned _ _ => none
  | .blocked wait => some wait

/-- A task that is not in one of the loops may call, and one that is may go round it again. -/
def MqSys.Enabled (s : MqSys) : MqCall → Prop
  | .retry pid wait => s.waiting pid = some wait
  | call => s.waiting call.pid = none

def MqSys.Step (s : MqSys) (call : MqCall) (out : MqOutcome) (s' : MqSys) : Prop :=
  s.Enabled call ∧ call.act s.queues = .ok (out, s'.queues) ∧
    s'.waiting = Function.update s.waiting call.pid out.wait

def Mqueue.unused : Mqueue where
  id := 0
  isOpen := false
  hash := 0
  subs _ := ⟨0, 0⟩
  attr := ⟨0, 0, 0, 0⟩
  head := 0
  tail := 0
  messages _ := ⟨0, fun _ => 0⟩

def MqSys.boot : MqSys where
  queues := { openQueues := fun _ => Mqueue.unused, mqueueCount := 0 }
  waiting _ := none

@[simp] theorem Mqueues.setQueue_self (s : Mqueues) (q : Fin mqMaxOpen) (mqueue : Mqueue) :
    (s.setQueue q mqueue).openQueues q = mqueue := by
  simp [Mqueues.setQueue]

theorem Mqueues.setQueue_other (s : Mqueues) (q q' : Fin mqMaxOpen) (mqueue : Mqueue) (away : q' ≠ q) :
    (s.setQueue q mqueue).openQueues q' = s.openQueues q' := by
  simp [Mqueues.setQueue, away]

@[simp] theorem Mqueues.setQueue_count (s : Mqueues) (q : Fin mqMaxOpen) (mqueue : Mqueue) :
    (s.setQueue q mqueue).mqueueCount = s.mqueueCount := rfl

theorem Mqueues.findHash_some (s : Mqueues) (hash : Word) (q : Fin mqMaxOpen)
    (found : s.findHash hash = some q) : (s.openQueues q).id ≠ 0 ∧ (s.openQueues q).hash = hash := by
  simpa using Slots.first_some _ q found

theorem Mqueues.findHash_none (s : Mqueues) (hash : Word) (none : s.findHash hash = none)
    (q : Fin mqMaxOpen) (used : (s.openQueues q).id ≠ 0) : (s.openQueues q).hash ≠ hash := by
  have miss := (Slots.first_none _).mp none q
  simp only [decide_eq_false_iff_not, not_and] at miss
  exact miss used

/-- The slot in which a call makes a new queue, and its limits. -/
def MqCall.creates (s : Mqueues) : MqCall → Option (Fin mqMaxOpen × (Int × Int))
  | .open _ name oflag attr =>
    if s.findHash (strhash name) = none ∧ oflag &&& oCreat ≠ 0 then
      match Slots.first fun i => (s.openQueues i).id = 0, attrLimits attr with
      | some q, .ok limits => some (q, limits)
      | _, _ => none
    else none
  | _ => none

/-- The slot whose queue an open finds a place in. -/
def MqCall.joins (s : Mqueues) : MqCall → Option (Fin mqMaxOpen)
  | .open pid name oflag attr =>
    match s.findHash (strhash name) with
    | some q =>
      if (oflag &&& oCreat ≠ 0 ∧ oflag &&& oExcl ≠ 0) ∨ (s.openQueues q).isOpen = false ∨
        ∀ p, ((s.openQueues q).subs p).pid ≠ 0 then none else some q
    | none =>
      match (MqCall.open pid name oflag attr).creates s with
      | some (q, _) => if ∀ p, ((s.openQueues q).subs p).pid ≠ 0 then none else some q
      | none => none
  | _ => none

/-- mqueue_open refuses, joins the queue of that name, or makes one and joins it. -/
theorem mqueueOpen_cases (s : Mqueues) (pid : Int) (name : List Byte) (oflag : Flags)
    (attr : Option MqAttr) :
    ((MqCall.open pid name oflag attr).creates s = none ∧ (MqCall.open pid name oflag attr).joins s = none ∧
      ∃ err, err ≠ eAcces ∧ mqueueOpen s pid name oflag attr = (-err, s)) ∨
    (∃ q, (MqCall.open pid name oflag attr).creates s = none ∧ s.findHash (strhash name) = some q ∧
      ¬ (oflag &&& oCreat ≠ 0 ∧ oflag &&& oExcl ≠ 0) ∧ mqueueOpen s pid name oflag attr = mqueueJoin s pid oflag (some q)) ∨
    ∃ q limits, (MqCall.open pid name oflag attr).creates s = some (q, limits) ∧
      (s.openQueues q).id = 0 ∧ s.findHash (strhash name) = none ∧ attrLimits attr = .ok limits ∧
      mqueueOpen s pid name oflag attr =
        mqueueJoin (s.create q (strhash name) limits) pid oflag (some q) := by
  cases found : s.findHash (strhash name) with
  | some q =>
    have makes : (MqCall.open pid name oflag attr).creates s = none := by
      simp [MqCall.creates, found]
    by_cases exclusive : oflag &&& oCreat ≠ 0 ∧ oflag &&& oExcl ≠ 0
    · refine .inl ⟨makes, ?_, eExist, by decide, ?_⟩
      · simp only [MqCall.joins, found]
        exact if_pos (.inl exclusive)
      · simp only [mqueueOpen, found]
        exact if_pos exclusive
    · refine .inr (.inl ⟨q, makes, rfl, exclusive, ?_⟩)
      simp only [mqueueOpen, found]
      exact if_neg exclusive
  | none =>
    have noJoin (makes : (MqCall.open pid name oflag attr).creates s = none) :
        (MqCall.open pid name oflag attr).joins s = none := by
      simp only [MqCall.joins, found, makes]
    by_cases creat : oflag &&& oCreat = 0
    · have makes : (MqCall.open pid name oflag attr).creates s = none := by simp [MqCall.creates, creat]
      refine .inl ⟨makes, noJoin makes, eNoent, by decide, ?_⟩
      simp only [mqueueOpen, found, creat, if_true, mqueueJoin]
    cases slot : Slots.first fun i => decide ((s.openQueues i).id = 0) with
    | none =>
      have makes : (MqCall.open pid name oflag attr).creates s = none := by simp [MqCall.creates, slot]
      refine .inl ⟨makes, noJoin makes, eNfile, by decide, ?_⟩
      simp only [mqueueOpen, found, creat, if_false, slot]
    | some q =>
      have free : (s.openQueues q).id = 0 := by simpa using Slots.first_some _ q slot
      cases limit : attrLimits attr with
      | error err =>
        have makes : (MqCall.open pid name oflag attr).creates s = none := by
          simp [MqCall.creates, slot, limit]
        refine .inl ⟨makes, noJoin makes, err, ?_, ?_⟩
        · cases attr with
          | none => cases limit
          | some attr =>
            simp only [attrLimits, attrCheck] at limit
            split_ifs at limit <;> cases limit <;> decide
        · simp only [mqueueOpen, found, creat, if_false, slot, limit]
      | ok limits =>
        have makes : (MqCall.open pid name oflag attr).creates s = some (q, limits) := by
          simp only [MqCall.creates, found, ne_eq, creat, not_false_eq_true, and_self, if_true, slot, limit]
        refine .inr (.inr ⟨q, limits, makes, free, rfl, rfl, ?_⟩)
        simp only [mqueueOpen, found, creat, if_false, slot, limit]

/-- The end of mqueue_open finds the queue closed to it, finds no place, or takes the first free one. -/
theorem mqueueJoin_cases (s : Mqueues) (pid : Int) (oflag : Flags) (q : Fin mqMaxOpen) :
    ((s.openQueues q).isOpen = false ∧ mqueueJoin s pid oflag (some q) = (-eNoent, s)) ∨
    ((s.openQueues q).isOpen = true ∧ (∀ p, ((s.openQueues q).subs p).pid ≠ 0) ∧
      mqueueJoin s pid oflag (some q) = (-eAcces, s)) ∨
    ∃ p, (s.openQueues q).isOpen = true ∧ ((s.openQueues q).subs p).pid = 0 ∧
      mqueueJoin s pid oflag (some q) =
        ((s.openQueues q).id, s.setQueue q ((s.openQueues q).setSub p ⟨pid, oflag⟩)) := by
  cases isOpen : (s.openQueues q).isOpen with
  | false =>
    refine .inl ⟨rfl, ?_⟩
    simp [mqueueJoin, isOpen]
  | true =>
    cases place : Slots.first fun i => decide (((s.openQueues q).subs i).pid = 0) with
    | none =>
      refine .inr (.inl ⟨rfl, fun p => ?_, ?_⟩)
      · simpa using (Slots.first_none _).mp place p
      · simp [mqueueJoin, isOpen, subscribe, place]
    | some p =>
      refine .inr (.inr ⟨p, rfl, by simpa using Slots.first_some _ p place, ?_⟩)
      simp [mqueueJoin, isOpen, subscribe, place]

/-- A send or receive that passes its checks goes round its loop, and another one is refused. -/
theorem act_enters (s : Mqueues) (call : MqCall) :
    (∃ wait, call.enters s = some wait ∧ call.act s = wait.round s) ∨
    (call.enters s = none ∧ call.creates s = none ∧
      ∃ err, 0 < err ∧ err ≠ eAgain ∧ call.act s = .ok (.returned (-err) [], s)) ∨
    (call.enters s = none ∧ ((∃ pid name oflag attr, call = .open pid name oflag attr) ∨
      (∃ pid mqdes, call = .close pid mqdes) ∨ ∃ pid name, call = .unlink pid name)) := by
  cases call with
  | «open» pid name oflag attr => exact .inr (.inr ⟨rfl, .inl ⟨_, _, _, _, rfl⟩⟩)
  | close pid mqdes => exact .inr (.inr ⟨rfl, .inr (.inl ⟨_, _, rfl⟩)⟩)
  | unlink pid name => exact .inr (.inr ⟨rfl, .inr (.inr ⟨_, _, rfl⟩)⟩)
  | retry pid wait => exact .inl ⟨wait, rfl, rfl⟩
  | send pid id msgPtr msgLen =>
    simp only [MqCall.enters, MqCall.act, mqueueSend]
    cases found : s.find id with
    | none => exact .inr (.inl ⟨rfl, rfl, eBadf, by decide, by decide, rfl⟩)
    | some q =>
      simp only [Option.bind_some]
      split_ifs with long
      · exact .inr (.inl ⟨rfl, rfl, eMsgsize, by decide, by decide, rfl⟩)
      · cases findSubscriber (s.openQueues q) pid with
        | none => exact .inr (.inl ⟨rfl, rfl, eAcces, by decide, by decide, rfl⟩)
        | some p =>
          simp only [Option.bind_some]
          split_ifs with denied
          · exact .inr (.inl ⟨rfl, rfl, eAcces, by decide, by decide, rfl⟩)
          · exact .inl ⟨_, rfl, rfl⟩
  | receive pid id msgLen =>
    simp only [MqCall.enters, MqCall.act, mqueueReceive]
    cases found : s.find id with
    | none => exact .inr (.inl ⟨rfl, rfl, eBadf, by decide, by decide, rfl⟩)
    | some q =>
      simp only [Option.bind_some]
      cases findSubscriber (s.openQueues q) pid with
      | none => exact .inr (.inl ⟨rfl, rfl, eAcces, by decide, by decide, rfl⟩)
      | some p =>
        simp only [Option.bind_some]
        split_ifs with denied
        · exact .inr (.inl ⟨rfl, rfl, eAcces, by decide, by decide, rfl⟩)
        · exact .inl ⟨_, rfl, rfl⟩

end Anthill
