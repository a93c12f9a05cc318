import Anthill.Fifo
import Anthill.MqueueRing

set_option autoImplicit false

namespace Anthill

inductive RingCall where
  | enqueue (msgPtr : Nat → Byte) (msgLen : Word)
  | dequeue (msgLen : Word)

inductive RingReply where
  | enqueued (accepted : Bool)
  | dequeued (result : Int) (bytes : List Byte)

-- What _enqueue and _dequeue return, and what _dequeue copies.
def RingCall.run (m : Mqueue) : RingCall → Option (RingReply × Mqueue)
  | .enqueue msgPtr msgLen =>
    match Anthill.enqueue m msgPtr msgLen with
    | .ok done => some (.enqueued done.accepted, done.queue)
    | .error _ => none
  | .dequeue msgLen =>
    match Anthill.dequeue m msgLen with
    | .ok done => some (.dequeued done.result done.bytes, done.queue)
    | .error _ => none

def RingCall.op : RingCall → Fifo.Op (Nat × List Byte)
  | .enqueue msgPtr msgLen => .push (sentMessage msgPtr msgLen)
  | .dequeue msgLen => .pop fun message => decide (message.1 ≤ msgLen.toNat)

def ringReply : Fifo.Result (Nat × List Byte) → RingReply
  | .pushed => .enqueued true
  | .full => .enqueued false
  | .popped message => .dequeued message.1 message.2
  | .refused => .dequeued (-eMsgsize) []
  | .empty => .dequeued 0 []

structure Mqueue.Holds (cap : Nat) (m : Mqueue) (messages : List (Nat × List Byte)) : Prop where
  ringed : Ringed m
  cap : m.attr.mqMaxmsg = cap
  pending : m.pending = messages
  sizes : ∀ message, message ∈ messages → message.1 ≤ mqMaxMsgSize

section Ring

variable {m : Mqueue}

theorem Ringed.wrapTail (ringed : Ringed m) : Ringed m.wrapTail ∧ m.wrapTail.tail ≠ m.wrapTail.attr.mqMaxmsg - 1 := by
  obtain ⟨positive, capLe, head, tail, count, place⟩ := ringed
  unfold Mqueue.wrapTail
  split_ifs with last
  · refine ⟨⟨positive, capLe, head, ?_, count, ?_⟩, ?_⟩ <;> simp only <;> omega
  · exact ⟨⟨positive, capLe, head, tail, count, place⟩, last⟩

theorem Ringed.wrapHead (ringed : Ringed m) : Ringed m.wrapHead ∧ m.wrapHead.head ≠ m.wrapHead.attr.mqMaxmsg - 1 := by
  obtain ⟨positive, capLe, head, tail, count, place⟩ := ringed
  unfold Mqueue.wrapHead
  split_ifs with last
  · refine ⟨⟨positive, capLe, ?_, tail, count, ?_⟩, ?_⟩ <;> simp only <;> omega
  · exact ⟨⟨positive, capLe, head, tail, count, place⟩, last⟩

theorem Ringed.put (ringed : Ringed m) (msgPtr : Nat → Byte) (msgLen : Word)
    (space : m.attr.mqCurmsg ≠ m.attr.mqMaxmsg) (unwrapped : m.tail ≠ m.attr.mqMaxmsg - 1) :
    inMessages (m.tail + 1) ∧ Ringed (m.put msgPtr msgLen).queue := by
  obtain ⟨positive, capLe, head, tail, count, place⟩ := ringed
  have same := (m.put_same msgPtr msgLen).maxmsg
  obtain ⟨headSame, tailNext, cur, -⟩ := m.put_fields msgPtr msgLen
  refine ⟨⟨by omega, by omega⟩, ?_, ?_, ?_, ?_, ?_, ?_⟩ <;> omega

theorem Ringed.take (ringed : Ringed m) (some : m.attr.mqCurmsg ≠ 0) (unwrapped : m.head ≠ m.attr.mqMaxmsg - 1) :
    inMessages (m.head + 1) ∧ Ringed ({ m with head := m.head + 1 }.setCurmsg (m.attr.mqCurmsg - 1)) := by
  obtain ⟨positive, capLe, head, tail, count, place⟩ := ringed
  refine ⟨⟨by omega, by omega⟩, positive, capLe, ?_, tail, ?_, ?_⟩ <;> simp only [Mqueue.setCurmsg] <;> omega

end Ring

section Holds

variable {cap : Nat} {m : Mqueue} {messages : List (Nat × List Byte)} (holds : m.Holds cap messages)

include holds

theorem Mqueue.Holds.count : m.attr.mqCurmsg = messages.length := by
  have length := m.pending_length
  have positive := holds.ringed.count.1
  rw [holds.pending] at length
  omega

theorem Mqueue.Holds.wrapTail : m.wrapTail.Holds cap messages where
  ringed := holds.ringed.wrapTail.1
  cap := by rw [m.wrapTail_attr, holds.cap]
  pending := by rw [m.wrapTail_pending, holds.pending]
  sizes := holds.sizes

theorem Mqueue.Holds.wrapHead : m.wrapHead.Holds cap messages where
  ringed := holds.ringed.wrapHead.1
  cap := by rw [m.wrapHead_attr, holds.cap]
  pending := by rw [m.wrapHead_pending holds.ringed.positive, holds.pending]
  sizes := holds.sizes

/-- _enqueue appends, or finds the queue full. -/
theorem Mqueue.Holds.enqueue (msgPtr : Nat → Byte) (msgLen : Word) (fits : msgLen.toNat ≤ mqMaxMsgSize) :
    (messages.length = cap ∧ Anthill.enqueue m msgPtr msgLen = .ok ⟨false, [], m.wrapTail⟩) ∨
    (messages.length < cap ∧ ∃ woken m', Anthill.enqueue m msgPtr msgLen = .ok ⟨true, woken, m'⟩ ∧
      m'.Holds cap (messages ++ [sentMessage msgPtr msgLen])) := by
  have count := holds.count
  have most := holds.ringed.count.2
  rw [holds.cap, count] at most
  by_cases full : m.attr.mqCurmsg = m.attr.mqMaxmsg
  · rw [count, holds.cap] at full
    refine .inl ⟨by omega, ?_⟩
    simp only [Anthill.enqueue, Mqueue.wrapTail_attr, count, holds.cap, full, if_true]
  · obtain ⟨ringed, unwrapped⟩ := holds.ringed.wrapTail
    have space : m.wrapTail.attr.mqCurmsg ≠ m.wrapTail.attr.mqMaxmsg := by rwa [m.wrapTail_attr]
    obtain ⟨inside, ringed'⟩ := ringed.put msgPtr msgLen space unwrapped
    have done : Anthill.enqueue m msgPtr msgLen = .ok (m.wrapTail.put msgPtr msgLen) := by
      simp only [Anthill.enqueue, Mqueue.wrapTail_attr, full, if_false, not_not_intro inside,
        if_neg (Nat.not_lt.mpr fits)]
    rw [count, holds.cap] at full
    refine .inr ⟨by omega, (m.wrapTail.put msgPtr msgLen).woken, (m.wrapTail.put msgPtr msgLen).queue, done, ringed', ?_, ?_, ?_⟩
    · rw [(m.wrapTail.put_same msgPtr msgLen).maxmsg, m.wrapTail_attr, holds.cap]
    · rw [ringed.put_pending msgPtr msgLen space unwrapped, m.wrapTail_pending, holds.pending]
    · intro message member
      rcases List.mem_append.mp member with old | last
      · exact holds.sizes message old
      · rw [List.mem_singleton.mp last]
        exact fits

/-- _dequeue finds no message, or finds the first one too long, or takes it. -/
theorem Mqueue.Holds.dequeue (msgLen : Word) :
    (messages = [] ∧ Anthill.dequeue m msgLen = .ok ⟨0, [], m⟩) ∨
    ∃ message rest, messages = message :: rest ∧
      ((msgLen.toNat < message.1 ∧ Anthill.dequeue m msgLen = .ok ⟨-eMsgsize, [], m.wrapHead⟩) ∨
      (message.1 ≤ msgLen.toNat ∧ ∃ m', Anthill.dequeue m msgLen = .ok ⟨message.1, message.2, m'⟩ ∧
        m'.Holds cap rest)) := by
  have count := holds.count
  by_cases empty : m.attr.mqCurmsg = 0
  · refine .inl ⟨List.length_eq_zero_iff.mp (by omega), ?_⟩
    simp only [Anthill.dequeue, empty, if_true]
  · obtain ⟨ringed, unwrapped⟩ := holds.ringed.wrapHead
    have some : m.wrapHead.attr.mqCurmsg ≠ 0 := by rwa [m.wrapHead_attr]
    obtain ⟨inside, ringed'⟩ := ringed.take some unwrapped
    have first := ringed.take_pending some unwrapped
    rw [m.wrapHead_pending holds.ringed.positive, holds.pending] at first
    have limit : m.oldest.size.toNat ≤ mqMaxMsgSize := holds.sizes _ (first ▸ List.mem_cons_self ..)
    have split : Anthill.dequeue m msgLen =
        if m.oldest.size > msgLen then .ok ⟨-eMsgsize, [], m.wrapHead⟩
        else
          .ok ⟨m.oldest.size.toInt, m.oldest.bytes,
            { m.wrapHead with head := m.wrapHead.head + 1 }.setCurmsg (m.wrapHead.attr.mqCurmsg - 1)⟩ := by
      have oldest : m.wrapHead.messages (m.wrapHead.head + 1).toNat = m.oldest := rfl
      simp only [Anthill.dequeue, empty, if_false, not_not_intro inside, oldest, if_neg (Nat.not_lt.mpr limit)]
    refine .inr ⟨m.oldest.content, _, first, ?_⟩
    by_cases small : m.oldest.size > msgLen
    · exact .inl ⟨small, split.trans (if_pos small)⟩
    · refine .inr ⟨Nat.not_lt.mp small, _, ?_, ringed', ?_, rfl, fun message member => ?_⟩
      · have size : mqMaxMsgSize = 128 := rfl
        rw [split, if_neg small, BitVec.toInt_eq_toNat_of_lt (by omega)]
        rfl
      · exact (congrArg MqAttr.mqMaxmsg m.wrapHead_attr).trans holds.cap
      · exact holds.sizes message (first ▸ List.mem_cons_of_mem _ member)

end Holds

theorem ring_refines (cap : Nat) : Fifo.Refines cap RingCall.run RingCall.op ringReply
    (fun call => ∀ msgPtr msgLen, call = .enqueue msgPtr msgLen → msgLen.toNat ≤ mqMaxMsgSize) (Mqueue.Holds cap) where
  step m messages call holds allowed := by
    cases call with
    | enqueue msgPtr msgLen =>
      rcases holds.enqueue msgPtr msgLen (allowed msgPtr msgLen rfl) with ⟨full, done⟩ | ⟨room, woken, m', done, pushed⟩
      · rw [RingCall.run, done, RingCall.op, Fifo.step, if_neg (by omega)]
        exact ⟨m.wrapTail, rfl, holds.wrapTail⟩
      · rw [RingCall.run, done, RingCall.op, Fifo.step, if_pos room]
        exact ⟨m', rfl, pushed⟩
    | dequeue msgLen =>
      rcases holds.dequeue msgLen with ⟨rfl, done⟩ | ⟨message, rest, rfl, ⟨long, done⟩ | ⟨short, m', done, popped⟩⟩
      · rw [RingCall.run, done]
        exact ⟨m, rfl, holds⟩
      · simp only [RingCall.run, done, RingCall.op, Fifo.step, decide_eq_false (Nat.not_le.mpr long)]
        exact ⟨m.wrapHead, rfl, holds.wrapHead⟩
      · simp only [RingCall.run, done, RingCall.op, Fifo.step, decide_eq_true short]
        exact ⟨m', rfl, popped⟩

/-- From head = tail = -1 on the ring is a queue of capacity mq_maxmsg, in the slots behind the head. -/
theorem ring_fifo (m : Mqueue) (cursors : m.head = -1 ∧ m.tail = -1 ∧ m.attr.mqCurmsg = 0)
    (low : 1 ≤ m.attr.mqMaxmsg) (high : m.attr.mqMaxmsg ≤ mqMaxMsg) (calls : List RingCall)
    (sizes : ∀ msgPtr msgLen, .enqueue msgPtr msgLen ∈ calls → msgLen.toNat ≤ mqMaxMsgSize) :
    let fifo := Fifo.steps m.attr.mqMaxmsg.toNat [] (calls.map RingCall.op)
    Fifo.put (calls.map RingCall.op) fifo.1 = Fifo.taken fifo.1 ++ fifo.2 ∧
    ∃ m', Fifo.runs RingCall.run m calls = some (fifo.1.map ringReply, m') ∧
      m'.attr.mqMaxmsg = m.attr.mqMaxmsg ∧ m'.attr.mqCurmsg = fifo.2.length ∧ m'.pending = fifo.2 := by
  obtain ⟨head, tail, none⟩ := cursors
  have start : m.Holds m.attr.mqMaxmsg.toNat [] := by
    refine ⟨⟨low, high, ⟨by omega, by omega⟩, ⟨by omega, by omega⟩, ⟨by omega, by omega⟩, .inl (by omega)⟩, by omega, ?_,
      fun message member => absurd member List.not_mem_nil⟩
    refine List.length_eq_zero_iff.mp ?_
    rw [m.pending_length, none]
    rfl
  obtain ⟨m', ran, holds⟩ := (ring_refines m.attr.mqMaxmsg.toNat).runs m [] start calls
    fun call member msgPtr msgLen is => sizes msgPtr msgLen (is ▸ member)
  exact ⟨Fifo.steps_order _ [] _, m', ran, holds.cap.trans (Int.toNat_of_nonneg (by omega)), holds.count, holds.pending⟩

-- In a ring of one cell the second message finds it full, and a buffer without room leaves it there.
theorem ring_fifo_one : ∃ m', Fifo.runs RingCall.run
      { Mqueue.unused with head := -1, tail := -1, attr := ⟨0, 1, 8, 0⟩ }
      [.enqueue (fun _ => 5) 1, .enqueue (fun _ => 6) 2, .dequeue 0] =
        some ([.enqueued true, .enqueued false, .dequeued (-eMsgsize) []], m') ∧ m'.pending = [(1, [5])] := by
  obtain ⟨-, m', ran, -, -, pending⟩ := ring_fifo { Mqueue.unused with head := -1, tail := -1, attr := ⟨0, 1, 8, 0⟩ }
    ⟨rfl, rfl, rfl⟩ (by decide) (by decide) [.enqueue (fun _ => 5) 1, .enqueue (fun _ => 6) 2, .dequeue 0]
    (by
      intro msgPtr msgLen member
      simp only [List.mem_cons, RingCall.enqueue.injEq, List.not_mem_nil, or_false, reduceCtorEq] at member
      rcases member with ⟨-, rfl⟩ | ⟨-, rfl⟩ <;> decide)
  exact ⟨m', ran, pending⟩

end Anthill
