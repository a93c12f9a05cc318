import Anthill.Fifo
import Anthill.MsgbufQueue

set_option autoImplicit false

namespace Anthill

inductive QueueCall where
  | push (sendId : Int)
  | pop

-- What _msgbuf_queue_push and _msgbuf_queue_pop return.
def QueueCall.run (msgbuf : Msgbuf) : QueueCall → Option (Int × Msgbuf)
  | .push sendId =>
    let (pushed, msgbuf) := queuePush msgbuf sendId
    some (if pushed then 0 else -1, msgbuf)
  | .pop =>
    match queuePop msgbuf with
    | .ok (id, msgbuf) => some (id, msgbuf)
    | .error _ => none

def QueueCall.op : QueueCall → Fifo.Op Int
  | .push sendId => .push sendId
  | .pop => .pop fun _ => true

def queueResult : Fifo.Result Int → Int
  | .pushed => 0
  | .popped id => id
  | .full | .refused | .empty => -1

/-- The occupied slots are those from recv_queue_pos on, as many as there are ids. -/
structure Msgbuf.Holds (msgbuf : Msgbuf) (ids : List Int) : Prop where
  pos : msgbuf.recvQueuePos.toNat < queueSize
  contents : msgbuf.Contents ids
  positive : ∀ id, id ∈ ids → 0 ≤ id

theorem Msgbuf.Holds.push {msgbuf : Msgbuf} {ids : List Int} (holds : msgbuf.Holds ids) (sendId : Int)
    (positive : 0 ≤ sendId) :
    (ids.length < queueSize ∧ ∃ msgbuf', queuePush msgbuf sendId = (true, msgbuf') ∧ msgbuf'.Holds (ids ++ [sendId])) ∨
    (ids.length = queueSize ∧ queuePush msgbuf sendId = (false, msgbuf)) := by
  rcases queuePush_cases msgbuf sendId holds.pos with ⟨i, msgbuf', found, done, -, queue, rest⟩ | ⟨full, done⟩
  · have free : msgbuf.queued i = -1 := of_decide_eq_true (Slots.first_some _ i found)
    have length : ids.length ≤ i.val := (holds.contents.free i).mp free
    rcases holds.contents.push sendId (by omega) true msgbuf' done with ⟨-, contents⟩ | ⟨failed, -⟩
    · refine .inl ⟨length.trans_lt i.isLt, msgbuf', done, ?_, contents, fun id member => ?_⟩
      · rw [rest]
        exact holds.pos
      · rcases List.mem_append.mp member with old | last
        · exact holds.positive id old
        · rw [List.mem_singleton.mp last]
          exact positive
    · cases failed
  · refine .inr ⟨?_, done⟩
    have last : ¬ ids.length ≤ 7 := fun le => full ⟨7, by decide⟩ ((holds.contents.free ⟨7, by decide⟩).mpr le)
    have most : ids.length ≤ 8 := holds.contents.length
    show ids.length = 8
    omega

theorem Msgbuf.Holds.pop {msgbuf : Msgbuf} {ids : List Int} (holds : msgbuf.Holds ids) :
    (ids = [] ∧ queuePop msgbuf = .ok (-1, msgbuf)) ∨
    ∃ id rest msgbuf', ids = id :: rest ∧ queuePop msgbuf = .ok (id, msgbuf') ∧ msgbuf'.Holds rest := by
  rcases queuePop_cases msgbuf holds.pos with ⟨empty, done⟩ | ⟨some, msgbuf', done, -, pos, -⟩
  · have length := (holds.contents.free 0).mp empty
    exact .inl ⟨List.eq_nil_of_length_eq_zero (Nat.le_zero.mp length), done⟩
  · rcases holds.contents.pop _ msgbuf' done with ⟨-, none, -⟩ | ⟨rest, rfl, -, contents⟩
    · exact absurd none some
    · exact .inr ⟨_, rest, msgbuf', rfl, done, pos, contents,
        fun id member => holds.positive id (List.mem_cons_of_mem _ member)⟩

theorem queue_refines : Fifo.Refines queueSize QueueCall.run QueueCall.op queueResult
    (fun call => ∀ id, call = .push id → 0 ≤ id) Msgbuf.Holds where
  step msgbuf ids call holds allowed := by
    cases call with
    | push sendId =>
      rcases holds.push sendId (allowed sendId rfl) with ⟨room, msgbuf', done, pushed⟩ | ⟨full, done⟩
      · rw [QueueCall.run, QueueCall.op, Fifo.step, if_pos room, done]
        exact ⟨msgbuf', rfl, pushed⟩
      · rw [QueueCall.run, QueueCall.op, Fifo.step, if_neg (by omega), done]
        exact ⟨msgbuf, rfl, holds⟩
    | pop =>
      rcases holds.pop with ⟨rfl, done⟩ | ⟨id, rest, msgbuf', rfl, done, popped⟩
      · rw [QueueCall.run, done]
        exact ⟨msgbuf, rfl, holds⟩
      · rw [QueueCall.run, done]
        exact ⟨msgbuf', rfl, popped⟩

/-- The receive queue is a queue of capacity QUEUE_SIZE, in the slots from recv_queue_pos on. -/
theorem recvQueue_fifo (msgbuf : Msgbuf) (pos : msgbuf.recvQueuePos.toNat < queueSize)
    (free : msgbuf.recvQueue = fun _ => -1) (calls : List QueueCall) (ids : ∀ id, .push id ∈ calls → 0 ≤ id) :
    let fifo := Fifo.steps queueSize [] (calls.map QueueCall.op)
    Fifo.put (calls.map QueueCall.op) fifo.1 = Fifo.taken fifo.1 ++ fifo.2 ∧
    ∃ msgbuf', Fifo.runs QueueCall.run msgbuf calls = some (fifo.1.map queueResult, msgbuf') ∧
      msgbuf'.recvQueuePos.toNat < queueSize ∧ fifo.2.length ≤ queueSize ∧ (∀ id, id ∈ fifo.2 → 0 ≤ id) ∧
      ∀ i, msgbuf'.recvQueue (queuePlace msgbuf' i) = fifo.2[i.val]?.getD (-1) := by
  have start : msgbuf.Holds [] := ⟨pos, .nil msgbuf free, fun id none => absurd none List.not_mem_nil⟩
  obtain ⟨msgbuf', ran, holds⟩ := queue_refines.runs msgbuf [] start calls fun call member id is => ids id (is ▸ member)
  exact ⟨Fifo.steps_order queueSize [] _, msgbuf', ran, holds.pos, holds.contents.length, holds.positive,
    holds.contents.cells⟩

-- A queue that starts at its last slot.
theorem recvQueue_fifo_wraps : ∃ msgbuf',
    Fifo.runs QueueCall.run { Msgbuf.blank with recvQueue := fun _ => -1, recvQueuePos := 7 }
        [.pop, .push 4, .push 0, .pop] = some ([-1, 0, 0, 4], msgbuf') ∧
      msgbuf'.recvQueue (queuePlace msgbuf' 0) = 0 := by
  have ids : ∀ id, QueueCall.push id ∈ [.pop, .push 4, .push 0, .pop] → 0 ≤ id := by simp
  obtain ⟨-, msgbuf', ran, -, -, -, cells⟩ := recvQueue_fifo
    { Msgbuf.blank with recvQueue := fun _ => -1, recvQueuePos := 7 } (by decide) rfl [.pop, .push 4, .push 0, .pop] ids
  exact ⟨msgbuf', ran, cells 0⟩

end Anthill
