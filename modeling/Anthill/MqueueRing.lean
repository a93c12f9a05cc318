import Anthill.Mqueue
import Anthill.Run

set_option autoImplicit false

namespace Anthill

-- What an operation on the messages of a queue leaves alone.
structure SameQueue (m m' : Mqueue) : Prop where
  id : m'.id = m.id
  isOpen : m'.isOpen = m.isOpen
  hash : m'.hash = m.hash
  pids : ∀ p, (m'.subs p).pid = (m.subs p).pid
  maxmsg : m'.attr.mqMaxmsg = m.attr.mqMaxmsg
  msgsize : m'.attr.mqMsgsize = m.attr.mqMsgsize

theorem SameQueue.refl (m : Mqueue) : SameQueue m m := ⟨rfl, rfl, rfl, fun _ => rfl, rfl, rfl⟩

theorem SameQueue.trans {m m' m'' : Mqueue} (first : SameQueue m m') (second : SameQueue m' m'') :
    SameQueue m m'' where
  id := second.id.trans first.id
  isOpen := second.isOpen.trans first.isOpen
  hash := second.hash.trans first.hash
  pids p := (second.pids p).trans (first.pids p)
  maxmsg := second.maxmsg.trans first.maxmsg
  msgsize := second.msgsize.trans first.msgsize

/-- The cursors of a queue. A queue whose mq_maxmsg is negative is never full and its cursors do not
wrap. -/
structure Cursors (m : Mqueue) : Prop where
  capLe : m.attr.mqMaxmsg ≤ mqMaxMsg
  sizeLe : m.attr.mqMsgsize ≤ mqMaxMsgSize
  head : -1 ≤ m.head
  tail : -1 ≤ m.tail
  count : 0 ≤ m.attr.mqCurmsg
  sizes : ∀ i, i < mqMaxMsg → (m.messages i).size.toNat ≤ mqMaxMsgSize
  ring : 0 < m.attr.mqMaxmsg → m.head < m.attr.mqMaxmsg ∧ m.tail < m.attr.mqMaxmsg ∧
    m.attr.mqCurmsg ≤ m.attr.mqMaxmsg ∧
    (m.tail = m.head + m.attr.mqCurmsg ∨ m.tail + m.attr.mqMaxmsg = m.head + m.attr.mqCurmsg ∨
      m.tail + 2 * m.attr.mqMaxmsg = m.head + m.attr.mqCurmsg ∨
      m.tail = m.head + m.attr.mqCurmsg + m.attr.mqMaxmsg)
  flat : m.attr.mqMaxmsg < 0 → m.tail = m.head + m.attr.mqCurmsg ∧ m.tail < mqMaxMsg
  bare : m.attr.mqMaxmsg = 0 → m.attr.mqCurmsg = 0

/-- The cursors of a ring. Before an operation the number of the last cell may also stand as -1. -/
structure Ringed (m : Mqueue) : Prop where
  positive : 0 < m.attr.mqMaxmsg
  capLe : m.attr.mqMaxmsg ≤ mqMaxMsg
  head : -1 ≤ m.head ∧ m.head < m.attr.mqMaxmsg
  tail : -1 ≤ m.tail ∧ m.tail < m.attr.mqMaxmsg
  count : 0 ≤ m.attr.mqCurmsg ∧ m.attr.mqCurmsg ≤ m.attr.mqMaxmsg
  place : m.tail = m.head + m.attr.mqCurmsg ∨ m.tail + m.attr.mqMaxmsg = m.head + m.attr.mqCurmsg ∨
    m.tail + 2 * m.attr.mqMaxmsg = m.head + m.attr.mqCurmsg ∨
    m.tail = m.head + m.attr.mqCurmsg + m.attr.mqMaxmsg

theorem Cursors.ringed {m : Mqueue} (cursors : Cursors m) (positive : 0 < m.attr.mqMaxmsg) : Ringed m := by
  obtain ⟨headLt, tailLt, countLe, place⟩ := cursors.ring positive
  exact ⟨positive, cursors.capLe, ⟨cursors.head, headLt⟩, ⟨cursors.tail, tailLt⟩, ⟨cursors.count, countLe⟩, place⟩

/-- A message as its size and its bytes. -/
def MqMessage.content (m : MqMessage) : Nat × List Byte := (m.size.toNat, m.bytes)

def sentMessage (msgPtr : Nat → Byte) (msgLen : Word) : Nat × List Byte :=
  (msgLen.toNat, (List.range msgLen.toNat).map msgPtr)

/-- The messages of a queue, oldest first. -/
def Mqueue.pending (m : Mqueue) : List (Nat × List Byte) :=
  (Ring.contents m.messages m.attr.mqMaxmsg.toNat (m.head + 1).toNat m.attr.mqCurmsg.toNat).map
    MqMessage.content

theorem Mqueue.pending_length (m : Mqueue) : m.pending.length = m.attr.mqCurmsg.toNat := by
  simp [Mqueue.pending]

theorem Mqueue.wrapTail_same (m : Mqueue) : SameQueue m m.wrapTail := by
  unfold Mqueue.wrapTail
  split_ifs <;> exact ⟨rfl, rfl, rfl, fun _ => rfl, rfl, rfl⟩

theorem Mqueue.wrapHead_same (m : Mqueue) : SameQueue m m.wrapHead := by
  unfold Mqueue.wrapHead
  split_ifs <;> exact ⟨rfl, rfl, rfl, fun _ => rfl, rfl, rfl⟩

-- An index of the ring is the remainder of the number it stands for.
theorem ring_index (cap h c i : Nat) (inside : i < cap)
    (same : i = h + c ∨ i + cap = h + c ∨ i + 2 * cap = h + c) : (h + c) % cap = i := by
  rcases same with same | same | same
  · rw [← same, Nat.mod_eq_of_lt inside]
  · rw [← same, Nat.add_mod_right, Nat.mod_eq_of_lt inside]
  · rw [← same, Nat.mul_comm, Nat.add_mul_mod_self_left, Nat.mod_eq_of_lt inside]

section Wrap

variable {m : Mqueue} (cursors : Cursors m)

include cursors

theorem Cursors.wrapTail : Cursors m.wrapTail := by
  unfold Mqueue.wrapTail
  split_ifs with last
  · obtain ⟨capLe, sizeLe, head, tail, count, sizes, ring, flat, bare⟩ := cursors
    refine ⟨capLe, sizeLe, head, by simp, count, sizes, fun positive => ?_, fun negative => ?_, bare⟩
    · obtain ⟨headLt, tailLt, countLe, place⟩ := ring positive
      refine ⟨headLt, ?_, countLe, ?_⟩ <;> simp only <;> omega
    · change m.attr.mqMaxmsg < 0 at negative
      omega
  · exact cursors

theorem Cursors.wrapHead : Cursors m.wrapHead := by
  unfold Mqueue.wrapHead
  split_ifs with last
  · obtain ⟨capLe, sizeLe, head, tail, count, sizes, ring, flat, bare⟩ := cursors
    refine ⟨capLe, sizeLe, by simp, tail, count, sizes, fun positive => ?_, fun negative => ?_, bare⟩
    · obtain ⟨headLt, tailLt, countLe, place⟩ := ring positive
      refine ⟨?_, tailLt, countLe, ?_⟩ <;> simp only <;> omega
    · change m.attr.mqMaxmsg < 0 at negative
      omega
  · exact cursors

end Wrap

theorem Mqueue.wrapTail_pending (m : Mqueue) : m.wrapTail.pending = m.pending := by
  unfold Mqueue.wrapTail
  split_ifs <;> rfl

theorem Mqueue.wrapHead_pending (m : Mqueue) (positive : 0 < m.attr.mqMaxmsg) :
    m.wrapHead.pending = m.pending := by
  unfold Mqueue.wrapHead
  split_ifs with last
  · simp only [Mqueue.pending]
    congr 1
    have whole : (m.head + 1).toNat = m.attr.mqMaxmsg.toNat := by omega
    rw [whole, ← Ring.contents_mod m.messages m.attr.mqMaxmsg.toNat m.attr.mqMaxmsg.toNat, Nat.mod_self]
    rfl
  · rfl

theorem unblockSubscribers_same (m : Mqueue) (flag : Flags) :
    SameQueue m (unblockSubscribers m flag).2 := by
  refine ⟨rfl, rfl, rfl, fun p => ?_, rfl, rfl⟩
  simp only [unblockSubscribers]
  split_ifs <;> rfl

/-- A queue that has room, and a message that it and the cell behind its last one can take. -/
structure Stores (m : Mqueue) (msgLen : Word) : Prop where
  fits : msgLen.toNat ≤ mqMaxMsgSize
  room : 0 < m.attr.mqMaxmsg ∨ m.tail + 1 < mqMaxMsg

/-- What an accepted message does to its queue. -/
structure Pushed (m m' : Mqueue) (message : Nat × List Byte) : Prop where
  cursors : Cursors m'
  same : SameQueue m m'
  count : m'.attr.mqCurmsg = m.attr.mqCurmsg + 1
  pending : 0 < m.attr.mqMaxmsg → m'.pending = m.pending ++ [message]

theorem Mqueue.put_same (m : Mqueue) (msgPtr : Nat → Byte) (msgLen : Word) :
    SameQueue m (m.put msgPtr msgLen).queue := by
  simp only [Mqueue.put]
  split_ifs
  · exact (unblockSubscribers_same _ blckRecv).trans ⟨rfl, rfl, rfl, fun _ => rfl, rfl, rfl⟩
  · exact ⟨rfl, rfl, rfl, fun _ => rfl, rfl, rfl⟩

-- The cursors and the cells after a message has been put into its cell.
theorem Mqueue.put_fields (m : Mqueue) (msgPtr : Nat → Byte) (msgLen : Word) :
    (m.put msgPtr msgLen).queue.head = m.head ∧ (m.put msgPtr msgLen).queue.tail = m.tail + 1 ∧
      (m.put msgPtr msgLen).queue.attr.mqCurmsg = m.attr.mqCurmsg + 1 ∧
      (m.put msgPtr msgLen).queue.messages = (m.store (m.tail + 1).toNat msgPtr msgLen).messages := by
  simp only [Mqueue.put]
  split_ifs <;> exact ⟨rfl, rfl, rfl, rfl⟩

theorem Mqueue.store_content (m : Mqueue) (i : Nat) (msgPtr : Nat → Byte) (msgLen : Word) :
    (fun j => ((m.store i msgPtr msgLen).messages j).content) =
      Function.update (fun j => (m.messages j).content) i (sentMessage msgPtr msgLen) := by
  funext j
  by_cases here : j = i
  · subst here
    rw [Function.update_self]
    simp only [Mqueue.store, Function.update_self, MqMessage.content, MqMessage.bytes, sentMessage,
      Prod.mk.injEq, true_and]
    exact List.map_congr_left fun b inside => if_pos (List.mem_range.mp inside)
  · simp only [Mqueue.store, Function.update_of_ne here]

@[simp] theorem Mqueue.wrapTail_attr (m : Mqueue) : m.wrapTail.attr = m.attr := by
  unfold Mqueue.wrapTail
  split_ifs <;> rfl

@[simp] theorem Mqueue.wrapHead_attr (m : Mqueue) : m.wrapHead.attr = m.attr := by
  unfold Mqueue.wrapHead
  split_ifs <;> rfl

theorem Mqueue.pending_eq (m : Mqueue) :
    m.pending = Ring.contents (fun i => (m.messages i).content) m.attr.mqMaxmsg.toNat
      (m.head + 1).toNat m.attr.mqCurmsg.toNat := by
  simp [Mqueue.pending, Ring.contents]

-- A message that is put into the cell behind the last one comes last.
theorem Ringed.put_pending {m : Mqueue} (ringed : Ringed m) (msgPtr : Nat → Byte) (msgLen : Word)
    (space : m.attr.mqCurmsg ≠ m.attr.mqMaxmsg) (unwrapped : m.tail ≠ m.attr.mqMaxmsg - 1) :
    (m.put msgPtr msgLen).queue.pending = m.pending ++ [sentMessage msgPtr msgLen] := by
  obtain ⟨positive, capLe, head, tail, count, place⟩ := ringed
  obtain ⟨headSame, -, cur, messages⟩ := m.put_fields msgPtr msgLen
  have index : ((m.head + 1).toNat + m.attr.mqCurmsg.toNat) % m.attr.mqMaxmsg.toNat = (m.tail + 1).toNat :=
    ring_index _ _ _ _ (by omega) (by omega)
  have more : (m.attr.mqCurmsg + 1).toNat = m.attr.mqCurmsg.toNat + 1 := by omega
  rw [Mqueue.pending_eq, Mqueue.pending_eq, messages, m.store_content, (m.put_same msgPtr msgLen).maxmsg, headSame, cur,
    more, ← index]
  exact Ring.contents_push _ _ _ _ _ (by omega)

-- The message in the cell behind the head comes first.
theorem Ringed.take_pending {m : Mqueue} (ringed : Ringed m) (some : m.attr.mqCurmsg ≠ 0)
    (unwrapped : m.head ≠ m.attr.mqMaxmsg - 1) :
    m.pending = (m.messages (m.head + 1).toNat).content ::
      ({ m with head := m.head + 1 }.setCurmsg (m.attr.mqCurmsg - 1)).pending := by
  obtain ⟨positive, capLe, head, tail, count, place⟩ := ringed
  have fewer : m.attr.mqCurmsg.toNat = (m.attr.mqCurmsg - 1).toNat + 1 := by omega
  have start : (m.head + 1 + 1).toNat = (m.head + 1).toNat + 1 := by omega
  have index : (m.head + 1).toNat % m.attr.mqMaxmsg.toNat = (m.head + 1).toNat := Nat.mod_eq_of_lt (by omega)
  simp only [Mqueue.pending_eq, Mqueue.setCurmsg]
  rw [fewer, Ring.contents_cons, index, start]

theorem Cursors.put {m : Mqueue} (cursors : Cursors m) (msgPtr : Nat → Byte) (msgLen : Word)
    (space : m.attr.mqCurmsg ≠ m.attr.mqMaxmsg) (unwrapped : m.tail ≠ m.attr.mqMaxmsg - 1)
    (stores : Stores m msgLen) :
    inMessages (m.tail + 1) ∧ Pushed m (m.put msgPtr msgLen).queue (sentMessage msgPtr msgLen) := by
  have ringed := cursors.ringed
  obtain ⟨capLe, sizeLe, headGe, tailGe, countGe, sizes, ring, flat, bare⟩ := cursors
  have same := m.put_same msgPtr msgLen
  obtain ⟨head, tail, cur, messages⟩ := m.put_fields msgPtr msgLen
  refine ⟨⟨by omega, ?_⟩, ⟨?_, ?_, ?_, ?_, ?_, ?_, ?_, ?_, ?_⟩, same, cur, ?_⟩
  · rcases stores.room with positive | room
    · have := ring positive
      omega
    · exact room
  · rw [same.maxmsg]
    exact capLe
  · rw [same.msgsize]
    exact sizeLe
  · rw [head]
    exact headGe
  · omega
  · omega
  · intro i inside
    rw [messages]
    by_cases here : i = (m.tail + 1).toNat
    · subst here
      simp only [Mqueue.store, Function.update_self]
      exact stores.fits
    · simp only [Mqueue.store, Function.update_of_ne here]
      exact sizes i inside
  · rw [same.maxmsg, head, tail, cur]
    intro positive
    have := ring positive
    omega
  · rw [same.maxmsg, head, tail, cur]
    intro negative
    have := flat negative
    have := stores.room
    omega
  · rw [same.maxmsg, cur]
    intro zero
    exact absurd ((bare zero).trans zero.symm) space
  · intro positive
    exact (ringed positive).put_pending msgPtr msgLen space unwrapped

/-- _enqueue finds the queue full, goes out of bounds, or accepts the message. -/
theorem enqueue_cases {m : Mqueue} (cursors : Cursors m) (msgPtr : Nat → Byte) (msgLen : Word) :
    (m.attr.mqCurmsg = m.attr.mqMaxmsg ∧ enqueue m msgPtr msgLen = .ok ⟨false, [], m.wrapTail⟩) ∨
    (m.attr.mqCurmsg ≠ m.attr.mqMaxmsg ∧ ¬ Stores m msgLen ∧
      ∃ fault, enqueue m msgPtr msgLen = .error fault) ∨
    (m.attr.mqCurmsg ≠ m.attr.mqMaxmsg ∧ Stores m msgLen ∧
      ∃ woken m', enqueue m msgPtr msgLen = .ok ⟨true, woken, m'⟩ ∧
        Pushed m m' (sentMessage msgPtr msgLen)) := by
  by_cases full : m.attr.mqCurmsg = m.attr.mqMaxmsg
  · refine .inl ⟨full, ?_⟩
    simp only [enqueue, Mqueue.wrapTail_attr, full, if_true]
  have unwrapped : m.wrapTail.tail ≠ m.wrapTail.attr.mqMaxmsg - 1 := by
    have nonzero : m.attr.mqMaxmsg ≠ 0 := fun zero => full ((cursors.bare zero).trans zero.symm)
    rw [Mqueue.wrapTail_attr]
    unfold Mqueue.wrapTail
    split_ifs with last
    · simp only
      omega
    · exact last
  have room : (0 < m.wrapTail.attr.mqMaxmsg ∨ m.wrapTail.tail + 1 < mqMaxMsg) ↔
      (0 < m.attr.mqMaxmsg ∨ m.tail + 1 < mqMaxMsg) := by
    have tail := cursors.tail
    rw [Mqueue.wrapTail_attr]
    unfold Mqueue.wrapTail
    split_ifs with last
    · simp only
      omega
    · rfl
  have split : enqueue m msgPtr msgLen =
      if ¬ inMessages (m.wrapTail.tail + 1) then .error .index
      else if mqMaxMsgSize < msgLen.toNat then .error .copy
      else .ok (m.wrapTail.put msgPtr msgLen) := by
    simp only [enqueue, Mqueue.wrapTail_attr, full, if_false]
  by_cases stores : Stores m msgLen
  · obtain ⟨inside, pushed⟩ := cursors.wrapTail.put msgPtr msgLen
      (by rw [Mqueue.wrapTail_attr]; exact full) unwrapped ⟨stores.fits, room.mpr stores.room⟩
    refine .inr (.inr ⟨full, stores, (m.wrapTail.put msgPtr msgLen).woken, _, ?_, pushed.cursors,
      m.wrapTail_same.trans pushed.same, ?_, ?_⟩)
    · rw [split, if_neg (not_not_intro inside), if_neg (by have := stores.fits; omega)]
      rfl
    · rw [pushed.count, Mqueue.wrapTail_attr]
    · intro positive
      rw [← m.wrapTail_pending]
      exact pushed.pending (by rw [Mqueue.wrapTail_attr]; exact positive)
  · refine .inr (.inl ⟨full, stores, ?_⟩)
    rw [split]
    by_cases inside : inMessages (m.wrapTail.tail + 1)
    · have long : mqMaxMsgSize < msgLen.toNat := by
        by_contra short
        exact stores ⟨by omega, room.mp (.inr inside.2)⟩
      rw [if_neg (not_not_intro inside), if_pos long]
      exact ⟨_, rfl⟩
    · rw [if_pos inside]
      exact ⟨_, rfl⟩

/-- What taking the oldest message does to its queue. -/
structure Popped (m m' : Mqueue) (message : Nat × List Byte) : Prop where
  cursors : Cursors m'
  same : SameQueue m m'
  subs : m'.subs = m.subs
  count : m'.attr.mqCurmsg = m.attr.mqCurmsg - 1
  pending : 0 < m.attr.mqMaxmsg → m.pending = message :: m'.pending

theorem Cursors.take {m : Mqueue} (cursors : Cursors m) (some : m.attr.mqCurmsg ≠ 0)
    (unwrapped : m.head ≠ m.attr.mqMaxmsg - 1) :
    inMessages (m.head + 1) ∧
      Popped m ({ m with head := m.head + 1 }.setCurmsg (m.attr.mqCurmsg - 1))
        (m.messages (m.head + 1).toNat).content := by
  have ringed := cursors.ringed
  obtain ⟨capLe, sizeLe, headGe, tailGe, countGe, sizes, ring, flat, bare⟩ := cursors
  have sign : 0 < m.attr.mqMaxmsg ∨ m.attr.mqMaxmsg < 0 := by
    by_contra both
    exact some (bare (by omega))
  refine ⟨⟨by omega, ?_⟩, ⟨capLe, sizeLe, ?_, tailGe, ?_, sizes, ?_, ?_, ?_⟩,
    ⟨rfl, rfl, rfl, fun _ => rfl, rfl, rfl⟩, rfl, rfl, ?_⟩
  · rcases sign with positive | negative
    · have := ring positive
      omega
    · have := flat negative
      omega
  · show -1 ≤ m.head + 1
    omega
  · show 0 ≤ m.attr.mqCurmsg - 1
    omega
  · intro positive
    change 0 < m.attr.mqMaxmsg at positive
    have := ring positive
    simp only [Mqueue.setCurmsg]
    omega
  · intro negative
    change m.attr.mqMaxmsg < 0 at negative
    have := flat negative
    simp only [Mqueue.setCurmsg]
    omega
  · intro zero
    exact absurd (bare zero) some
  · intro positive
    exact (ringed positive).take_pending some unwrapped

-- The message that _dequeue would take.
def Mqueue.oldest (m : Mqueue) : MqMessage := m.wrapHead.messages (m.wrapHead.head + 1).toNat

/-- _dequeue finds the queue empty or its buffer too small, or takes the oldest message. -/
theorem dequeue_cases {m : Mqueue} (cursors : Cursors m) (msgLen : Word) :
    (m.attr.mqCurmsg = 0 ∧ dequeue m msgLen = .ok ⟨0, [], m⟩) ∨
    (m.attr.mqCurmsg ≠ 0 ∧ m.oldest.size > msgLen ∧
      dequeue m msgLen = .ok ⟨-eMsgsize, [], m.wrapHead⟩) ∨
    (m.attr.mqCurmsg ≠ 0 ∧ ∃ m', m.oldest.size.toNat ≤ mqMaxMsgSize ∧
      dequeue m msgLen = .ok ⟨m.oldest.size.toNat, m.oldest.bytes, m'⟩ ∧ Popped m m' m.oldest.content) := by
  by_cases empty : m.attr.mqCurmsg = 0
  · refine .inl ⟨empty, ?_⟩
    simp only [dequeue, empty, if_true]
  have unwrapped : m.wrapHead.head ≠ m.wrapHead.attr.mqMaxmsg - 1 := by
    have nonzero : m.attr.mqMaxmsg ≠ 0 := fun zero => empty (cursors.bare zero)
    rw [Mqueue.wrapHead_attr]
    unfold Mqueue.wrapHead
    split_ifs with last
    · simp only
      omega
    · exact last
  obtain ⟨inside, popped⟩ := cursors.wrapHead.take (by rw [Mqueue.wrapHead_attr]; exact empty) unwrapped
  have short : m.oldest.size.toNat ≤ mqMaxMsgSize := by
    have := inside.1
    have := inside.2
    exact cursors.wrapHead.sizes _ (by omega)
  have split : dequeue m msgLen =
      if m.oldest.size > msgLen then .ok ⟨-eMsgsize, [], m.wrapHead⟩
      else
        .ok ⟨m.oldest.size.toInt, m.oldest.bytes,
          { m.wrapHead with head := m.wrapHead.head + 1 }.setCurmsg (m.wrapHead.attr.mqCurmsg - 1)⟩ := by
    have oldest : m.wrapHead.messages (m.wrapHead.head + 1).toNat = m.oldest := rfl
    simp only [dequeue, empty, if_false, not_not_intro inside, oldest, if_neg (Nat.not_lt.mpr short)]
  by_cases small : m.oldest.size > msgLen
  · exact .inr (.inl ⟨empty, small, split.trans (if_pos small)⟩)
  · refine .inr (.inr ⟨empty, _, short, ?_, popped.cursors, m.wrapHead_same.trans popped.same, ?_, ?_, ?_⟩)
    · have limit : mqMaxMsgSize = 128 := rfl
      rw [split, if_neg small, BitVec.toInt_eq_toNat_of_lt (by omega)]
    · rw [popped.subs]
      unfold Mqueue.wrapHead
      split_ifs <;> rfl
    · rw [popped.count, Mqueue.wrapHead_attr]
    · intro positive
      rw [← m.wrapHead_pending positive]
      exact popped.pending (by rw [Mqueue.wrapHead_attr]; exact positive)

/-- The message that comes to an empty queue unblocks every task whose flag is set. -/
theorem enqueue_woken (m m' : Mqueue) (msgPtr : Nat → Byte) (msgLen : Word) (woken : List Int)
    (done : enqueue m msgPtr msgLen = .ok ⟨true, woken, m'⟩) (first : m.attr.mqCurmsg = 0)
    (p : Fin mqMaxSubscribers) (set : (m.subs p).flags &&& blckRecv ≠ 0) : (m.subs p).pid ∈ woken := by
  have subs : m.wrapTail.subs = m.subs := by
    unfold Mqueue.wrapTail
    split_ifs <;> rfl
  simp only [enqueue] at done
  split_ifs at done
  · cases done
  · have put := Except.ok.inj done
    have same := congrArg Enqueued.woken put
    simp only [Mqueue.put, Mqueue.store, Mqueue.wrapTail_attr, first, if_true, unblockSubscribers, subs]
      at same
    rw [← same]
    exact List.mem_map.mpr ⟨p, List.mem_filter.mpr ⟨List.mem_finRange p, by simpa using set⟩, rfl⟩

end Anthill
