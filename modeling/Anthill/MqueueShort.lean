import Anthill.MqueueDelivery

set_option autoImplicit false

namespace Anthill

section Oldest

variable {m : Mqueue} (cursors : Cursors m)

include cursors

/-- The wrap of the head does not change what is pending, also in a queue that is never full. -/
theorem Cursors.pending_wrapHead : m.wrapHead.pending = m.pending := by
  by_cases positive : 0 < m.attr.mqMaxmsg
  · exact m.wrapHead_pending positive
  · unfold Mqueue.wrapHead
    split_ifs with last
    · have low := cursors.head
      have start : m.head = -1 := by omega
      rw [← start]
    · rfl

theorem Cursors.oldest_first (first : Nat × List Byte) (rest : List (Nat × List Byte))
    (there : m.pending = first :: rest) : m.attr.mqCurmsg ≠ 0 ∧ m.oldest.content = first := by
  have length : m.attr.mqCurmsg.toNat = rest.length + 1 := by
    rw [← m.pending_length, there, List.length_cons]
  have low := cursors.head
  have unwrapped : m.wrapHead.head + 1 = m.attr.mqMaxmsg → ¬ 0 < m.attr.mqMaxmsg := by
    unfold Mqueue.wrapHead
    split_ifs with last
    · simp only
      omega
    · omega
  have index : (m.wrapHead.head + 1).toNat % m.attr.mqMaxmsg.toNat = (m.wrapHead.head + 1).toNat := by
    by_cases positive : 0 < m.attr.mqMaxmsg
    · have ring := cursors.wrapHead.ring (by rwa [m.wrapHead_attr])
      rw [m.wrapHead_attr] at ring
      refine Nat.mod_eq_of_lt ?_
      by_contra last
      exact unwrapped (by omega) positive
    · have none : m.attr.mqMaxmsg.toNat = 0 := by omega
      rw [none, Nat.mod_zero]
  have shown := cursors.pending_wrapHead.trans there
  rw [Mqueue.pending_eq, m.wrapHead_attr, length, Ring.contents_cons, index] at shown
  exact ⟨by omega, (List.cons.inj shown).1⟩

end Oldest

/-- What mqueue_receive is to do with a buffer that is too small for the oldest message. -/
def RefusesShort (s : Mqueues) (pid id : Int) (msgLen : Word) : Prop :=
  ∃ s', mqueueReceive s pid id msgLen = .ok (.returned (-eMsgsize) [], s') ∧
    ∀ q, (s'.openQueues q).pending = (s.openQueues q).pending

-- What comes out of the loop when _dequeue refuses: its result is not looked at.
def shortOutcome (s : Mqueues) (q : Fin mqMaxOpen) (p : Fin mqMaxSubscribers) (msgLen : Word) : MqOutcome :=
  if ((s.openQueues q).subs p).flags &&& oWronly ≠ 0 then .returned (-eAcces) []
  else if ((s.openQueues q).subs p).flags &&& oNonblock ≠ 0 then .returned (-eAgain) []
  else .blocked (.receive q p msgLen)

theorem shortOutcome_ne (s : Mqueues) (q : Fin mqMaxOpen) (p : Fin mqMaxSubscribers) (msgLen : Word) :
    shortOutcome s q p msgLen ≠ .returned (-eMsgsize) [] := by
  unfold shortOutcome
  split_ifs <;> simp [eMsgsize, eAcces, eAgain]

theorem wrapHead_subs (m : Mqueue) : m.wrapHead.subs = m.subs := by
  unfold Mqueue.wrapHead
  split_ifs <;> rfl

section Short

variable (s : Mqueues) (cursors : ∀ q, Cursors (s.openQueues q)) (q : Fin mqMaxOpen) (p : Fin mqMaxSubscribers)
  (pid id : Int) (msgLen : Word) (found : s.find id = some q) (place : findSubscriber (s.openQueues q) pid = some p)
  (first : Nat × List Byte) (rest : List (Nat × List Byte)) (there : (s.openQueues q).pending = first :: rest)
  (long : msgLen.toNat < first.1)

include cursors found place there long

theorem mqueueReceive_long : ∃ s', mqueueReceive s pid id msgLen = .ok (shortOutcome s q p msgLen, s') ∧
    ∀ q', (s'.openQueues q').pending = (s.openQueues q').pending := by
  have put (m : Mqueue) (same : m.pending = (s.openQueues q).pending) (q' : Fin mqMaxOpen) :
      ((s.setQueue q m).openQueues q').pending = (s.openQueues q').pending := by
    by_cases here : q' = q
    · rw [here, s.setQueue_self, same]
    · rw [s.setQueue_other q q' m here]
  obtain ⟨some, oldest⟩ := (cursors q).oldest_first first rest there
  have larger : (s.openQueues q).oldest.size > msgLen := by
    have size : (s.openQueues q).oldest.size.toNat = first.1 := congrArg Prod.fst oldest
    rw [gt_iff_lt, BitVec.lt_def, size]
    exact long
  have tested : dequeue (s.openQueues q) msgLen = .error .index ∨
      dequeue (s.openQueues q) msgLen = .ok ⟨-eMsgsize, [], (s.openQueues q).wrapHead⟩ := by
    unfold dequeue
    rw [if_neg some]
    by_cases inside : inMessages ((s.openQueues q).wrapHead.head + 1)
    · exact .inr ((if_neg (not_not.mpr inside)).trans (if_pos larger))
    · exact .inl (if_pos inside)
  have refused : dequeue (s.openQueues q) msgLen = .ok ⟨-eMsgsize, [], (s.openQueues q).wrapHead⟩ := by
    refine tested.resolve_left fun outside => ?_
    rcases dequeue_cases (cursors q) msgLen with ⟨_, done⟩ | ⟨_, _, done⟩ | ⟨_, _, _, done, _⟩ <;>
      rw [outside] at done <;> cases done
  unfold mqueueReceive shortOutcome
  simp only [found, place]
  by_cases denied : ((s.openQueues q).subs p).flags &&& oWronly ≠ 0
  · rw [if_pos denied, if_pos denied]
    exact ⟨s, rfl, fun _ => rfl⟩
  · rw [if_neg denied, if_neg denied]
    have kept := (cursors q).pending_wrapHead
    have negative : ¬ -eMsgsize > 0 := by decide
    simp only [MqWait.round, refused, negative, if_false, wrapHead_subs]
    split_ifs
    · exact ⟨_, rfl, put _ kept⟩
    · exact ⟨_, rfl, put _ ((addFlag_ring _ p blckRecv).pending.trans kept)⟩

theorem not_refusesShort : ¬ RefusesShort s pid id msgLen := by
  rintro ⟨s'', refused, -⟩
  obtain ⟨s', done, -⟩ := mqueueReceive_long s cursors q p pid id msgLen found place first rest there long
  rw [done] at refused
  exact shortOutcome_ne s q p msgLen (Prod.mk.inj (Except.ok.inj refused)).1

end Short

/-- A receive into a buffer that is too small fails with EAGAIN or blocks, and takes nothing. -/
theorem mqueueReceive_short (s : MqSys)
    (run : Run (fun s call s' => ∃ out, s.Step call out s') (fun _ _ => True) .boot s) (q : Fin mqMaxOpen)
    (p : Fin mqMaxSubscribers) (pid id : Int) (msgLen : Word) (first : Nat × List Byte) (rest : List (Nat × List Byte))
    (found : s.queues.find id = some q) (place : findSubscriber (s.queues.openQueues q) pid = some p)
    (there : (s.queues.openQueues q).pending = first :: rest) (long : msgLen.toNat < first.1) :
    ¬ RefusesShort s.queues pid id msgLen ∧
      ∃ s', mqueueReceive s.queues pid id msgLen = .ok (shortOutcome s.queues q p msgLen, s') ∧
        ∀ q', (s'.openQueues q').pending = (s.queues.openQueues q').pending := by
  have safe : MqSafe s := run.invariant MqSafe .boot fun _ _ _ safe _ ⟨_, taken⟩ => safe.step taken
  exact ⟨not_refusesShort s.queues safe.cursors q p pid id msgLen found place first rest there long,
    mqueueReceive_long s.queues safe.cursors q p pid id msgLen found place first rest there long⟩

def sendTwo : MqCall := .send 1 1 (fun _ => 0) 2

-- A queue of one message of two bytes, and its subscriber.
def twoBytes : MqSys :=
  match sendTwo.act (opened ⟨0, 1, 2, 0⟩).queues with
  | .ok (_, queues) => ⟨queues, fun _ => none⟩
  | .error _ => opened ⟨0, 1, 2, 0⟩

theorem twoBytes_run : Run (fun s call s' => ∃ out, MqSys.Step s call out s') (fun _ _ => True) .boot twoBytes :=
  .next (opened ⟨0, 1, 2, 0⟩) _ sendTwo (.next MqSys.boot _ (openQ ⟨0, 1, 2, 0⟩) .start trivial (opened_step _)) trivial
    ⟨.returned 0 [], rfl, rfl, (Function.update_eq_self 1 (fun _ => none)).symm⟩

theorem twoBytes_pending : twoBytes.queues.find 1 = some 0 ∧ findSubscriber (twoBytes.queues.openQueues 0) 1 = some 0 ∧
    (twoBytes.queues.openQueues 0).pending = [(2, [0, 0])] := by
  decide +kernel

theorem mqueueReceive_short_byte : ¬ RefusesShort twoBytes.queues 1 1 1 :=
  (mqueueReceive_short twoBytes twoBytes_run 0 0 1 1 1 (2, [0, 0]) [] twoBytes_pending.1 twoBytes_pending.2.1
    twoBytes_pending.2.2 (by decide)).1

theorem shortReceive_eagain : ¬ ∀ s : MqSys, Run (fun s call s' => ∃ out, MqSys.Step s call out s') (fun _ _ => True) .boot s →
    ∀ q pid id msgLen, s.queues.find id = some q → (findSubscriber (s.queues.openQueues q) pid).isSome →
      (∃ first rest, (s.queues.openQueues q).pending = first :: rest ∧ msgLen.toNat < first.1) →
        RefusesShort s.queues pid id msgLen := by
  intro claim
  have refuses := claim twoBytes twoBytes_run 0 1 1 1 twoBytes_pending.1
    (by rw [twoBytes_pending.2.1]; rfl) ⟨_, _, twoBytes_pending.2.2, by decide⟩
  have safe : MqSafe twoBytes := twoBytes_run.invariant MqSafe .boot fun _ _ _ safe _ ⟨_, taken⟩ => safe.step taken
  exact not_refusesShort twoBytes.queues safe.cursors 0 0 1 1 1 twoBytes_pending.1 twoBytes_pending.2.1
    (2, [0, 0]) [] twoBytes_pending.2.2 (by decide) refuses

end Anthill
