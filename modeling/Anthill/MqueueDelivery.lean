import Anthill.MqueueRing

set_option autoImplicit false

namespace Anthill

theorem attrLimits_le (attr : Option MqAttr) (limits : Int × Int) (fine : attrLimits attr = .ok limits) :
    limits.1 ≤ mqMaxMsg ∧ limits.2 ≤ mqMaxMsgSize := by
  cases attr with
  | none =>
    obtain rfl := Except.ok.inj fine
    exact ⟨le_refl _, le_refl _⟩
  | some attr =>
    simp only [attrLimits] at fine
    cases check : attrCheck attr with
    | some err => rw [check] at fine; cases fine
    | none =>
      rw [check] at fine
      obtain rfl := Except.ok.inj fine
      simp only [attrCheck] at check
      split_ifs at check
      exact ⟨by omega, by omega⟩

-- The part of a queue that its messages are kept in.
structure SameRing (m m' : Mqueue) : Prop where
  attr : m'.attr = m.attr
  head : m'.head = m.head
  tail : m'.tail = m.tail
  messages : m'.messages = m.messages

theorem SameRing.refl (m : Mqueue) : SameRing m m := ⟨rfl, rfl, rfl, rfl⟩

theorem SameRing.cursors {m m' : Mqueue} (same : SameRing m m') (cursors : Cursors m) : Cursors m' := by
  obtain ⟨attr, head, tail, messages⟩ := same
  obtain ⟨h1, h2, h3, h4, h5, h6, h7, h8, h9⟩ := cursors
  exact ⟨by rwa [attr], by rwa [attr], by rwa [head], by rwa [tail], by rwa [attr], by rwa [messages],
    by rwa [attr, head, tail], by rwa [attr, head, tail], by rwa [attr]⟩

theorem SameRing.pending {m m' : Mqueue} (same : SameRing m m') : m'.pending = m.pending := by
  simp only [Mqueue.pending, same.attr, same.head, same.messages]

theorem destroy_ring (m : Mqueue) : SameRing m (destroy m) := by
  simp only [destroy]
  split_ifs <;> exact ⟨rfl, rfl, rfl, rfl⟩

theorem unsubscribe_ring (m : Mqueue) (pid : Int) : SameRing m (unsubscribe m pid).2 := by
  unfold unsubscribe
  cases findSubscriber m pid <;> exact ⟨rfl, rfl, rfl, rfl⟩

theorem SameRing.trans {m m' m'' : Mqueue} (first : SameRing m m') (second : SameRing m' m'') :
    SameRing m m'' :=
  ⟨second.attr.trans first.attr, second.head.trans first.head, second.tail.trans first.tail,
    second.messages.trans first.messages⟩

theorem setQueue_ring (s : Mqueues) (q q' : Fin mqMaxOpen) (mqueue : Mqueue)
    (same : SameRing (s.openQueues q) mqueue) :
    SameRing (s.openQueues q') ((s.setQueue q mqueue).openQueues q') := by
  by_cases here : q' = q
  · subst here
    rw [Mqueues.setQueue_self]
    exact same
  · rw [s.setQueue_other q q' mqueue here]
    exact .refl _

theorem mqueueJoin_ring (s : Mqueues) (pid : Int) (oflag : Flags) (q q' : Fin mqMaxOpen) :
    SameRing (s.openQueues q') ((mqueueJoin s pid oflag (some q)).2.openQueues q') := by
  rcases mqueueJoin_cases s pid oflag q with ⟨_, result⟩ | ⟨_, _, result⟩ | ⟨p, _, _, result⟩
  · rw [result]
    exact .refl _
  · rw [result]
    exact .refl _
  · rw [result]
    exact setQueue_ring s q q' _ ⟨rfl, rfl, rfl, rfl⟩

theorem mqueueClose_ring (s : Mqueues) (pid mqdes : Int) (q' : Fin mqMaxOpen) :
    SameRing (s.openQueues q') ((mqueueClose s pid mqdes).2.openQueues q') := by
  unfold mqueueClose
  cases s.find mqdes with
  | none => exact .refl _
  | some q =>
    simp only
    split_ifs
    · exact setQueue_ring s q q' _ ((unsubscribe_ring _ pid).trans (destroy_ring _))
    · exact setQueue_ring s q q' _ (unsubscribe_ring _ pid)

theorem mqueueUnlink_ring (s : Mqueues) (name : List Byte) (q' : Fin mqMaxOpen) :
    SameRing (s.openQueues q') ((mqueueUnlink s name).2.openQueues q') := by
  unfold mqueueUnlink
  cases s.findHash (strhash name) with
  | none => exact .refl _
  | some q => exact setQueue_ring s q q' _ (destroy_ring _)

/-- A new queue is empty, with the limits that mqueue_open let through. -/
theorem create_cursors (s : Mqueues) (q : Fin mqMaxOpen) (hash : Word) (limits : Int × Int)
    (attr : Option MqAttr) (fine : attrLimits attr = .ok limits) (before : Cursors (s.openQueues q)) :
    Cursors ((s.create q hash limits).openQueues q) ∧ ((s.create q hash limits).openQueues q).pending = [] := by
  obtain ⟨maxLe, sizeLe⟩ := attrLimits_le attr limits fine
  simp only [Mqueues.create, Mqueues.setQueue_self]
  refine ⟨⟨maxLe, sizeLe, by simp, by simp, by simp, before.sizes, fun positive => ?_, fun _ => ?_,
    fun _ => rfl⟩, rfl⟩
  · simp only at positive ⊢
    omega
  · simp

theorem create_other (s : Mqueues) (q q' : Fin mqMaxOpen) (hash : Word) (limits : Int × Int)
    (away : q' ≠ q) : (s.create q hash limits).openQueues q' = s.openQueues q' :=
  s.setQueue_other q q' _ away

/-- Every call but a send or receive leaves the messages of the queues alone, or makes an empty one. -/
theorem open_ring (s : Mqueues) (cursors : ∀ q, Cursors (s.openQueues q)) (pid : Int)
    (name : List Byte) (oflag : Flags) (attr : Option MqAttr) (q : Fin mqMaxOpen) :
    Cursors ((mqueueOpen s pid name oflag attr).2.openQueues q) ∧
      ((∃ limits, (MqCall.open pid name oflag attr).creates s = some (q, limits) ∧
          ((mqueueOpen s pid name oflag attr).2.openQueues q).pending = []) ∨
        ((∀ limits, (MqCall.open pid name oflag attr).creates s ≠ some (q, limits)) ∧
          SameRing (s.openQueues q) ((mqueueOpen s pid name oflag attr).2.openQueues q))) := by
  rcases mqueueOpen_cases s pid name oflag attr with
    ⟨makes, _, err, _, result⟩ | ⟨q', makes, _, _, result⟩ | ⟨q', limits, makes, _, _, fine, result⟩
  · rw [result, makes]
    exact ⟨cursors q, .inr ⟨by simp, .refl _⟩⟩
  · rw [result, makes]
    have same := mqueueJoin_ring s pid oflag q' q
    exact ⟨same.cursors (cursors q), .inr ⟨by simp, same⟩⟩
  · rw [result, makes]
    have same := mqueueJoin_ring (s.create q' (strhash name) limits) pid oflag q' q
    by_cases here : q = q'
    · subst here
      obtain ⟨fresh, empty⟩ := create_cursors s q (strhash name) limits attr fine (cursors q)
      exact ⟨same.cursors fresh, .inl ⟨limits, rfl, same.pending.trans empty⟩⟩
    · rw [create_other s q' q _ _ here] at same
      refine ⟨same.cursors (cursors q), .inr ⟨fun limits' clash => here ?_, same⟩⟩
      exact (Prod.mk.inj (Option.some.inj clash)).1.symm

def MqWait.queue : MqWait → Fin mqMaxOpen
  | .send q _ _ _ => q
  | .receive q _ _ => q

/-- What a round of mqueue_send puts in a queue. -/
def MqWait.accepted (out : MqOutcome) (q : Fin mqMaxOpen) : MqWait → List (Nat × List Byte)
  | .send q' _ msgPtr msgLen =>
    match out with
    | .returned result _ => if q' = q ∧ result = 0 then [sentMessage msgPtr msgLen] else []
    | .blocked _ => []
  | .receive _ _ _ => []

/-- What a round of mqueue_receive takes out of a queue. -/
def MqWait.delivered (out : MqOutcome) (q : Fin mqMaxOpen) : MqWait → List (Nat × List Byte)
  | .send _ _ _ _ => []
  | .receive q' _ _ =>
    match out with
    | .returned result bytes => if q' = q ∧ 0 < result then [(result.toNat, bytes)] else []
    | .blocked _ => []

-- A round of mqueue_receive that comes to a message without bytes.
def MqWait.TakesEmpty (s : Mqueues) : MqWait → Prop
  | .send _ _ _ _ => False
  | .receive q _ _ => ∃ bytes rest, (s.openQueues q).pending = (0, bytes) :: rest

theorem addFlag_ring (m : Mqueue) (p : Fin mqMaxSubscribers) (flag : Flags) :
    SameRing m (m.addFlag p flag) := ⟨rfl, rfl, rfl, rfl⟩

/-- One round keeps the cursors, leaves the other queues alone, and in its own queue appends what it
accepts and takes what it delivers from the front. -/
structure RoundLaw (s s' : Mqueues) (wait : MqWait) (out : MqOutcome) : Prop where
  cursors : ∀ q, Cursors (s'.openQueues q)
  others : ∀ q, q ≠ wait.queue → s'.openQueues q = s.openQueues q
  same : ∀ q, SameQueue (s.openQueues q) (s'.openQueues q)
  law : ¬ wait.TakesEmpty s → ∀ q, 0 < (s.openQueues q).attr.mqMaxmsg →
    (s.openQueues q).pending ++ wait.accepted out q = wait.delivered out q ++ (s'.openQueues q).pending

-- A round that only writes its own queue meets the law there and nowhere else.
theorem RoundLaw.of_queue (s : Mqueues) (m' : Mqueue) (wait : MqWait) (out : MqOutcome)
    (cursors : ∀ q, Cursors (s.openQueues q)) (fine : Cursors m')
    (same : SameQueue (s.openQueues wait.queue) m')
    (elsewhere : ∀ q, q ≠ wait.queue → wait.accepted out q = [] ∧ wait.delivered out q = [])
    (law : ¬ wait.TakesEmpty s → 0 < (s.openQueues wait.queue).attr.mqMaxmsg →
      (s.openQueues wait.queue).pending ++ wait.accepted out wait.queue =
        wait.delivered out wait.queue ++ m'.pending) :
    RoundLaw s (s.setQueue wait.queue m') wait out := by
  refine ⟨fun q => ?_, fun q away => s.setQueue_other _ q _ away, fun q => ?_, fun ordinary q positive => ?_⟩
  all_goals
    by_cases here : q = wait.queue
    · subst here
      rw [Mqueues.setQueue_self]
      first | exact fine | exact same | exact law ordinary positive
    · rw [s.setQueue_other _ q _ here]
      first
        | exact cursors q
        | exact .refl _
        | rw [(elsewhere q here).1, (elsewhere q here).2, List.append_nil, List.nil_append]

theorem MqWait.elsewhere (wait : MqWait) (out : MqOutcome) (q : Fin mqMaxOpen) (away : q ≠ wait.queue) :
    wait.accepted out q = [] ∧ wait.delivered out q = [] := by
  cases wait <;> cases out <;> simp_all [MqWait.accepted, MqWait.delivered, MqWait.queue, eq_comm]

theorem addFlag_same (m : Mqueue) (p : Fin mqMaxSubscribers) (flag : Flags) :
    SameQueue m (m.addFlag p flag) := by
  refine ⟨rfl, rfl, rfl, fun p' => ?_, rfl, rfl⟩
  by_cases here : p' = p
  · subst here
    simp [Mqueue.addFlag, Mqueue.setSub]
  · simp [Mqueue.addFlag, Mqueue.setSub, here]

/-- The outcomes of a round of mqueue_send. -/
theorem sendRound_cases (s : Mqueues) (q : Fin mqMaxOpen) (p : Fin mqMaxSubscribers)
    (msgPtr : Nat → Byte) (msgLen : Word) (cursors : ∀ q, Cursors (s.openQueues q)) :
    ((s.openQueues q).attr.mqCurmsg ≠ (s.openQueues q).attr.mqMaxmsg ∧ ¬ Stores (s.openQueues q) msgLen ∧
      ∃ fault, (MqWait.send q p msgPtr msgLen).round s = .error fault) ∨
    ∃ out s', (MqWait.send q p msgPtr msgLen).round s = .ok (out, s') ∧
      RoundLaw s s' (.send q p msgPtr msgLen) out ∧
      (((s.openQueues q).attr.mqCurmsg ≠ (s.openQueues q).attr.mqMaxmsg ∧
          Stores (s.openQueues q) msgLen ∧ out = .returned 0 []) ∨
        ((s.openQueues q).attr.mqCurmsg = (s.openQueues q).attr.mqMaxmsg ∧
          out = if ((s.openQueues q).subs p).flags &&& oNonblock ≠ 0 then .returned (-eAgain) []
            else .blocked (.send q p msgPtr msgLen))) := by
  have elsewhere := (MqWait.send q p msgPtr msgLen).elsewhere
  rcases enqueue_cases (cursors q) msgPtr msgLen with
    ⟨full, done⟩ | ⟨room, unfit, fault, done⟩ | ⟨room, fit, woken, m', done, pushed⟩
  · have subs : (s.openQueues q).wrapTail.subs = (s.openQueues q).subs := by
      unfold Mqueue.wrapTail
      split_ifs <;> rfl
    simp only [MqWait.round, done, subs]
    by_cases nonblock : ((s.openQueues q).subs p).flags &&& oNonblock ≠ 0
    · rw [if_pos nonblock, if_pos nonblock]
      refine .inr ⟨_, _, rfl, ?_, .inr ⟨full, rfl⟩⟩
      refine RoundLaw.of_queue s _ (.send q p msgPtr msgLen) _ cursors (cursors q).wrapTail
        (Mqueue.wrapTail_same _) (elsewhere _) fun _ _ => ?_
      simp [MqWait.accepted, MqWait.delivered, MqWait.queue, eAgain, Mqueue.wrapTail_pending]
    · rw [if_neg nonblock, if_neg nonblock]
      refine .inr ⟨_, _, rfl, ?_, .inr ⟨full, rfl⟩⟩
      have ring := addFlag_ring (s.openQueues q).wrapTail p blckSend
      refine RoundLaw.of_queue s _ (.send q p msgPtr msgLen) _ cursors (ring.cursors (cursors q).wrapTail)
        ((Mqueue.wrapTail_same _).trans (addFlag_same _ p blckSend)) (elsewhere _) fun _ _ => ?_
      simp [MqWait.accepted, MqWait.delivered, MqWait.queue, ring.pending, Mqueue.wrapTail_pending]
  · refine .inl ⟨room, unfit, fault, ?_⟩
    simp only [MqWait.round, done]
  · simp only [MqWait.round, done]
    refine .inr ⟨_, _, rfl, ?_, .inl ⟨room, fit, rfl⟩⟩
    refine RoundLaw.of_queue s _ (.send q p msgPtr msgLen) _ cursors pushed.cursors pushed.same
      (elsewhere _) fun _ positive => ?_
    simp [MqWait.accepted, MqWait.delivered, MqWait.queue, pushed.pending positive]

/-- A round of mqueue_receive never goes out of bounds. -/
theorem receiveRound_cases (s : Mqueues) (q : Fin mqMaxOpen) (p : Fin mqMaxSubscribers) (msgLen : Word)
    (cursors : ∀ q, Cursors (s.openQueues q)) :
    ∃ out s', (MqWait.receive q p msgLen).round s = .ok (out, s') ∧
      RoundLaw s s' (.receive q p msgLen) out := by
  have elsewhere := (MqWait.receive q p msgLen).elsewhere
  -- A round that delivers nothing fails or blocks, whatever it has done to the head.
  have nothing (bytes : List Byte) (result : Int) (m' : Mqueue) (taken : result ≤ 0)
      (done : dequeue (s.openQueues q) msgLen = .ok ⟨result, bytes, m'⟩) (fine : Cursors m')
      (same : SameQueue (s.openQueues q) m')
      (kept : ¬ MqWait.TakesEmpty s (.receive q p msgLen) → 0 < (s.openQueues q).attr.mqMaxmsg →
        m'.pending = (s.openQueues q).pending) :
      ∃ out s', (MqWait.receive q p msgLen).round s = .ok (out, s') ∧
        RoundLaw s s' (.receive q p msgLen) out := by
    simp only [MqWait.round, done, if_neg (not_lt.mpr taken)]
    split_ifs
    · refine ⟨_, _, rfl, RoundLaw.of_queue s _ (.receive q p msgLen) _ cursors fine same
        (elsewhere _) fun ordinary positive => ?_⟩
      have failed : 0 ≤ eAgain := by decide
      simp [MqWait.accepted, MqWait.delivered, MqWait.queue, failed, kept ordinary positive]
    · have ring := addFlag_ring m' p blckRecv
      refine ⟨_, _, rfl, RoundLaw.of_queue s _ (.receive q p msgLen) _ cursors (ring.cursors fine)
        (same.trans (addFlag_same m' p blckRecv)) (elsewhere _) fun ordinary positive => ?_⟩
      simp [MqWait.accepted, MqWait.delivered, MqWait.queue, ring.pending, kept ordinary positive]
  rcases dequeue_cases (cursors q) msgLen with
    ⟨_, done⟩ | ⟨_, _, done⟩ | ⟨_, m', short, done, popped⟩
  · exact nothing [] 0 _ (le_refl _) done (cursors q) (.refl _) fun _ _ => rfl
  · exact nothing [] _ _ (by decide) done (cursors q).wrapHead (Mqueue.wrapHead_same _)
      fun _ positive => Mqueue.wrapHead_pending _ positive
  · by_cases empty : (s.openQueues q).oldest.size.toNat = 0
    · refine nothing _ _ m' (by omega) done popped.cursors popped.same fun ordinary positive => ?_
      have first := popped.pending positive
      rw [MqMessage.content, empty] at first
      exact absurd ⟨_, _, first⟩ ordinary
    · have positive : ((s.openQueues q).oldest.size.toNat : Int) > 0 := by omega
      simp only [MqWait.round, done, if_pos positive]
      refine ⟨_, _, rfl, RoundLaw.of_queue s _ (.receive q p msgLen) _ cursors popped.cursors popped.same
        (elsewhere _) fun _ positive => ?_⟩
      have first := popped.pending positive
      simp [MqWait.accepted, MqWait.delivered, MqWait.queue, first, MqMessage.content,
        Nat.pos_of_ne_zero empty]

/-- A round is refused a cell or meets its law. -/
theorem round_law (s : Mqueues) (wait : MqWait) (cursors : ∀ q, Cursors (s.openQueues q)) (out : MqOutcome)
    (s' : Mqueues) (done : wait.round s = .ok (out, s')) : RoundLaw s s' wait out := by
  cases wait with
  | send q p msgPtr msgLen =>
    rcases sendRound_cases s q p msgPtr msgLen cursors with ⟨_, _, fault, failed⟩ | ⟨_, _, worked, law, _⟩
    · rw [failed] at done
      cases done
    · rw [worked] at done
      obtain ⟨rfl, rfl⟩ := Prod.mk.inj (Except.ok.inj done)
      exact law
  | receive q p msgLen =>
    obtain ⟨_, _, worked, law⟩ := receiveRound_cases s q p msgLen cursors
    rw [worked] at done
    obtain ⟨rfl, rfl⟩ := Prod.mk.inj (Except.ok.inj done)
    exact law

/-- Calls keep the cursors of every queue. -/
theorem act_cursors (s s' : Mqueues) (call : MqCall) (out : MqOutcome)
    (cursors : ∀ q, Cursors (s.openQueues q)) (done : call.act s = .ok (out, s')) :
    ∀ q, Cursors (s'.openQueues q) := by
  rcases act_enters s call with ⟨wait, _, same⟩ | ⟨_, _, err, _, _, refused⟩ |
    ⟨_, ⟨pid, name, oflag, attr, rfl⟩ | ⟨pid, mqdes, rfl⟩ | ⟨pid, name, rfl⟩⟩
  · rw [same] at done
    exact (round_law s wait cursors out s' done).cursors
  · rw [refused] at done
    obtain ⟨rfl, rfl⟩ := Prod.mk.inj (Except.ok.inj done)
    exact cursors
  all_goals
    obtain ⟨rfl, rfl⟩ := Prod.mk.inj (Except.ok.inj done)
    intro q
  · exact (open_ring s cursors pid name oflag attr q).1
  · exact (mqueueClose_ring s pid mqdes q).cursors (cursors q)
  · exact (mqueueUnlink_ring s name q).cursors (cursors q)

theorem unused_cursors : Cursors Mqueue.unused where
  capLe := by decide
  sizeLe := by decide
  head := by decide
  tail := by decide
  count := by decide
  sizes _ _ := Nat.zero_le _
  ring positive := absurd positive (by decide)
  flat negative := absurd negative (by decide)
  bare _ := rfl

/-- A round that is to store a message has a cell for it and a length that is not negative as a long. -/
def MqWait.Fits (s : Mqueues) : MqWait → Prop
  | .send q _ _ msgLen => (s.openQueues q).attr.mqCurmsg ≠ (s.openQueues q).attr.mqMaxmsg →
      0 ≤ msgLen.toInt ∧ (0 < (s.openQueues q).attr.mqMaxmsg ∨ (s.openQueues q).tail + 1 < mqMaxMsg)
  | .receive _ _ _ => True

def MqCall.Fits (s : Mqueues) (call : MqCall) : Prop := ∀ wait, call.enters s = some wait → wait.Fits s

-- The length that mqueue_send lets pass.
def MqWait.Checked : MqWait → Prop
  | .send _ _ _ msgLen => msgLen.toInt ≤ mqMaxMsgSize
  | .receive _ _ _ => True

structure MqSafe (s : MqSys) : Prop where
  cursors : ∀ q, Cursors (s.queues.openQueues q)
  checked : ∀ pid wait, s.waiting pid = some wait → wait.Checked

theorem MqSafe.boot : MqSafe MqSys.boot where
  cursors _ := unused_cursors
  checked _ _ there := by cases there

theorem enters_checked (s : MqSys) (safe : MqSafe s) (call : MqCall) (enabled : s.Enabled call)
    (wait : MqWait) (enters : call.enters s.queues = some wait) : wait.Checked := by
  cases call with
  | «open» | close | unlink => cases enters
  | retry pid wait' =>
    obtain rfl := Option.some.inj enters
    exact safe.checked pid wait' enabled
  | send pid id msgPtr msgLen =>
    obtain ⟨q, _, rest⟩ := Option.bind_eq_some_iff.mp enters
    split_ifs at rest with long
    obtain ⟨p, _, rest⟩ := Option.bind_eq_some_iff.mp rest
    split_ifs at rest
    obtain rfl := Option.some.inj rest
    have limit := (safe.cursors q).sizeLe
    show msgLen.toInt ≤ mqMaxMsgSize
    omega
  | receive pid id msgLen =>
    obtain ⟨q, _, rest⟩ := Option.bind_eq_some_iff.mp enters
    obtain ⟨p, _, rest⟩ := Option.bind_eq_some_iff.mp rest
    split_ifs at rest
    obtain rfl := Option.some.inj rest
    trivial

theorem stores_iff (m : Mqueue) (msgLen : Word) (checked : msgLen.toInt ≤ mqMaxMsgSize) :
    Stores m msgLen ↔ 0 ≤ msgLen.toInt ∧ (0 < m.attr.mqMaxmsg ∨ m.tail + 1 < mqMaxMsg) := by
  have limit : mqMaxMsgSize = 128 := rfl
  have value : msgLen.toInt = if 2 * msgLen.toNat < 2 ^ 64 then (msgLen.toNat : Int)
      else (msgLen.toNat : Int) - 2 ^ 64 := BitVec.toInt_eq_toNat_cond msgLen
  have small := msgLen.isLt
  constructor
  · rintro ⟨fits, room⟩
    refine ⟨?_, room⟩
    split_ifs at value <;> omega
  · rintro ⟨positive, room⟩
    refine ⟨?_, room⟩
    split_ifs at value <;> omega

/-- A round stays inside messages[] exactly if it fits. -/
theorem round_fits (s : Mqueues) (wait : MqWait) (cursors : ∀ q, Cursors (s.openQueues q))
    (checked : wait.Checked) : (∃ result, wait.round s = .ok result) ↔ wait.Fits s := by
  cases wait with
  | send q p msgPtr msgLen =>
    rw [MqWait.Fits, ← stores_iff (s.openQueues q) msgLen checked]
    rcases sendRound_cases s q p msgPtr msgLen cursors with
      ⟨room, unfit, fault, failed⟩ | ⟨out, s', worked, _, ⟨room, fit, _⟩ | ⟨full, _⟩⟩
    · rw [failed]
      exact ⟨fun ⟨_, worked⟩ => (by cases worked), fun fits => absurd (fits room) unfit⟩
    · exact ⟨fun _ _ => fit, fun _ => ⟨_, worked⟩⟩
    · exact ⟨fun _ room => absurd full room, fun _ => ⟨_, worked⟩⟩
  | receive q p msgLen =>
    obtain ⟨out, s', worked, _⟩ := receiveRound_cases s q p msgLen cursors
    exact ⟨fun _ => trivial, fun _ => ⟨_, worked⟩⟩

-- A blocked call waits in the loop that it entered.
theorem round_blocked (s s' : Mqueues) (wait wait' : MqWait)
    (done : wait.round s = .ok (.blocked wait', s')) : wait' = wait := by
  cases wait with
  | send q p msgPtr msgLen =>
    simp only [MqWait.round] at done
    split at done
    · cases done
    · exact absurd (Prod.mk.inj (Except.ok.inj done)).1 (by simp)
    · split_ifs at done
      · exact absurd (Prod.mk.inj (Except.ok.inj done)).1 (by simp)
      · exact (MqOutcome.blocked.inj (Prod.mk.inj (Except.ok.inj done)).1).symm
  | receive q p msgLen =>
    simp only [MqWait.round] at done
    split at done
    · cases done
    · split_ifs at done
      · exact absurd (Prod.mk.inj (Except.ok.inj done)).1 (by simp)
      · exact absurd (Prod.mk.inj (Except.ok.inj done)).1 (by simp)
      · exact (MqOutcome.blocked.inj (Prod.mk.inj (Except.ok.inj done)).1).symm

theorem act_blocked (s s' : Mqueues) (call : MqCall) (wait : MqWait)
    (done : call.act s = .ok (.blocked wait, s')) : call.enters s = some wait := by
  rcases act_enters s call with ⟨wait', enters, same⟩ | ⟨_, _, err, _, _, refused⟩ |
    ⟨_, ⟨pid, name, oflag, attr, rfl⟩ | ⟨pid, mqdes, rfl⟩ | ⟨pid, name, rfl⟩⟩
  · rw [same] at done
    rw [enters, round_blocked s s' wait' wait done]
  · rw [refused] at done
    cases done
  all_goals cases done

theorem MqSafe.step {s s' : MqSys} {call : MqCall} {out : MqOutcome} (safe : MqSafe s)
    (taken : s.Step call out s') : MqSafe s' := by
  obtain ⟨enabled, acted, waiting⟩ := taken
  refine ⟨act_cursors s.queues s'.queues call out safe.cursors acted, fun pid wait there => ?_⟩
  rw [waiting, Function.update_apply] at there
  split_ifs at there
  · cases out with
    | returned result bytes => cases there
    | blocked wait' =>
      obtain rfl := Option.some.inj there
      exact enters_checked s safe call enabled wait' (act_blocked s.queues s'.queues call wait' acted)
  · exact safe.checked pid wait there

/-- Over any run whose calls all fit, the next call stays inside messages[] exactly if it fits. -/
theorem mqueue_inBounds (s : MqSys)
    (run : Run (fun s call s' => ∃ out, s.Step call out s') (fun s call => call.Fits s.queues) .boot s)
    (call : MqCall) (enabled : s.Enabled call) :
    (∃ result, call.act s.queues = .ok result) ↔ call.Fits s.queues := by
  have safe : MqSafe s := run.invariant MqSafe .boot fun _ _ _ safe _ ⟨_, taken⟩ => safe.step taken
  rcases act_enters s.queues call with ⟨wait, enters, same⟩ | ⟨enters, makes, err, _, _, refused⟩ | ⟨enters, plain⟩
  · rw [same, round_fits s.queues wait safe.cursors (enters_checked s safe call enabled wait enters)]
    constructor
    · intro fits wait' enters'
      obtain rfl := Option.some.inj (enters.symm.trans enters')
      exact fits
    · exact fun fits => fits wait enters
  · have fits : call.Fits s.queues := fun wait enters' => absurd (enters.symm.trans enters') (by simp)
    exact ⟨fun _ => fits, fun _ => ⟨_, refused⟩⟩
  · have fits : call.Fits s.queues := fun wait enters' => absurd (enters.symm.trans enters') (by simp)
    refine ⟨fun _ => fits, fun _ => ?_⟩
    rcases plain with ⟨pid, name, oflag, attr, rfl⟩ | ⟨pid, mqdes, rfl⟩ | ⟨pid, name, rfl⟩ <;>
      exact ⟨_, rfl⟩

-- One task has made a queue "q" with the given attributes, and is its subscriber.
def openQ (attr : MqAttr) : MqCall := .open 1 [0x71] (oCreat ||| oRdwr ||| oNonblock) (some attr)

def opened (attr : MqAttr) : MqSys :=
  ⟨(mqueueOpen MqSys.boot.queues 1 [0x71] (oCreat ||| oRdwr ||| oNonblock) (some attr)).2, fun _ => none⟩

theorem opened_step (attr : MqAttr) : ∃ out, MqSys.boot.Step (openQ attr) out (opened attr) :=
  ⟨_, rfl, rfl, (Function.update_eq_self 1 (fun _ => none)).symm⟩

theorem mqueue_inBounds_opened :
    (∃ result, (MqCall.send 1 1 (fun _ => 0) 1).act (opened ⟨0, 1, 1, 0⟩).queues = .ok result) ↔
      (MqCall.send 1 1 (fun _ => 0) 1).Fits (opened ⟨0, 1, 1, 0⟩).queues :=
  mqueue_inBounds (opened ⟨0, 1, 1, 0⟩)
    (.next MqSys.boot _ (openQ ⟨0, 1, 1, 0⟩) .start (fun _ enters => by cases enters) (opened_step _))
    (.send 1 1 (fun _ => 0) 1) rfl

-- A message of 2 ^ 64 - 1 bytes is not longer than mq_msgsize as a long.
theorem mqueueSend_overruns :
    ¬ ∀ s : MqSys, Run (fun s call s' => ∃ out, s.Step call out s') (fun _ _ => True) .boot s →
      ∀ call, s.Enabled call → ∃ result, call.act s.queues = .ok result := by
  intro claim
  obtain ⟨result, done⟩ := claim (opened ⟨0, 1, 1, 0⟩)
    (.next MqSys.boot _ (openQ ⟨0, 1, 1, 0⟩) .start trivial (opened_step _))
    (.send 1 1 (fun _ => 0) (BitVec.allOnes 64)) rfl
  have failed : ((MqCall.send 1 1 (fun _ => 0) (BitVec.allOnes 64)).act (opened ⟨0, 1, 1, 0⟩).queues).isOk
      = false := by decide +kernel
  rw [done] at failed
  cases failed

/-- What a call puts in a queue: the message of a send that returns 0. -/
def MqCall.accepted (s : Mqueues) (call : MqCall) (out : MqOutcome) (q : Fin mqMaxOpen) :
    List (Nat × List Byte) :=
  ((call.enters s).map (MqWait.accepted out q)).getD []

/-- What a call takes out of a queue: the message that a receive returns. -/
def MqCall.delivered (s : Mqueues) (call : MqCall) (out : MqOutcome) (q : Fin mqMaxOpen) :
    List (Nat × List Byte) :=
  ((call.enters s).map (MqWait.delivered out q)).getD []

/-- The sends and receives of each queue since it was made. -/
structure MqHistory where
  sys : MqSys
  accepted : Fin mqMaxOpen → List (Nat × List Byte)
  received : Fin mqMaxOpen → List (Nat × List Byte)

def MqHistory.boot : MqHistory := ⟨.boot, fun _ => [], fun _ => []⟩

def MqHistory.record (h : MqHistory) (call : MqCall) (out : MqOutcome) (s' : MqSys) : MqHistory where
  sys := s'
  accepted q :=
    if ((call.creates h.sys.queues).map Prod.fst) = some q then []
    else h.accepted q ++ call.accepted h.sys.queues out q
  received q :=
    if ((call.creates h.sys.queues).map Prod.fst) = some q then []
    else h.received q ++ call.delivered h.sys.queues out q

def MqHistory.Step (h : MqHistory) (call : MqCall) (h' : MqHistory) : Prop :=
  ∃ out s', h.sys.Step call out s' ∧ h' = h.record call out s'

/-- A receive that comes to a message without bytes. -/
def MqCall.TakesEmpty (s : Mqueues) (call : MqCall) : Prop :=
  ∃ wait, call.enters s = some wait ∧ wait.TakesEmpty s

structure MqHistory.Balanced (h : MqHistory) : Prop where
  safe : MqSafe h.sys
  balance : ∀ q, 0 < (h.sys.queues.openQueues q).attr.mqMaxmsg →
    h.received q ++ (h.sys.queues.openQueues q).pending = h.accepted q

theorem MqHistory.Balanced.boot : MqHistory.Balanced .boot where
  safe := .boot
  balance q positive := by
    change 0 < (0 : Int) at positive
    omega

-- A call with a loop makes no queue.
theorem creates_of_enters (s : Mqueues) (call : MqCall) (wait : MqWait) (enters : call.enters s = some wait) :
    call.creates s = none := by
  cases call with
  | «open» pid name oflag attr => cases enters
  | _ => rfl

theorem MqHistory.Balanced.step {h h' : MqHistory} {call : MqCall} (balanced : h.Balanced)
    (ordinary : ¬ call.TakesEmpty h.sys.queues) (taken : h.Step call h') : h'.Balanced := by
  obtain ⟨out, s', taken, rfl⟩ := taken
  refine ⟨balanced.safe.step taken, fun q positive => ?_⟩
  obtain ⟨_, acted, _⟩ := taken
  have cursors := balanced.safe.cursors
  simp only [MqHistory.record]
  change 0 < (s'.queues.openQueues q).attr.mqMaxmsg at positive
  -- A call that is neither a send nor a receive leaves the ring alone or makes an empty queue.
  have plain (enters : call.enters h.sys.queues = none)
      (made : ((call.creates h.sys.queues).map Prod.fst = some q ∧ (s'.queues.openQueues q).pending = []) ∨
        ((call.creates h.sys.queues).map Prod.fst ≠ some q ∧
          SameRing (h.sys.queues.openQueues q) (s'.queues.openQueues q))) :
      (if (call.creates h.sys.queues).map Prod.fst = some q then []
          else h.received q ++ call.delivered h.sys.queues out q) ++ (s'.queues.openQueues q).pending =
        if (call.creates h.sys.queues).map Prod.fst = some q then []
          else h.accepted q ++ call.accepted h.sys.queues out q := by
    rcases made with ⟨new, empty⟩ | ⟨old, same⟩
    · rw [if_pos new, if_pos new, empty, List.append_nil]
    · rw [if_neg old, if_neg old, MqCall.delivered, MqCall.accepted, enters, same.pending]
      rw [same.attr] at positive
      simpa using balanced.balance q positive
  rcases act_enters h.sys.queues call with ⟨wait, enters, same⟩ | ⟨enters, makes, err, _, _, refused⟩ |
    ⟨enters, ⟨pid, name, oflag, attr, rfl⟩ | ⟨pid, mqdes, rfl⟩ | ⟨pid, name, rfl⟩⟩
  · rw [same] at acted
    have law := round_law h.sys.queues wait cursors out s'.queues acted
    have old : (call.creates h.sys.queues).map Prod.fst ≠ some q := by
      rw [creates_of_enters _ call wait enters]
      exact (Option.some_ne_none q).symm
    rw [if_neg old, if_neg old, MqCall.delivered, MqCall.accepted, enters]
    rw [(law.same q).maxmsg] at positive
    have front := law.law (fun empty => ordinary ⟨wait, enters, empty⟩) q positive
    simp only [Option.map_some, Option.getD_some]
    rw [List.append_assoc, ← front, ← List.append_assoc, balanced.balance q positive]
  · have kept : s'.queues = h.sys.queues := by
      rw [refused] at acted
      exact (Prod.mk.inj (Except.ok.inj acted)).2.symm
    exact plain enters (.inr ⟨by simp [makes], by rw [kept]; exact .refl _⟩)
  · obtain ⟨_, queues⟩ := Prod.mk.inj (Except.ok.inj acted)
    rcases (open_ring h.sys.queues cursors pid name oflag attr q).2 with ⟨limits, new, empty⟩ | ⟨old, same⟩
    · exact plain enters (.inl ⟨by rw [new]; rfl, by rw [← queues]; exact empty⟩)
    · refine plain enters (.inr ⟨?_, by rw [← queues]; exact same⟩)
      rw [ne_eq, Option.map_eq_some_iff]
      rintro ⟨⟨q', limits⟩, new, rfl⟩
      exact old limits new
  · obtain ⟨_, queues⟩ := Prod.mk.inj (Except.ok.inj acted)
    exact plain enters (.inr ⟨by simp [MqCall.creates], by rw [← queues]; exact mqueueClose_ring ..⟩)
  · obtain ⟨_, queues⟩ := Prod.mk.inj (Except.ok.inj acted)
    exact plain enters (.inr ⟨by simp [MqCall.creates], by rw [← queues]; exact mqueueUnlink_ring ..⟩)

-- The loop that a send comes to is one over the queue it names, as the subscriber found there.
theorem enters_send (s : Mqueues) (pid id : Int) (msgPtr : Nat → Byte) (msgLen : Word) (wait : MqWait)
    (enters : (MqCall.send pid id msgPtr msgLen).enters s = some wait) :
    ∃ q p, s.find id = some q ∧ findSubscriber (s.openQueues q) pid = some p ∧
      wait = .send q p msgPtr msgLen := by
  obtain ⟨q, found, rest⟩ := Option.bind_eq_some_iff.mp enters
  split_ifs at rest
  obtain ⟨p, place, rest⟩ := Option.bind_eq_some_iff.mp rest
  split_ifs at rest
  exact ⟨q, p, found, place, (Option.some.inj rest).symm⟩

/-- A send that a subscriber with O_NONBLOCK makes fails with -EAGAIN exactly at a full queue. -/
theorem send_eAgain (s : MqSys) (safe : MqSafe s) (pid id : Int) (msgPtr : Nat → Byte) (msgLen : Word)
    (q : Fin mqMaxOpen) (found : s.queues.find id = some q)
    (positive : 0 < (s.queues.openQueues q).attr.mqMaxmsg) (long : 0 ≤ msgLen.toInt)
    (nonblock : ∀ p, findSubscriber (s.queues.openQueues q) pid = some p →
      ((s.queues.openQueues q).subs p).flags &&& oNonblock ≠ 0) :
    ∃ result s', (MqCall.send pid id msgPtr msgLen).act s.queues = .ok (.returned result [], s') ∧
      (result = -eAgain ↔ ((MqCall.send pid id msgPtr msgLen).enters s.queues).isSome = true ∧
        ((s.queues.openQueues q).pending.length : Int) = (s.queues.openQueues q).attr.mqMaxmsg) ∧
      (result = 0 ↔ ((MqCall.send pid id msgPtr msgLen).enters s.queues).isSome = true ∧
        ((s.queues.openQueues q).pending.length : Int) ≠ (s.queues.openQueues q).attr.mqMaxmsg) := by
  have count : ((s.queues.openQueues q).pending.length : Int) = (s.queues.openQueues q).attr.mqCurmsg := by
    rw [Mqueue.pending_length, Int.toNat_of_nonneg (safe.cursors q).count]
  rcases act_enters s.queues (.send pid id msgPtr msgLen) with ⟨wait, enters, same⟩ |
    ⟨enters, _, err, positive, other, refused⟩ | ⟨_, ⟨_, _, _, _, other⟩ | ⟨_, _, other⟩ | ⟨_, _, other⟩⟩
  · obtain ⟨q', p, found', place, rfl⟩ := enters_send s.queues pid id msgPtr msgLen wait enters
    obtain rfl : q' = q := Option.some.inj (found'.symm.trans found)
    have checked : msgLen.toInt ≤ mqMaxMsgSize :=
      enters_checked ⟨s.queues, fun _ => none⟩ ⟨safe.cursors, fun _ _ there => by cases there⟩
        (.send pid id msgPtr msgLen) rfl (.send q' p msgPtr msgLen) enters
    rw [same, enters, count]
    rcases sendRound_cases s.queues q' p msgPtr msgLen safe.cursors with
      ⟨_, unfit, _⟩ | ⟨out, s', worked, _, ⟨room, _, rfl⟩ | ⟨full, rfl⟩⟩
    · exact absurd ((stores_iff _ msgLen checked).mpr ⟨long, .inl positive⟩) unfit
    · refine ⟨0, s', worked, ?_, ?_⟩ <;> simp [room, eAgain]
    · rw [if_pos (nonblock p place)] at worked
      refine ⟨-eAgain, s', worked, ?_, ?_⟩ <;> simp [full, eAgain]
  · refine ⟨-err, s.queues, refused, ?_, ?_⟩
    · simp [enters, other]
    · simp [enters]
      omega
  all_goals cases other

/-- In every run in which no receive comes to a message without bytes, what a queue has delivered and
what it still holds is what it accepted, in order, and a send fails for want of space exactly when
mq_maxmsg messages are pending. -/
theorem mqueue_delivers (h : MqHistory)
    (run : Run MqHistory.Step (fun h call => ¬ call.TakesEmpty h.sys.queues) .boot h) (q : Fin mqMaxOpen)
    (size : 1 ≤ (h.sys.queues.openQueues q).attr.mqMaxmsg) :
    h.received q ++ (h.sys.queues.openQueues q).pending = h.accepted q ∧
      ∀ (pid id : Int) (msgPtr : Nat → Byte) (msgLen : Word), h.sys.queues.find id = some q →
        0 ≤ msgLen.toInt →
        (∀ p, findSubscriber (h.sys.queues.openQueues q) pid = some p →
          ((h.sys.queues.openQueues q).subs p).flags &&& oNonblock ≠ 0) →
        ∃ result s', (MqCall.send pid id msgPtr msgLen).act h.sys.queues =
            .ok (.returned result [], s') ∧
          (result = -eAgain ↔ ((MqCall.send pid id msgPtr msgLen).enters h.sys.queues).isSome = true ∧
            ((h.sys.queues.openQueues q).pending.length : Int) =
              (h.sys.queues.openQueues q).attr.mqMaxmsg) ∧
          (result = 0 ↔ ((MqCall.send pid id msgPtr msgLen).enters h.sys.queues).isSome = true ∧
            ((h.sys.queues.openQueues q).pending.length : Int) ≠
              (h.sys.queues.openQueues q).attr.mqMaxmsg) := by
  have balanced : h.Balanced := run.invariant MqHistory.Balanced .boot
    fun _ _ _ balanced ordinary taken => balanced.step ordinary taken
  refine ⟨balanced.balance q (by omega), fun pid id msgPtr msgLen found long nonblock => ?_⟩
  exact send_eAgain h.sys balanced.safe pid id msgPtr msgLen q found (by omega) long nonblock

section Play

variable {H : Type} (sys : H → MqSys) (record : H → MqCall → MqOutcome → MqSys → H)

-- The calls of a run one after the other, none of which blocks or goes out of bounds.
def playCalls (h : H) : List MqCall → Option H
  | [] => some h
  | call :: calls =>
    match call.act (sys h).queues with
    | .ok (.returned result bytes, queues) =>
      playCalls (record h call (.returned result bytes) ⟨queues, fun _ => none⟩) calls
    | _ => none

theorem playCalls_run (allowed : H → MqCall → Prop) (keeps : ∀ h call out s', sys (record h call out s') = s')
    (h₀ h h' : H) (calls : List MqCall)
    (before : Run (fun h call h' => ∃ out s', (sys h).Step call out s' ∧ h' = record h call out s')
      allowed h₀ h)
    (idle : (sys h).waiting = fun _ => none)
    (calling : ∀ call, call ∈ calls → ∀ pid wait, call ≠ .retry pid wait)
    (fine : ∀ h call, call ∈ calls → allowed h call) (played : playCalls sys record h calls = some h') :
    Run (fun h call h' => ∃ out s', (sys h).Step call out s' ∧ h' = record h call out s') allowed h₀ h' := by
  induction calls generalizing h with
  | nil =>
    obtain rfl := Option.some.inj played
    exact before
  | cons call calls ih =>
    simp only [playCalls] at played
    split at played
    next result bytes queues acted =>
      have taken : (sys h).Step call (.returned result bytes) ⟨queues, fun _ => none⟩ := by
        refine ⟨?_, acted, ?_⟩
        · cases call <;> first
            | exact congrFun idle _
            | exact absurd rfl (calling _ List.mem_cons_self _ _)
        · rw [idle]
          exact (Function.update_eq_self _ _).symm
      exact ih _ (.next h _ call before (fine h call List.mem_cons_self) ⟨_, _, taken, rfl⟩)
        (by rw [keeps]) (fun c member => calling c (List.mem_cons_of_mem _ member))
        (fun h c member => fine h c (List.mem_cons_of_mem _ member)) played
    next => cases played

end Play

theorem mqueue_delivers_one : ∃ h : MqHistory,
    h.received 0 ++ (h.sys.queues.openQueues 0).pending = h.accepted 0 ∧ h.accepted 0 = [(1, [0])] := by
  have calls : (playCalls MqHistory.sys MqHistory.record .boot
      [openQ ⟨0, 1, 1, 0⟩, .send 1 1 (fun _ => 0) 1]).map
      (fun h => ((h.sys.queues.openQueues 0).attr.mqMaxmsg, h.accepted 0)) = some (1, [(1, [0])]) := by
    decide +kernel
  obtain ⟨h, played, same⟩ := Option.map_eq_some_iff.mp calls
  obtain ⟨size, accepted⟩ := Prod.mk.inj same
  have run := playCalls_run MqHistory.sys MqHistory.record (fun h call => ¬ call.TakesEmpty h.sys.queues)
    (fun _ _ _ _ => rfl) .boot .boot h _ .start rfl (by simp [openQ]) ?_ played
  · exact ⟨h, (mqueue_delivers h run 0 (by omega)).1, accepted⟩
  · rintro h call member ⟨wait, enters, empty⟩
    rcases List.mem_pair.mp member with rfl | rfl
    · cases enters
    · obtain ⟨q, p, _, _, rfl⟩ := enters_send _ _ _ _ _ wait enters
      exact empty

-- An empty message is accepted, and the receive that takes it reports -EAGAIN.
theorem emptyMessage_lost :
    ¬ ∀ h : MqHistory, Run MqHistory.Step (fun _ _ => True) .boot h → ∀ q,
      1 ≤ (h.sys.queues.openQueues q).attr.mqMaxmsg →
        h.received q ++ (h.sys.queues.openQueues q).pending = h.accepted q := by
  intro claim
  have calls : (playCalls MqHistory.sys MqHistory.record .boot
      [openQ ⟨0, 1, 1, 0⟩, .send 1 1 (fun _ => 0) 0, .receive 1 1 1]).map
        (fun h => ((h.sys.queues.openQueues 0).attr.mqMaxmsg,
          h.received 0 ++ (h.sys.queues.openQueues 0).pending, h.accepted 0)) =
      some (1, [], [(0, [])]) := by decide +kernel
  obtain ⟨h, played, same⟩ := Option.map_eq_some_iff.mp calls
  obtain ⟨size, rest⟩ := Prod.mk.inj same
  obtain ⟨left, right⟩ := Prod.mk.inj rest
  have run := playCalls_run MqHistory.sys MqHistory.record (fun _ _ => True) (fun _ _ _ _ => rfl) .boot
    .boot h _ .start rfl (by simp [openQ]) (fun _ _ _ => trivial) played
  have balance := claim h run 0 (by omega)
  rw [left, right] at balance
  cases balance

end Anthill
