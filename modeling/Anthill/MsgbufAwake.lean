import Anthill.MsgbufReply
import Anthill.MsgbufStale

set_option autoImplicit false

namespace Anthill

-- The receive queue that a task has found empty, until it is unblocked.
def MsgPc.emptyAt (pc : MsgPc) (state : TaskState) : Option Nat :=
  match pc with
  | .block (.message recv) => some recv.receiver
  | .blocked (.message recv) => if state = .blocked then some recv.receiver else none
  | _ => none

-- The receive queue that a task has found full, until it is unblocked.
def MsgPc.fullAt (pc : MsgPc) (state : TaskState) : Option Nat :=
  match pc with
  | .block (.space send) => some send.receiver
  | .blocked (.space send) => if state = .blocked then some send.receiver else none
  | _ => none

-- Whether a task is going to wait for the reply to its push, or waits for it.
def MsgPc.wantsReply (pc : MsgPc) (state : TaskState) : Bool :=
  match pc with
  | .wake send => send.flags &&& msbNoblock = 0
  | .block (.reply _) => true
  | .blocked (.reply _) => state = .blocked
  | _ => false

-- Whether a task is between its push to `r` and its task_unblock.
def MsgPc.wakes (r : Nat) : MsgPc → Bool
  | .wake send => send.receiver = r
  | _ => false

/-- The pages handed out for nodes hold positions inside the receive queues. -/
def Stale.InRange (stale : Stale) : Prop :=
  ∀ n i, ((stale n).buffers i).recvQueuePos.toNat < queueSize

theorem zeroPages_inRange : zeroPages.InRange := fun _ _ => Nat.zero_lt_succ 7

theorem Stale.Clean.pages {stale : Stale} (clean : stale.Clean) (inRange : stale.InRange) :
    StaleMatch ⟨True, True⟩ stale stale := by
  refine ⟨fun n i => ?_, fun n far => ⟨(clean n).2 far, (clean n).2 far⟩⟩
  exact ⟨(clean n).1 i, (clean n).1 i, fun _ => ⟨inRange n i, inRange n i⟩, fun _ => ⟨rfl, rfl⟩⟩

-- A state is matched with itself to say that its positions and the pointers of its tasks can be used.
theorem TasksMatch.next {stale : Stale} {w : MsgTasks} (rings : TasksMatch ⟨True, True⟩ w w)
    (pages : StaleMatch ⟨True, True⟩ stale stale) {t : Word} {action : MsgAction} {move : MsgMove}
    (done : w.step stale t action = some (.ok move)) : TasksMatch ⟨True, True⟩ (w.after t move) (w.after t move) := by
  have clear : w.Clear ⟨True, True⟩ t action := by
    cases action with
    | call call => exact .inl trivial
    | go => exact fun _ => trivial
  rcases rings.step pages t action clear with ⟨none, _⟩ | ⟨r, r', done', done'', both⟩
  · rw [done] at none
    cases none
  · rw [done] at done' done''
    obtain rfl := Option.some.inj done'
    obtain rfl := Option.some.inj done''
    exact both.2

namespace MsgWorld

def emptyAt (w : MsgWorld) (t : Word) : Option Nat := (w.tasks.pc t).emptyAt (w.state (w.pid t))

def fullAt (w : MsgWorld) (t : Word) : Option Nat := (w.tasks.pc t).fullAt (w.state (w.pid t))

def wantsReply (w : MsgWorld) (t : Word) : Bool := (w.tasks.pc t).wantsReply (w.state (w.pid t))

def ToWake (w : MsgWorld) (r : Nat) : Prop := ∃ t, (w.tasks.pc t).wakes r = true

-- The messages that a step in msgbuf_reply answers.
def answering (w : MsgWorld) : MsgPc → List Nat
  | .answer id replyId _ => w.history.answers id replyId
  | _ => []

/-- No lost wake-up. -/
structure Awake (w : MsgWorld) : Prop where
  receiving : ∀ t recv, w.tasks.pc t = .blocked (.message recv) → w.state (w.pid t) = .blocked →
    ∀ i (n : Nat), (w.history.reg.buf recv.receiver).queued i = n → w.history.reg.Live n →
      (w.history.reg.buf n).Connected recv.id → w.ToWake recv.receiver
  sending : ∀ t send, w.tasks.pc t = .blocked (.space send) → w.state (w.pid t) = .blocked →
    ∀ i, (w.history.reg.buf send.receiver).queued i ≠ -1
  replied : ∀ t send, w.tasks.pc t = .blocked (.reply send) → w.state (w.pid t) = .blocked →
    w.history.mine t ∉ w.answered

/-- The steps that lose no wake-up. A receiver is unblocked and a message answered while no task is
between its look at the queue, or its push, and its task_block; and no place in a receive queue gets
free, in a pop or for a new message buffer, while a task waits for space there. -/
def Timely (stale : Stale) (w : MsgWorld) (t : Word) : WorldAction → Prop
  | .msg (.call call) =>
    match w.tasks.step stale t (.call call) with
    | some (.ok move) =>
      w.tasks.msg.sys.Everyone fun u => ∀ r ∈ w.fullAt u, ¬ w.history.Born move r
    | _ => True
  | .msg .go =>
    match w.tasks.pc t with
    | .wake send => w.history.queue send.receiver = [] ∨
        w.tasks.msg.sys.Everyone fun u => (w.tasks.pc u).emptyAt .running ≠ some send.receiver
    | .pop recv => w.history.queue recv.receiver = [] ∨
        w.tasks.msg.sys.Everyone fun u => w.fullAt u ≠ some recv.receiver
    | .answer id replyId _ =>
      w.tasks.msg.sys.Everyone fun u => (w.tasks.pc u).wantsReply .running = true →
        w.history.mine u ∉ w.history.answers id replyId
    | _ => True
  | _ => True

instance (stale : Stale) (w : MsgWorld) (t : Word) (action : WorldAction) : Decidable (w.Timely stale t action) := by
  delta Timely
  rcases action with (call | _) | _ | _
  · dsimp only
    generalize w.tasks.step stale t (.call call) = done
    rcases done with _ | _ | move <;> dsimp only <;> infer_instance
  · dsimp only
    generalize w.tasks.pc t = pc
    rcases pc with _ | _ <;> dsimp only <;> infer_instance
  · exact inferInstanceAs (Decidable True)
  · exact inferInstanceAs (Decidable True)

/-- What the tasks that wait, or are about to, rely on. -/
structure Waiting (w : MsgWorld) : Prop where
  rings : TasksMatch ⟨True, True⟩ w.tasks w.tasks
  empty : ∀ t r, w.emptyAt t = some r → w.history.queue r = [] ∨ w.ToWake r
  full : ∀ t r, w.fullAt t = some r → (w.history.queue r).length = queueSize
  wants : ∀ t, w.wantsReply t = true → w.history.mine t ∉ w.answered
  numbers : ∀ p ∈ w.answered, p < w.history.log.sent.length

theorem taskUnblock_blocked (state : Int → TaskState) (pid pid' : Int)
    (blocked : taskUnblock state pid pid' = .blocked) : state pid' = .blocked ∧ pid' ≠ pid := by
  unfold taskUnblock at blocked
  split_ifs at blocked with target
  · by_cases same : pid' = pid
    · rw [same, Function.update_self] at blocked
      cases blocked
    · rw [Function.update_of_ne same] at blocked
      exact ⟨blocked, same⟩
  · refine ⟨blocked, ?_⟩
    rintro rfl
    exact target blocked

section Waits

variable {pc : MsgPc} {state state' : TaskState}

-- A task that still waits has waited before.
theorem emptyAt_back (back : state' = .blocked → state = .blocked) (r : Nat) (at_ : pc.emptyAt state' = some r) :
    pc.emptyAt state = some r := by
  unfold MsgPc.emptyAt at at_ ⊢
  split at at_
  · exact at_
  · split_ifs at at_ with blocked
    rw [if_pos (back blocked)]
    exact at_
  · cases at_

theorem fullAt_back (back : state' = .blocked → state = .blocked) (r : Nat) (at_ : pc.fullAt state' = some r) :
    pc.fullAt state = some r := by
  unfold MsgPc.fullAt at at_ ⊢
  split at at_
  · exact at_
  · split_ifs at at_ with blocked
    rw [if_pos (back blocked)]
    exact at_
  · cases at_

theorem wantsReply_back (back : state' = .blocked → state = .blocked) (at_ : pc.wantsReply state' = true) :
    pc.wantsReply state = true := by
  unfold MsgPc.wantsReply at at_ ⊢
  split at at_
  · exact at_
  · rfl
  · rw [decide_eq_true_eq] at at_ ⊢
    exact back at_
  · cases at_

-- The state of a task matters only when it has called task_block.
theorem emptyAt_cases (r : Nat) (at_ : pc.emptyAt state = some r) :
    (∃ recv, pc = .block (.message recv) ∧ recv.receiver = r) ∨
      ∃ recv, pc = .blocked (.message recv) ∧ recv.receiver = r ∧ state = .blocked := by
  unfold MsgPc.emptyAt at at_
  split at at_
  next recv => exact .inl ⟨recv, rfl, Option.some.inj at_⟩
  next recv =>
    split_ifs at at_ with blocked
    exact .inr ⟨recv, rfl, Option.some.inj at_, blocked⟩
  next => cases at_

theorem fullAt_cases (r : Nat) (at_ : pc.fullAt state = some r) :
    ∃ send, (pc = .block (.space send) ∨ pc = .blocked (.space send)) ∧ send.receiver = r := by
  unfold MsgPc.fullAt at at_
  split at at_
  next send => exact ⟨send, .inl rfl, Option.some.inj at_⟩
  next send =>
    split_ifs at at_
    exact ⟨send, .inr rfl, Option.some.inj at_⟩
  next => cases at_

theorem wantsReply_cases (at_ : pc.wantsReply state = true) :
    pc.wantsReply .running = true ∨ ∃ send, pc = .blocked (.reply send) ∧ state = .blocked := by
  unfold MsgPc.wantsReply at at_ ⊢
  split at at_
  · exact .inl at_
  · exact .inl rfl
  next send => exact .inr ⟨send, rfl, of_decide_eq_true at_⟩
  · cases at_

end Waits

section Step

variable {sys : Sys} (distinct : sys.PidsDistinct) {w : MsgWorld} (ok : w.Ok sys) (waiting : w.Waiting)

include ok

-- A task that waits for a message is the owner of the message buffer.
theorem Ok.emptyAt_owner (t : Word) (r : Nat) (at_ : w.emptyAt t = some r) :
    w.tasks.msg.ownerPid r = w.pid t ∧ w.tasks.pc t ≠ .idle := by
  have place := ok.history.places t
  rcases emptyAt_cases r at_ with ⟨recv, here, rfl⟩ | ⟨recv, here, rfl, _⟩
  · rw [show w.history.tasks.pc t = _ from here] at place
    exact ⟨place.owned.pid, by rw [here]; simp⟩
  · rw [show w.history.tasks.pc t = _ from here] at place
    exact ⟨place.owned.pid, by rw [here]; simp⟩

theorem Ok.fullAt_made (t : Word) (r : Nat) (at_ : w.fullAt t = some r) :
    0 < w.history.made r ∧ w.tasks.pc t ≠ .idle := by
  have place := ok.history.places t
  obtain ⟨send, here | here, rfl⟩ := fullAt_cases r at_
  · rw [show w.history.tasks.pc t = _ from here] at place
    exact ⟨place.made, by rw [here]; simp⟩
  · rw [show w.history.tasks.pc t = _ from here] at place
    exact ⟨place.made, by rw [here]; simp⟩

include distinct in
-- Another task that waits after the step has waited before, and the step has not unblocked it.
theorem Ok.still_blocked (t : Word) (live : sys.Live t) (action : MsgAction) (move : MsgMove)
    (after : (w.moved t action move).Ok sys) (u : Word) (other : u ≠ t) (busy : w.tasks.pc u ≠ .idle)
    (blocked : (w.moved t action move).state ((w.moved t action move).pid u) = .blocked) :
    w.state (w.pid u) = .blocked ∧ ∀ pid, move.effect = .unblock pid → w.pid u ≠ pid := by
  rw [show (w.moved t action move).pid u = w.pid u by rw [after.pid, ok.pid]] at blocked
  cases effect : move.effect with
  | none =>
    rw [moved_state_none w t action move effect] at blocked
    exact ⟨blocked, fun _ same => by cases same⟩
  | block =>
    rw [moved_state_block w t action move effect] at blocked
    have away : w.pid u ≠ w.pid t := by
      rw [ok.pid, ok.pid]
      exact fun same => other (distinct u t (ok.history.actors u busy) live same)
    rw [Function.update_of_ne away] at blocked
    exact ⟨blocked, fun _ same => by cases same⟩
  | unblock pid =>
    rw [moved_state_unblock w t action move pid effect] at blocked
    obtain ⟨before, away⟩ := taskUnblock_blocked _ _ _ blocked
    exact ⟨before, fun pid' same => MsgEffect.unblock.inj same ▸ away⟩

include waiting

omit ok in
theorem Waiting.match {stale : Stale} (pages : StaleMatch ⟨True, True⟩ stale stale) (t : Word)
    (action : MsgAction) (move : MsgMove) (done : w.tasks.step stale t action = some (.ok move)) :
    TasksMatch ⟨True, True⟩ (w.moved t action move).tasks (w.moved t action move).tasks := by
  rw [moved_tasks]
  exact waiting.rings.next pages done

theorem Waiting.awake : w.Awake where
  receiving t recv here blocked i n there _ _ := by
    have at_ : w.emptyAt t = some recv.receiver := by
      rw [emptyAt, here, blocked]
      rfl
    refine (waiting.empty t _ at_).resolve_left fun none => ?_
    have place := ok.history.places t
    rw [show w.history.tasks.pc t = _ from here] at place
    have cells := (ok.history.contents _ (ok.history.born _ place.owned.live)).cells i
    rw [none, there] at cells
    simp at cells
  sending t send here blocked i free := by
    have at_ : w.fullAt t = some send.receiver := by
      rw [fullAt, here, blocked]
      rfl
    have length := waiting.full t _ at_
    have contents := ok.history.contents _ (ok.fullAt_made t _ at_).1
    have short := (contents.free i).mp free
    rw [List.length_map, length] at short
    exact absurd i.isLt (Nat.not_lt.mpr short)
  replied t send here blocked := by
    refine waiting.wants t ?_
    rw [wantsReply, here, blocked]
    rfl

end Step

section Go

variable {sys : Sys} (distinct : sys.PidsDistinct) {w : MsgWorld} (ok : w.Ok sys) (waiting : w.Waiting)
  (t : Word) (live : sys.Live t) {action : MsgAction} {move : MsgMove}
  (after : (w.moved t action move).Ok sys)

-- No one takes the wake-up of another task away.
theorem ToWake.moved {r : Nat} (wake : w.ToWake r) (quiet : (w.tasks.pc t).wakes r = false) :
    (w.moved t action move).ToWake r := by
  obtain ⟨u, waker⟩ := wake
  have other : u ≠ t := by
    rintro rfl
    rw [quiet] at waker
    cases waker
  exact ⟨u, by rw [moved_pc_of_ne w t u action move other]; exact waker⟩

include distinct ok live after

theorem Ok.emptyAt_before (u : Word) (other : u ≠ t) (r : Nat)
    (at_ : (w.moved t action move).emptyAt u = some r) : w.emptyAt u = some r := by
  have busy := (after.emptyAt_owner u r at_).2
  rw [emptyAt, moved_pc_of_ne w t u action move other] at at_
  rw [moved_pc_of_ne w t u action move other] at busy
  exact emptyAt_back (fun blocked => (ok.still_blocked distinct t live action move after u other busy blocked).1) r at_

theorem Ok.fullAt_before (u : Word) (other : u ≠ t) (r : Nat)
    (at_ : (w.moved t action move).fullAt u = some r) : w.fullAt u = some r := by
  have busy := (after.fullAt_made u r at_).2
  rw [fullAt, moved_pc_of_ne w t u action move other] at at_
  rw [moved_pc_of_ne w t u action move other] at busy
  exact fullAt_back (fun blocked => (ok.still_blocked distinct t live action move after u other busy blocked).1) r at_

theorem Ok.wantsReply_before (u : Word) (other : u ≠ t)
    (wants : (w.moved t action move).wantsReply u = true) : w.wantsReply u = true := by
  rw [wantsReply, moved_pc_of_ne w t u action move other] at wants
  have busy : w.tasks.pc u ≠ .idle := by
    intro idle
    rw [idle] at wants
    cases wants
  exact wantsReply_back (fun blocked => (ok.still_blocked distinct t live action move after u other busy blocked).1) wants

include waiting

-- What a call does to the tasks that wait: a new message buffer has an empty receive queue.
theorem Waiting.call {stale : Stale} (pages : StaleMatch ⟨True, True⟩ stale stale) (call : MsgCall)
    (is : action = .call call) (done : w.tasks.step stale t action = some (.ok move))
    (timely : w.Timely stale t (.msg action)) : (w.moved t action move).Waiting := by
  subst is
  obtain ⟨idle, acted⟩ : w.tasks.pc t = .idle ∧ call.act stale (w.tasks.msg.as t) = .ok move := by
    unfold MsgTasks.step at done
    split_ifs at done with idle
    exact ⟨idle, Option.some.inj done⟩
  have queue (r : Nat) : (w.moved t (.call call) move).history.queue r =
      if w.history.Born move r then [] else w.history.queue r := rfl
  have here : (w.moved t (.call call) move).tasks.pc t = move.pc := moved_pc_self w t _ move
  have pc := MsgHistory.call_pc acted
  refine ⟨waiting.match pages t _ move done, fun u r at_ => ?_, fun u r at_ => ?_, fun u wants => ?_,
    waiting.numbers⟩
  · by_cases same : u = t
    · rw [same, emptyAt, here] at at_
      rcases pc with pc | ⟨_, pc⟩ | ⟨_, pc⟩ | ⟨_, _, _, pc⟩ <;> rw [pc] at at_ <;> cases at_
    · rw [queue]
      split_ifs
      · exact .inl rfl
      · refine (waiting.empty u r (ok.emptyAt_before distinct t live after u same r at_)).imp_right fun wake => ?_
        exact wake.moved t (by rw [idle]; rfl)
  · by_cases same : u = t
    · rw [same, fullAt, here] at at_
      rcases pc with pc | ⟨_, pc⟩ | ⟨_, pc⟩ | ⟨_, _, _, pc⟩ <;> rw [pc] at at_ <;> cases at_
    · have before := ok.fullAt_before distinct t live after u same r at_
      simp only [Timely, done] at timely
      have unborn := ok.everyone timely u (ok.fullAt_made u r before).2 r before
      rw [queue, if_neg unborn]
      exact waiting.full u r before
  · by_cases same : u = t
    · rw [same, wantsReply, here] at wants
      rcases pc with pc | ⟨_, pc⟩ | ⟨_, pc⟩ | ⟨_, _, _, pc⟩ <;> rw [pc] at wants <;> cases wants
    · exact waiting.wants u (ok.wantsReply_before distinct t live after u same wants)

end Go

section Go

variable {sys : Sys} (distinct : sys.PidsDistinct) {w : MsgWorld} (ok : w.Ok sys) (waiting : w.Waiting)
  (t : Word) (live : sys.Live t) {pc : MsgPc} {move : MsgMove} (where_ : w.tasks.pc t = pc)
  (step : GoStep (w.tasks.msg.as t) pc move) (after : (w.moved t .go move).Ok sys) {stale : Stale}
  (timely : w.Timely stale t (.msg .go))

include where_

theorem moved_history : (w.moved t .go move).history = w.history.afterGo t pc move := by
  rw [← where_]
  rfl

theorem moved_go_answered : (w.moved t .go move).answered = w.answered ++ w.answering pc := by
  unfold moved
  simp only [where_]
  cases pc <;> first | rfl | exact (List.append_nil _).symm

include distinct ok waiting live step after timely

theorem Waiting.go_empty (u : Word) (r : Nat) (at_ : (w.moved t .go move).emptyAt u = some r) :
    (w.moved t .go move).history.queue r = [] ∨ (w.moved t .go move).ToWake r := by
  have here : (w.moved t .go move).tasks.pc t = move.pc := moved_pc_self w t _ move
  have place := ok.history.places t
  rw [show w.history.tasks.pc t = _ from where_] at place
  have old (before : w.emptyAt u = some r) (quiet : pc.wakes r = false)
      (queue : (w.history.afterGo t pc move).queue r = w.history.queue r) :
      (w.moved t .go move).history.queue r = [] ∨ (w.moved t .go move).ToWake r := by
    rw [moved_history t where_, queue]
    exact (waiting.empty u r before).imp_right fun wake => wake.moved t (by rw [where_]; exact quiet)
  by_cases other : u = t
  · subst other
    rw [emptyAt, here] at at_
    cases step with
    | empty recv msgbuf pop =>
      obtain rfl : recv.receiver = r := Option.some.inj at_
      refine .inl ?_
      rcases (ok.history.contents _ (ok.history.born _ place.owned.live)).pop (-1) msgbuf pop with
        ⟨none, _, _⟩ | ⟨_, _, some, _⟩
      · rw [moved_history u where_]
        exact List.map_eq_nil_iff.mp none
      · exact absurd rfl some
    | blocks wait =>
      rcases emptyAt_cases r at_ with ⟨recv, block, _⟩ | ⟨recv, blocked, rfl, _⟩
      · cases block
      · obtain rfl := MsgPc.blocked.inj blocked
        exact old (by rw [emptyAt, where_]; rfl) rfl rfl
    | _ => cases at_
  have before := ok.emptyAt_before distinct t live after u other r at_
  -- The owner of the receive queue is unblocked, unless it has not called task_block yet.
  have woken (send : MsgSend) (is : pc = .wake send) (effect : move.effect = .unblock (w.tasks.msg.ownerPid send.receiver))
      (queue : (w.history.afterGo t pc move).queue r = w.history.queue r) :
      (w.moved t .go move).history.queue r = [] ∨ (w.moved t .go move).ToWake r := by
    by_cases target : send.receiver = r
    · subst target
      obtain ⟨owner, busy⟩ := ok.emptyAt_owner u _ before
      simp only [Timely, where_, is] at timely
      rcases timely with none | settled
      · rw [moved_history t where_, queue]
        exact .inl none
      have notYet := ok.everyone settled u busy
      rcases emptyAt_cases _ before with ⟨recv, block, same⟩ | ⟨recv, blocked, _⟩
      · rw [block] at notYet
        exact absurd (congrArg some same) notYet
      · have still := at_
        rw [emptyAt, moved_pc_of_ne w t u .go move other, blocked] at still
        rcases emptyAt_cases _ still with ⟨_, block, _⟩ | ⟨_, _, _, state⟩
        · cases block
        · exact absurd owner.symm ((ok.still_blocked distinct t live .go move after u other busy state).2 _ effect)
    · exact old before (by rw [is]; exact decide_eq_false target) queue
  cases step with
  | pushed send msgbuf push =>
    by_cases target : send.receiver = r
    · refine .inr ⟨t, ?_⟩
      rw [here]
      exact decide_eq_true target
    · exact old before rfl (Function.update_of_ne (Ne.symm target) _ _)
  | popped recv sendId msgbuf pop found =>
    by_cases target : recv.receiver = r
    · subst target
      rcases waiting.empty u _ before with none | wake
      · refine .inl ?_
        rw [moved_history t where_]
        show Function.update w.history.queue recv.receiver (w.history.queue recv.receiver).tail recv.receiver = []
        rw [Function.update_self, none]
        rfl
      · exact .inr (wake.moved t (by rw [where_]; rfl))
    · exact old before rfl (Function.update_of_ne (Ne.symm target) _ _)
  | sent send noblock => exact woken send rfl rfl rfl
  | waits send blocking => exact woken send rfl rfl rfl
  | blocks wait => exact old before rfl (by cases wait <;> rfl)
  | _ => exact old before rfl rfl

theorem Waiting.go_full (u : Word) (r : Nat) (at_ : (w.moved t .go move).fullAt u = some r) :
    ((w.moved t .go move).history.queue r).length = queueSize := by
  have here : (w.moved t .go move).tasks.pc t = move.pc := moved_pc_self w t _ move
  have place := ok.history.places t
  rw [show w.history.tasks.pc t = _ from where_] at place
  have old (before : w.fullAt u = some r)
      (queue : (w.history.afterGo t pc move).queue r = w.history.queue r) :
      ((w.moved t .go move).history.queue r).length = queueSize := by
    rw [moved_history t where_, queue]
    exact waiting.full u r before
  by_cases other : u = t
  · subst other
    rw [fullAt, here] at at_
    cases step with
    | full send msgbuf push =>
      obtain rfl : send.receiver = r := Option.some.inj at_
      rw [moved_history u where_]
      show (w.history.queue send.receiver).length = queueSize
      have contents := ok.history.contents _ place.made
      have inside := ((waiting.rings.msg.reg.bufs send.receiver).pos trivial).1
      rcases queuePush_cases _ send.sendId inside with ⟨_, _, _, pushed, _⟩ | ⟨full, _⟩
      · rw [show queuePush (w.tasks.msg.reg.buf send.receiver) send.sendId = _ from push] at pushed
        cases pushed
      · have short := contents.length
        rw [List.length_map] at short
        by_contra room
        have free := (contents.free ⟨_, lt_of_le_of_ne short room⟩).mpr (by rw [List.length_map])
        exact full _ free
    | blocks wait =>
      obtain ⟨send, block | blocked, rfl⟩ := fullAt_cases r at_
      · cases block
      · obtain rfl := MsgPc.blocked.inj blocked
        exact old (by rw [fullAt, where_]; rfl) rfl
    | _ => cases at_
  have before := ok.fullAt_before distinct t live after u other r at_
  have busy := (ok.fullAt_made u r before).2
  cases step with
  | pushed send msgbuf push =>
    by_cases target : send.receiver = r
    · -- A push to a full queue fails.
      subst target
      have longer := (after.history.contents _ (after.fullAt_made u _ at_).1).length
      rw [moved_history t where_, List.length_map] at longer
      change (Function.update w.history.queue send.receiver _ send.receiver).length ≤ queueSize at longer
      rw [Function.update_self, List.length_append, waiting.full u _ before] at longer
      exact absurd longer (by simp)
    · exact old before (Function.update_of_ne (Ne.symm target) _ _)
  | popped recv sendId msgbuf pop found =>
    by_cases target : recv.receiver = r
    · subst target
      simp only [Timely, where_] at timely
      rcases timely with none | free
      · have length := waiting.full u _ before
        rw [none] at length
        cases length
      · exact absurd before (ok.everyone free u busy)
    · exact old before (Function.update_of_ne (Ne.symm target) _ _)
  | blocks wait => exact old before (by cases wait <;> rfl)
  | _ => exact old before rfl

theorem Waiting.go_wants (u : Word) (wants : (w.moved t .go move).wantsReply u = true) :
    (w.moved t .go move).history.mine u ∉ (w.moved t .go move).answered := by
  have here : (w.moved t .go move).tasks.pc t = move.pc := moved_pc_self w t _ move
  rw [moved_go_answered t where_]
  by_cases other : u = t
  · subst other
    rw [wantsReply, here] at wants
    rw [moved_history u where_]
    have old (before : w.wantsReply u = true) (quiet : w.answering pc = [])
        (mine : (w.history.afterGo u pc move).mine u = w.history.mine u) :
        (w.history.afterGo u pc move).mine u ∉ w.answered ++ w.answering pc := by
      rw [mine, quiet, List.append_nil]
      exact waiting.wants u before
    cases step with
    | pushed send msgbuf push =>
      show Function.update w.history.mine u w.history.log.sent.length u ∉ w.answered ++ []
      rw [Function.update_self, List.append_nil]
      exact fun member => absurd (waiting.numbers _ member) (lt_irrefl _)
    | waits send blocking => exact old (by rw [wantsReply, where_]; exact decide_eq_true blocking) rfl rfl
    | blocks wait =>
      cases wait with
      | reply send => exact old (by rw [wantsReply, where_]; rfl) rfl rfl
      | _ => cases wants
    | _ => cases wants
  have before := ok.wantsReply_before distinct t live after u other wants
  rw [moved_mine_of_ne w t u .go move other, List.mem_append, not_or]
  refine ⟨waiting.wants u before, fun member => ?_⟩
  cases step with
  | answered id replyId receiver =>
    have busy : w.tasks.pc u ≠ .idle := by
      intro idle
      rw [wantsReply, idle] at before
      cases before
    simp only [Timely, where_] at timely
    rcases wantsReply_cases before with notYet | ⟨send, blocked, _⟩
    · exact ok.everyone timely u busy notYet member
    -- The sender of the message is the one that is unblocked.
    have place := ok.history.places t
    rw [show w.history.tasks.pc t = _ from where_] at place
    have sends := ok.history.places u
    rw [show w.history.tasks.pc u = _ from blocked] at sends
    obtain ⟨⟨_, owned, _⟩, item, there, _, sender⟩ := sends
    obtain ⟨_, item', there', _, _, sender'⟩ := (w.history.mem_answers id replyId _).mp member
    obtain rfl := Option.some.inj (there.symm.trans there')
    have target : receiver = send.sendId.toNat := by
      rw [← sender, sender', place.2.2, Int.toNat_natCast]
    rw [wantsReply, moved_pc_of_ne w t u .go _ other, blocked] at wants
    have state := of_decide_eq_true wants
    refine (ok.still_blocked distinct t live .go _ after u other busy state).2 _ rfl ?_
    rw [target]
    exact owned.pid.symm
  | _ => cases member

theorem Waiting.go (pages : StaleMatch ⟨True, True⟩ stale stale)
    (done : w.tasks.step stale t .go = some (.ok move)) : (w.moved t .go move).Waiting where
  rings := waiting.match pages t .go move done
  empty := waiting.go_empty distinct ok t live where_ step after timely
  full := waiting.go_full distinct ok t live where_ step after timely
  wants := waiting.go_wants distinct ok t live where_ step after timely
  numbers p member := by
    rw [moved_go_answered t where_, List.mem_append] at member
    have more : w.history.log.sent.length ≤ (w.history.afterGo t pc move).log.sent.length := by
      cases step with
      | pushed send msgbuf push =>
        show _ ≤ (w.history.log.send (w.history.item t send)).sent.length
        simp [Channel.Log.send]
      | blocks wait => cases wait <;> exact le_refl _
      | _ => exact le_refl _
    rw [moved_history t where_]
    refine lt_of_lt_of_le ?_ more
    rcases member with before | new
    · exact waiting.numbers p before
    · cases step with
      | answered id replyId receiver =>
        obtain ⟨_, item, there, _⟩ := (w.history.mem_answers id replyId p).mp new
        exact (List.getElem?_eq_some_iff.mp there).1
      | _ => cases new

end Go

-- A step in a message queue call, whose task is in no message buffer call.
theorem Waiting.mqueue {sys : Sys} (distinct : sys.PidsDistinct) {w : MsgWorld} (ok : w.Ok sys)
    (waiting : w.Waiting) (t : Word) (live : sys.Live t) (idle : w.tasks.pc t = .idle)
    (state : Int → TaskState) (queues : Mqueues) (stage : MqStage) (stateStep : StateStep w t state)
    (after : Ok sys { w with state := state, queues := queues, mq := Function.update w.mq t stage }) :
    ({ w with state := state, queues := queues, mq := Function.update w.mq t stage } : MsgWorld).Waiting := by
  have back (u : Word) (busy : w.tasks.pc u ≠ .idle) (blocked : state (w.pid u) = .blocked) :
      w.state (w.pid u) = .blocked := by
    cases stateStep with
    | same => exact blocked
    | wake pid rest _ => exact (taskUnblock_blocked _ _ _ blocked).1
    | block wait _ =>
      have away : w.pid u ≠ w.pid t := by
        rw [ok.pid, ok.pid]
        intro same
        rw [distinct u t (ok.history.actors u busy) live same] at busy
        exact busy idle
      rwa [Function.update_of_ne away] at blocked
  refine ⟨waiting.rings, fun u r at_ => ?_, fun u r at_ => ?_, fun u wants => ?_, waiting.numbers⟩
  · exact waiting.empty u r (emptyAt_back (back u (after.emptyAt_owner u r at_).2) r at_)
  · exact waiting.full u r (fullAt_back (back u (after.fullAt_made u r at_).2) r at_)
  · have busy : w.tasks.pc u ≠ .idle := by
      intro idle
      change (w.tasks.pc u).wantsReply _ = true at wants
      rw [idle] at wants
      cases wants
    exact waiting.wants u (wantsReply_back (back u busy) wants)

end MsgWorld

/-- In every run of tasks with pids of their own on node pages without names and with positions inside
the receive queues, in which no wake-up comes between a look at a receive queue, or a push, and the
task_block that follows, and no place gets free at which a task waits for space, no wake-up is lost. -/
theorem msgbuf_awake (stale : Stale) (clean : stale.Clean) (inRange : stale.InRange) (sys : Sys)
    (distinct : sys.PidsDistinct) (state : Int → TaskState) (w : MsgWorld)
    (run : Run (MsgWorld.Step stale) (fun w a => sys.Live a.1 ∧ w.Timely stale a.1 a.2) (.fresh sys state) w) :
    w.Awake := by
  have pages := clean.pages inRange
  have invariant : w.Ok sys ∧ w.Waiting := by
    refine run.invariant (fun w => w.Ok sys ∧ w.Waiting) ⟨MsgWorld.ok_fresh sys state, ?_⟩ ?_
    · exact ⟨.fresh _ sys, fun _ _ at_ => (by cases at_), fun _ _ at_ => (by cases at_),
        fun _ at_ => (by cases at_), fun _ none => absurd none List.not_mem_nil⟩
    rintro w ⟨t, action⟩ w' ⟨ok, waiting⟩ ⟨live, timely⟩ taken
    have ok' := ok.step clean distinct t live action taken
    refine ⟨ok', ?_⟩
    rcases MsgWorld.step_cases taken with
      ⟨action', move, rfl, _, _, done, rfl⟩ | ⟨_, quiet, state, queues, stage, stateStep, _, rfl⟩
    · cases action' with
      | call call => exact waiting.call distinct ok t live ok' pages call rfl done timely
      | go => exact waiting.go distinct ok t live rfl (go_step done) ok' timely pages done
    · exact waiting.mqueue distinct ok t live (quiet.elim id (ok.apart t)) state queues stage stateStep ok'
  exact invariant.2.awake invariant.1

-- The second task's message comes after the first task has found its queue empty, and before its task_block.
def lostMessage : List (Word × WorldAction) :=
  connectBoth ++ [byFirst (.call (.recv 1)), byFirst .go, bySecond (.call (.send 0 1 msbNoblock)), bySecond .go,
    bySecond .go, byFirst .go]

theorem lostMessage_blocks :
    ¬ ∀ (stale : Stale) (_ : stale.Clean) (_ : stale.InRange) (sys : Sys) (_ : sys.PidsDistinct)
      (state : Int → TaskState) (w : MsgWorld),
      Run (MsgWorld.Step stale) (fun _ a => sys.Live a.1) (.fresh sys state) w → w.Awake := by
  intro claim
  have played : ((MsgWorld.fresh (twoTasks [20, 21, 22]) fun _ => .running).play zeroPages
      (fun _ a => (twoTasks [20, 21, 22]).Live a.1) lostMessage).map (fun w => (w.tasks.pc (poolVa 10),
        w.state (w.pid (poolVa 10)), (w.history.reg.buf 1).queued 0, (connGet (w.history.reg.buf 0) 1).isSome,
        decide (w.history.reg.Live 0 ∧ w.tasks.msg.sys.Everyone fun t => (w.tasks.pc t).wakes 1 = false))) =
      some (.blocked (.message ⟨1, 1⟩), .blocked, 0, true, true) := by decide +kernel
  obtain ⟨w, reached, same⟩ := Option.map_eq_some_iff.mp played
  simp only [Prod.mk.injEq, decide_eq_true_eq] at same
  obtain ⟨at_, blocked, there, connected, live, noOne⟩ := same
  have run := MsgWorld.play_run zeroPages _ _ w lostMessage reached
  have awake := claim zeroPages zeroPages_clean zeroPages_inRange _ (twoTasks_distinct [20, 21, 22]) _ w run
  have connected : (w.history.reg.buf 0).Connected 1 := by
    by_contra none
    rw [(connGet_none _ _).mpr none] at connected
    cases connected
  obtain ⟨t, wakes⟩ := awake.receiving _ _ at_ blocked 0 0 there live connected
  have ok := MsgWorld.run_ok zeroPages_clean (twoTasks_distinct [20, 21, 22]) (fun _ _ acts => acts) run
  have busy : w.tasks.pc t ≠ .idle := by
    intro idle
    rw [idle] at wakes
    cases wakes
  rw [ok.everyone noOne t busy] at wakes
  cases wakes

-- The first task waits for a message, and the second one sends it.
def heededMessage : List (Word × WorldAction) :=
  connectBoth ++ [byFirst (.call (.recv 1)), byFirst .go, byFirst .go, bySecond (.call (.send 0 1 msbNoblock)),
    bySecond .go]

theorem msgbuf_awake_waiting : ∃ w : MsgWorld, w.tasks.pc (poolVa 10) = .blocked (.message ⟨1, 1⟩) ∧
    w.state (w.pid (poolVa 10)) = .blocked ∧ (w.history.reg.buf 1).queued 0 = 0 ∧ w.Awake := by
  let allowed := fun (w : MsgWorld) (a : Word × WorldAction) =>
    (twoTasks [20, 21, 22]).Live a.1 ∧ w.Timely zeroPages a.1 a.2
  have played : ((MsgWorld.fresh (twoTasks [20, 21, 22]) fun _ => .running).play zeroPages allowed
      heededMessage).map (fun w => (w.tasks.pc (poolVa 10), w.state (w.pid (poolVa 10)),
        (w.history.reg.buf 1).queued 0)) = some (.blocked (.message ⟨1, 1⟩), .blocked, 0) := by decide +kernel
  obtain ⟨w, reached, same⟩ := Option.map_eq_some_iff.mp played
  simp only [Prod.mk.injEq] at same
  have run := MsgWorld.play_run zeroPages allowed _ w heededMessage reached
  exact ⟨w, same.1, same.2.1, same.2.2, msgbuf_awake zeroPages zeroPages_clean zeroPages_inRange _
    (twoTasks_distinct [20, 21, 22]) _ w run⟩

end Anthill
