import Anthill.MqueueWake
import Anthill.MsgbufHistory

set_option autoImplicit false

namespace Anthill

/-- Where a task is in a message queue call: at its task_unblock calls, or at its own task_block. -/
inductive MqStage where
  | idle
  | wake (pids : List Int)
  | block (wait : MqWait)
  | blocked (wait : MqWait)

def MqOutcome.stage (woken : List Int) : MqOutcome → MqStage
  | .returned _ _ => .wake woken
  | .blocked wait => .block wait

-- The tasks that a round calls task_unblock for.
def MqWait.wakes (s : Mqueues) : MqWait → List Int
  | .send q _ msgPtr msgLen =>
    match enqueue (s.openQueues q) msgPtr msgLen with
    | .ok ⟨true, woken, _⟩ => woken
    | _ => []
  | .receive _ _ _ => []

def MqCall.wakes (s : Mqueues) (call : MqCall) : List Int :=
  match call.enters s with
  | some wait => wait.wakes s
  | none => []

def MqStage.isIdle : MqStage → Bool
  | .idle => true
  | _ => false

def MqCall.isRetry : MqCall → Bool
  | .retry _ _ => true
  | _ => false

def MsgPc.isBlocked : MsgPc → Bool
  | .blocked _ => true
  | _ => false

/-- The tasks with their states by pid, in message buffer calls or message queue calls. `answered` holds
the pushes whose message was received and then replied to. -/
structure MsgWorld where
  history : MsgHistory
  state : Int → TaskState
  queues : Mqueues
  mq : Word → MqStage
  answered : List Nat

inductive WorldAction where
  | msg (action : MsgAction)
  | mqueue (call : MqCall)
  | go

-- What a msgbuf_reply answers: the messages that its message buffer has received from that id.
def MsgHistory.answers (h : MsgHistory) (id replyId : Int) : List Nat :=
  (h.log.got.map Channel.Receipt.number).filter fun p =>
    match h.log.sent[p]? with
    | some item => decide (item.receiver = id.toNat ∧ item.receiverNo = h.made id.toNat ∧
        item.sender = replyId.toNat)
    | none => false

theorem MsgHistory.mem_answers (h : MsgHistory) (id replyId : Int) (p : Nat) :
    p ∈ h.answers id replyId ↔ (∃ g ∈ h.log.got, g.number = p) ∧ ∃ item, h.log.sent[p]? = some item ∧
      item.receiver = id.toNat ∧ item.receiverNo = h.made id.toNat ∧ item.sender = replyId.toNat := by
  rw [MsgHistory.answers, List.mem_filter, List.mem_map]
  cases there : h.log.sent[p]? <;> simp

namespace MsgWorld

def tasks (w : MsgWorld) : MsgTasks := w.history.tasks

def pid (w : MsgWorld) (t : Word) : Int := (w.tasks.msg.sys.task t).pid

/-- task_schedule picks running tasks, and the first of the array when there is none. -/
def Picks (w : MsgWorld) (t : Word) : Prop :=
  w.state (w.pid t) = .running ∨ (w.tasks.msg.sys.tasks 0 = some t ∧
    ∀ i, (w.tasks.msg.sys.tasks i).all (fun u => w.state (w.pid u) ≠ .running) = true)

instance (w : MsgWorld) (t : Word) : Decidable (w.Picks t) := inferInstanceAs (Decidable (_ ∨ _))

def setMq (w : MsgWorld) (t : Word) (stage : MqStage) : MsgWorld :=
  { w with mq := Function.update w.mq t stage }

def moved (w : MsgWorld) (t : Word) (action : MsgAction) (move : MsgMove) : MsgWorld :=
  { w with
    history := w.history.after t action move
    state :=
      match move.effect with
      | .none => w.state
      | .block => Function.update w.state (w.pid t) .blocked
      | .unblock pid => taskUnblock w.state pid
    answered :=
      match action, w.tasks.pc t with
      | .go, .answer id replyId _ => w.answered ++ w.history.answers id replyId
      | _, _ => w.answered }

def round (w : MsgWorld) (t : Word) (woken : List Int) :
    Except MqFault (MqOutcome × Mqueues) → Option MsgWorld
  | .error _ => none
  | .ok (out, queues) => some ({ w with queues := queues }.setMq t (out.stage woken))

/-- One atomic step of task `t`. -/
def step (stale : Stale) (w : MsgWorld) (t : Word) : WorldAction → Option MsgWorld
  | .msg action =>
    if (w.mq t).isIdle = false ∨ ((w.tasks.pc t).isBlocked = true ∧ ¬ w.Picks t) then none
    else
      match w.tasks.step stale t action with
      | some (.ok move) => some (w.moved t action move)
      | _ => none
  | .mqueue call =>
    if w.tasks.pc t = .idle ∧ (w.mq t).isIdle = true ∧ call.pid = w.pid t ∧ call.isRetry = false then
      w.round t (call.wakes w.queues) (call.act w.queues)
    else none
  | .go =>
    match w.mq t with
    | .idle => none
    | .wake [] => some (w.setMq t .idle)
    | .wake (pid :: rest) => some ({ w with state := taskUnblock w.state pid }.setMq t (.wake rest))
    | .block wait =>
      some ({ w with state := Function.update w.state (w.pid t) .blocked }.setMq t (.blocked wait))
    -- task_block returns.
    | .blocked wait => if w.Picks t then w.round t (wait.wakes w.queues) (wait.round w.queues) else none

def fresh (sys : Sys) (state : Int → TaskState) : MsgWorld where
  history := .fresh sys
  state := state
  queues := MqSys.boot.queues
  mq _ := .idle
  answered := []

def Step (stale : Stale) (w : MsgWorld) (a : Word × WorldAction) (w' : MsgWorld) : Prop :=
  w.step stale a.1 a.2 = some w'

/-- What a step in a message queue call does to the state of the tasks. -/
inductive StateStep (w : MsgWorld) (t : Word) : (Int → TaskState) → Prop where
  | same : StateStep w t w.state
  | wake (pid : Int) (rest : List Int) (stage : w.mq t = .wake (pid :: rest)) :
      StateStep w t (taskUnblock w.state pid)
  | block (wait : MqWait) (stage : w.mq t = .block wait) :
      StateStep w t (Function.update w.state (w.pid t) .blocked)

/-- A step is one in a message buffer call, or one in a message queue call. -/
theorem step_cases {stale : Stale} {w w' : MsgWorld} {t : Word} {action : WorldAction}
    (taken : w.step stale t action = some w') :
    (∃ action' move, action = .msg action' ∧ (w.mq t).isIdle = true ∧
      ((w.tasks.pc t).isBlocked = true → w.Picks t) ∧ w.tasks.step stale t action' = some (.ok move) ∧
      w' = w.moved t action' move) ∨
    ((∀ action', action ≠ .msg action') ∧ (w.tasks.pc t = .idle ∨ (w.mq t).isIdle = false) ∧
      ∃ state queues stage, StateStep w t state ∧ (state = w.state ∨ action = .go) ∧
        w' = { w with state := state, queues := queues, mq := Function.update w.mq t stage }) := by
  have rounds (woken : List Int) (result : Except MqFault (MqOutcome × Mqueues))
      (done : w.round t woken result = some w') :
      ∃ state queues stage, StateStep w t state ∧ (state = w.state ∨ action = .go) ∧
        w' = { w with state := state, queues := queues, mq := Function.update w.mq t stage } := by
    unfold round at done
    split at done
    · cases done
    · obtain rfl := Option.some.inj done
      exact ⟨_, _, _, .same, .inl rfl, rfl⟩
  cases action with
  | msg action =>
    simp only [step] at taken
    by_cases held : (w.mq t).isIdle = false ∨ ((w.tasks.pc t).isBlocked = true ∧ ¬ w.Picks t)
    · rw [if_pos held] at taken
      cases taken
    rw [if_neg held] at taken
    rcases done : w.tasks.step stale t action with _ | halt | move <;> simp only [done] at taken
    · cases taken
    · cases taken
    · obtain rfl := Option.some.inj taken
      obtain ⟨idle, free⟩ := not_or.mp held
      refine .inl ⟨action, move, rfl, by simpa using idle, fun blocked => ?_, done, rfl⟩
      exact not_not.mp fun stuck => free ⟨blocked, stuck⟩
  | mqueue call =>
    simp only [step] at taken
    split_ifs at taken with ready
    exact .inr ⟨(by intro _ h; cases h), .inl ready.1, rounds _ _ taken⟩
  | go =>
    refine .inr ⟨(by intro _ h; cases h), ?_⟩
    unfold step at taken
    cases stage : w.mq t with
    | idle => rw [stage] at taken; cases taken
    | wake pids =>
      refine ⟨.inr rfl, ?_⟩
      rw [stage] at taken
      cases pids with
      | nil =>
        obtain rfl := Option.some.inj taken
        exact ⟨_, _, _, .same, .inr rfl, rfl⟩
      | cons pid rest =>
        obtain rfl := Option.some.inj taken
        exact ⟨_, _, _, .wake pid rest stage, .inr rfl, rfl⟩
    | block wait =>
      refine ⟨.inr rfl, ?_⟩
      rw [stage] at taken
      obtain rfl := Option.some.inj taken
      exact ⟨_, _, _, .block wait stage, .inr rfl, rfl⟩
    | blocked wait =>
      refine ⟨.inr rfl, ?_⟩
      rw [stage] at taken
      simp only [] at taken
      split_ifs at taken
      exact rounds _ _ taken

section Moved

variable (w : MsgWorld) (t u : Word) (action : MsgAction) (move : MsgMove)

theorem moved_tasks : (w.moved t action move).tasks = w.tasks.after t move := by
  cases action with
  | call call => rfl
  | go => exact MsgHistory.afterGo_tasks w.history t (w.history.tasks.pc t) move

theorem moved_pc_self : (w.moved t action move).tasks.pc t = move.pc := by
  rw [moved_tasks]
  exact Function.update_self ..

theorem moved_pc_of_ne (other : u ≠ t) : (w.moved t action move).tasks.pc u = w.tasks.pc u := by
  rw [moved_tasks]
  exact Function.update_of_ne other _ _

theorem moved_mine_of_ne (other : u ≠ t) :
    (w.moved t action move).history.mine u = w.history.mine u := by
  cases action with
  | call call => rfl
  | go => exact MsgHistory.afterGo_mine w.history t (w.history.tasks.pc t) move u other

theorem moved_state_none (effect : move.effect = .none) : (w.moved t action move).state = w.state := by
  simp only [moved, effect]

theorem moved_state_block (effect : move.effect = .block) :
    (w.moved t action move).state = Function.update w.state (w.pid t) .blocked := by
  simp only [moved, effect]

theorem moved_state_unblock (pid : Int) (effect : move.effect = .unblock pid) :
    (w.moved t action move).state = taskUnblock w.state pid := by
  simp only [moved, effect]

theorem moved_answered_answer (id replyId : Int) (receiver : Nat) (pc : w.tasks.pc t = .answer id replyId receiver) :
    (w.moved t .go move).answered = w.answered ++ w.history.answers id replyId := by
  simp only [moved, pc]

end Moved

-- The effects of the steps are all inside the calls.
theorem call_effect {stale : Stale} {s : MsgSys} {call : MsgCall} {move : MsgMove}
    (done : call.act stale s = .ok move) : move.effect = .none := by
  cases call with
  | create name size sendBuf =>
    obtain ⟨_, _, rfl⟩ := (map_ok _ _ _).mp done
    rfl
  | connect id name =>
    obtain ⟨_, _, rfl⟩ := (map_ok _ _ _).mp done
    rfl
  | disconnect sendId recvId =>
    obtain ⟨_, _, rfl⟩ := (map_ok _ _ _).mp done
    rfl
  | close id =>
    obtain ⟨_, _, rfl⟩ := (map_ok _ _ _).mp done
    rfl
  | send sendId recvId flags =>
    rcases msgbufSend_ok _ sendId recvId flags move done with ⟨_, _, rfl⟩ | ⟨_, _, _, _, _, _, rfl⟩ <;> rfl
  | recv id => rcases msgbufRecv_ok _ id move done with ⟨_, _, rfl⟩ | ⟨_, _, _, rfl⟩ <;> rfl
  | reply id replyId =>
    rcases msgbufReply_ok _ id replyId move done with ⟨_, _, rfl⟩ | ⟨_, _, _, _, _, rfl⟩ <;> rfl

-- Which steps inside a call call task_block or task_unblock.
theorem go_effect {s : MsgSys} {pc : MsgPc} {move : MsgMove} (step : GoStep s pc move) :
    move.effect = .none ∨ (∃ wait, pc = .block wait ∧ move.effect = .block) ∨
      (∃ send, pc = .wake send ∧ move.effect = .unblock (s.ownerPid send.receiver)) ∨
      ∃ id replyId receiver, pc = .answer id replyId receiver ∧ move.effect = .unblock (s.ownerPid receiver) := by
  cases step with
  | sent send => exact .inr (.inr (.inl ⟨send, rfl, rfl⟩))
  | waits send => exact .inr (.inr (.inl ⟨send, rfl, rfl⟩))
  | answered id replyId receiver => exact .inr (.inr (.inr ⟨id, replyId, receiver, rfl, rfl⟩))
  | blocks wait => exact .inr (.inl ⟨wait, rfl, rfl⟩)
  | _ => exact .inl rfl

-- Only task_block leaves a task blocked.
theorem go_blocked {s : MsgSys} {pc : MsgPc} {move : MsgMove} {wait : MsgWait} (step : GoStep s pc move)
    (blocked : move.pc = .blocked wait) : pc = .block wait ∧ move.effect = .block := by
  cases step with
  | blocks wait' =>
    obtain rfl := MsgPc.blocked.inj blocked
    exact ⟨rfl, rfl⟩
  | _ => cases blocked

theorem call_blocked {stale : Stale} {s : MsgSys} {call : MsgCall} {move : MsgMove} (wait : MsgWait)
    (done : call.act stale s = .ok move) : move.pc ≠ .blocked wait := by
  rcases MsgHistory.call_pc done with pc | ⟨_, pc⟩ | ⟨_, pc⟩ | ⟨_, _, _, pc⟩ <;> rw [pc] <;> simp

theorem moved_answered (w : MsgWorld) (t : Word) (action : MsgAction) (move : MsgMove) (p : Nat)
    (before : p ∈ w.answered) : p ∈ (w.moved t action move).answered := by
  unfold moved
  simp only []
  split
  · exact List.mem_append_left _ before
  · exact before

/-- The history agrees with the system, and no task is in two calls at a time. -/
structure Ok (sys : Sys) (w : MsgWorld) : Prop where
  history : w.history.Ok sys
  apart : ∀ t, (w.mq t).isIdle = false → w.tasks.pc t = .idle

theorem ok_fresh (sys : Sys) (state : Int → TaskState) : (fresh sys state).Ok sys :=
  ⟨MsgHistory.ok_fresh sys, fun _ _ => rfl⟩

theorem Ok.pid {sys : Sys} {w : MsgWorld} (ok : w.Ok sys) (t : Word) : w.pid t = (sys.task t).pid := by
  rw [MsgWorld.pid, MsgWorld.tasks, ok.history.task]

theorem Ok.step {stale : Stale} (clean : stale.Clean) {sys : Sys} (distinct : sys.PidsDistinct)
    {w w' : MsgWorld} (ok : w.Ok sys) (t : Word) (live : sys.Live t) (action : WorldAction)
    (taken : w.step stale t action = some w') : w'.Ok sys := by
  rcases step_cases taken with
    ⟨action', move, _, idle, _, done, rfl⟩ | ⟨_, quiet, state, queues, stage, _, _, rfl⟩
  · refine ⟨ok.history.after clean distinct t live action' move done, fun u busy => ?_⟩
    have other : u ≠ t := by
      rintro rfl
      change (w.mq u).isIdle = false at busy
      rw [idle] at busy
      cases busy
    rw [moved_pc_of_ne w t u action' move other]
    exact ok.apart u busy
  · refine ⟨ok.history, fun u busy => ?_⟩
    by_cases here : u = t
    · rw [here]
      rcases quiet with idle | busy'
      · exact idle
      · exact ok.apart t busy'
    · change (Function.update w.mq t stage u).isIdle = false at busy
      rw [Function.update_of_ne here] at busy
      exact ok.apart u busy

theorem run_ok {stale : Stale} (clean : stale.Clean) {sys : Sys} (distinct : sys.PidsDistinct)
    {state : Int → TaskState} {w : MsgWorld} {allowed : MsgWorld → Word × WorldAction → Prop}
    (acts : ∀ w a, allowed w a → sys.Live a.1) (run : Run (Step stale) allowed (fresh sys state) w) : w.Ok sys := by
  refine run.invariant (fun w => w.Ok sys) (ok_fresh sys state) ?_
  rintro w ⟨t, action⟩ w' ok fine taken
  exact ok.step clean distinct t (acts w _ fine) action taken

-- The steps of a run one after the other, as long as they are allowed.
def play (stale : Stale) (allowed : MsgWorld → Word × WorldAction → Prop) [∀ w a, Decidable (allowed w a)] :
    MsgWorld → List (Word × WorldAction) → Option MsgWorld :=
  Run.replay (fun (w : MsgWorld) (a : Word × WorldAction) => w.step stale a.1 a.2) allowed

theorem play_run (stale : Stale) (allowed : MsgWorld → Word × WorldAction → Prop)
    [∀ w a, Decidable (allowed w a)] (w₀ w : MsgWorld) (steps : List (Word × WorldAction))
    (done : play stale allowed w₀ steps = some w) : Run (Step stale) allowed w₀ w :=
  Run.of_replay (fun (w : MsgWorld) (a : Word × WorldAction) => w.step stale a.1 a.2) allowed w steps .start done

end MsgWorld

instance (s : Sys) (t : Word) : Decidable (s.Live t) := inferInstanceAs (Decidable (∃ i, s.tasks i = some t))

-- The tasks with the pids 10 and 12.
def twoTasks (free : List Nat) : Sys := crew [] free [⟨10, 4, 11, 10, 0⟩, ⟨12, 5, 13, 10, 0⟩] 10

theorem twoTasks_distinct (free : List Nat) : (twoTasks free).PidsDistinct :=
  crew_distinct [] free _ 10 (by simp) (by simp)

def byFirst (action : MsgAction) : Word × WorldAction := (poolVa 10, .msg action)

def bySecond (action : MsgAction) : Word × WorldAction := (poolVa 12, .msg action)

end Anthill
