import Anthill.MsgbufWorld

set_option autoImplicit false

namespace Anthill

-- `P` of every task of the array.
def Sys.Everyone (s : Sys) (P : Word → Prop) : Prop := ∀ t, s.Live t → P t

instance (s : Sys) (P : Word → Prop) [DecidablePred P] : Decidable (s.Everyone P) :=
  decidable_of_iff (∀ i, ((s.tasks i).all fun t => P t) = true) (by
    simp only [Sys.Everyone, Sys.Live, Option.all_eq_true, decide_eq_true_eq]
    exact ⟨fun all t ⟨i, there⟩ => all i t there, fun all i t there => all t ⟨i, there⟩⟩)

def MsgPc.awaitsReply : MsgPc → Bool
  | .blocked (.reply _) => true
  | _ => false

theorem MsgPc.awaitsReply_iff (pc : MsgPc) : pc.awaitsReply = true ↔ ∃ send, pc = .blocked (.reply send) := by
  unfold MsgPc.awaitsReply
  split
  next send => simp
  next other => simpa using other

namespace MsgWorld

/-- Task `t` is in msgbuf_send, blocked for a reply. -/
def Awaits (w : MsgWorld) (t : Word) : Prop :=
  (w.tasks.pc t).awaitsReply = true ∧ w.state (w.pid t) = .blocked

instance (w : MsgWorld) (t : Word) : Decidable (w.Awaits t) := inferInstanceAs (Decidable (_ ∧ _))

/-- The step of `t` wakes no task that waits for a reply, or only by a msgbuf_reply that answers its
message. It does not deliver to a message buffer of such a task or reply to one of them for another
reason, wakes it from no message queue, and is not the task itself, picked by task_schedule because no
task is running. -/
def Careful (w : MsgWorld) (t : Word) : WorldAction → Prop
  | .msg .go =>
    match w.tasks.pc t with
    | .wake send =>
      w.tasks.msg.sys.Everyone fun u => w.Awaits u → w.pid u ≠ w.tasks.msg.ownerPid send.receiver
    | .answer id replyId receiver =>
      w.tasks.msg.sys.Everyone fun u => w.Awaits u → w.pid u = w.tasks.msg.ownerPid receiver →
        w.history.mine u ∈ w.history.answers id replyId
    | .blocked (.reply _) => w.state (w.pid t) = .running
    | _ => True
  | .go =>
    match w.mq t with
    | .wake (pid :: _) => w.tasks.msg.sys.Everyone fun u => w.Awaits u → w.pid u ≠ pid
    | _ => True
  | _ => True

instance (w : MsgWorld) (t : Word) (action : WorldAction) : Decidable (w.Careful t action) := by
  unfold Careful
  split
  · split <;> infer_instance
  · split <;> infer_instance
  · infer_instance

/-- A task that has been woken from its wait for a reply has got it. -/
def Replied (w : MsgWorld) : Prop :=
  ∀ t send, w.tasks.pc t = .blocked (.reply send) → w.state (w.pid t) = .running →
    w.history.mine t ∈ w.answered

theorem taskUnblock_running (state : Int → TaskState) (pid pid' : Int)
    (running : taskUnblock state pid pid' = .running) :
    state pid' = .running ∨ (pid' = pid ∧ state pid' = .blocked) := by
  unfold taskUnblock at running
  split_ifs at running with blocked
  · by_cases same : pid' = pid
    · exact .inr ⟨same, same ▸ blocked⟩
    · rw [Function.update_of_ne same] at running
      exact .inl running
  · exact .inl running

section Step

variable {sys : Sys} {w : MsgWorld} (ok : w.Ok sys) (replied : w.Replied)

include ok replied

omit replied in
theorem Ok.everyone {P : Word → Prop} (all : w.tasks.msg.sys.Everyone P) (u : Word)
    (busy : w.tasks.pc u ≠ .idle) : P u := by
  obtain ⟨i, there⟩ := ok.history.actors u busy
  exact all u ⟨i, by rw [show w.tasks.msg.sys.tasks = sys.tasks from ok.history.tasks]; exact there⟩

theorem Replied.msg {stale : Stale} (t : Word) (action : MsgAction) (move : MsgMove)
    (done : w.tasks.step stale t action = some (.ok move)) (after : (w.moved t action move).Ok sys)
    (careful : w.Careful t (.msg action)) : (w.moved t action move).Replied := by
  intro u send at_ running
  have pid : (w.moved t action move).pid u = w.pid u := by rw [after.pid, ok.pid]
  rw [pid] at running
  by_cases same : u = t
  · subst same
    rw [moved_pc_self] at at_
    cases action with
    | call call =>
      unfold MsgTasks.step at done
      split_ifs at done
      exact absurd at_ (call_blocked _ (Option.some.inj done))
    | go =>
      obtain ⟨_, effect⟩ := go_blocked (go_step done) at_
      rw [moved_state_block w u .go move effect] at running
      simp at running
  rw [moved_pc_of_ne w t u action move same] at at_
  have busy : w.tasks.pc u ≠ .idle := by
    rw [at_]
    simp
  have awaits (blocked : w.state (w.pid u) = .blocked) : w.Awaits u := ⟨by rw [at_]; rfl, blocked⟩
  rw [moved_mine_of_ne w t u action move same]
  have still (before : w.state (w.pid u) = .running) :
      w.history.mine u ∈ (w.moved t action move).answered :=
    moved_answered w t action move _ (replied u send at_ before)
  cases action with
  | call call =>
    unfold MsgTasks.step at done
    split_ifs at done
    rw [moved_state_none w t _ move (call_effect (Option.some.inj done))] at running
    exact still running
  | go =>
    rcases go_effect (go_step done) with none | ⟨wait, _, block⟩ | ⟨send', pc, unblock⟩ |
      ⟨id, replyId, receiver, pc, unblock⟩
    · rw [moved_state_none w t _ move none] at running
      exact still running
    · rw [moved_state_block w t _ move block] at running
      simp only [Function.update_apply] at running
      split_ifs at running
      exact still running
    · rw [moved_state_unblock w t _ move _ unblock] at running
      rcases taskUnblock_running _ _ _ running with before | ⟨target, blocked⟩
      · exact still before
      · simp only [Careful, pc] at careful
        exact absurd target (ok.everyone careful u busy (awaits blocked))
    · rw [moved_state_unblock w t _ move _ unblock] at running
      rcases taskUnblock_running _ _ _ running with before | ⟨target, blocked⟩
      · exact still before
      · simp only [Careful, pc] at careful
        have answers := ok.everyone careful u busy (awaits blocked) target
        rw [moved_answered_answer w t move id replyId receiver pc]
        exact List.mem_append_right _ answers

theorem Replied.mqueue (t : Word) (state : Int → TaskState) (queues : Mqueues) (stage : MqStage)
    (stateStep : StateStep w t state) (careful : state = w.state ∨ w.Careful t .go) :
    ({ w with state := state, queues := queues, mq := Function.update w.mq t stage } : MsgWorld).Replied := by
  intro u send at_ running
  change state (w.pid u) = .running at running
  show w.history.mine u ∈ w.answered
  rcases careful with rfl | careful
  · exact replied u send at_ running
  cases stateStep with
  | same => exact replied u send at_ running
  | wake pid rest woken =>
    rcases taskUnblock_running _ _ _ running with before | ⟨target, blocked⟩
    · exact replied u send at_ before
    · simp only [Careful, woken] at careful
      have busy : w.tasks.pc u ≠ .idle := by
        rw [show w.tasks.pc u = _ from at_]
        simp
      exact absurd target (ok.everyone careful u busy ⟨by rw [show w.tasks.pc u = _ from at_]; rfl, blocked⟩)
  | block wait _ =>
    rw [Function.update_apply] at running
    split_ifs at running
    exact replied u send at_ running

end Step

end MsgWorld

/-- In every run of tasks with pids of their own in which a task that waits for a reply is woken by
nothing but the reply to its message, a blocking msgbuf_send returns only after that reply: its message
has been received, and the receiver's owner has called msgbuf_reply for it since. -/
theorem send_replied (stale : Stale) (clean : stale.Clean) (sys : Sys) (distinct : sys.PidsDistinct)
    (state : Int → TaskState) (w : MsgWorld)
    (run : Run (MsgWorld.Step stale) (fun w a => sys.Live a.1 ∧ w.Careful a.1 a.2) (.fresh sys state) w)
    (t : Word) (send : MsgSend) (w' : MsgWorld) (waiting : w.tasks.pc t = .blocked (.reply send))
    (careful : w.Careful t (.msg .go)) (_ : w.step stale t (.msg .go) = some w') :
    (∃ item, w.history.log.sent[w.history.mine t]? = some item ∧ item.receiver = send.receiver ∧
      item.sender = send.sendId.toNat) ∧ w.history.mine t ∈ w.answered := by
  have invariant : w.Ok sys ∧ w.Replied := by
    refine run.invariant (fun w => w.Ok sys ∧ w.Replied)
      ⟨MsgWorld.ok_fresh sys state, fun t send at_ => by cases at_⟩ ?_
    rintro w ⟨t, action⟩ w' ⟨ok, replied⟩ ⟨live, careful⟩ taken
    have ok' := ok.step clean distinct t live action taken
    refine ⟨ok', ?_⟩
    rcases MsgWorld.step_cases taken with
      ⟨action', move, rfl, _, _, done, rfl⟩ | ⟨_, _, state, queues, stage, stateStep, still, rfl⟩
    · exact replied.msg ok t action' move done ok' careful
    · rcases still with same | rfl
      · exact replied.mqueue ok t state queues stage stateStep (.inl same)
      · exact replied.mqueue ok t state queues stage stateStep (.inr careful)
  have place := invariant.1.history.places t
  rw [show w.history.tasks.pc t = _ from waiting] at place
  refine ⟨place.2, invariant.2 t send waiting ?_⟩
  simpa only [MsgWorld.Careful, waiting] using careful

-- Two message buffers that are connected to each other, the first task's with id 1 and the second's with 0.
def connectBoth : List (Word × WorldAction) :=
  [bySecond (.call (.create (letter 0) 0 false)), byFirst (.call (.create (letter 1) 0 false)),
    byFirst (.call (.connect 1 (letter 0))), bySecond (.call (.connect 0 (letter 1)))]

-- The first task sends and waits for the reply, and the second one sends to it instead.
def crossedSends : List (Word × WorldAction) :=
  connectBoth ++ [byFirst (.call (.send 1 0 0)), byFirst .go, byFirst .go, byFirst .go,
    bySecond (.call (.send 0 1 msbNoblock)), bySecond .go, bySecond .go]

-- The message from the second task wakes the first one, whose msgbuf_send returns ERR_OK.
theorem crossedSend_returns :
    ¬ ∀ (stale : Stale) (_ : stale.Clean) (sys : Sys) (_ : sys.PidsDistinct) (state : Int → TaskState)
      (w : MsgWorld), Run (MsgWorld.Step stale) (fun _ a => sys.Live a.1) (.fresh sys state) w →
      ∀ t send w', w.tasks.pc t = .blocked (.reply send) → w.step stale t (.msg .go) = some w' →
        w.history.mine t ∈ w.answered := by
  intro claim
  have played : ((MsgWorld.fresh (twoTasks [20, 21, 22]) fun _ => .running).play zeroPages
      (fun _ a => (twoTasks [20, 21, 22]).Live a.1) crossedSends).map (fun w => (w.answered,
        (w.tasks.pc (poolVa 10)).awaitsReply, (w.step zeroPages (poolVa 10) (.msg .go)).isSome)) =
      some ([], true, true) := by decide +kernel
  obtain ⟨w, reached, same⟩ := Option.map_eq_some_iff.mp played
  simp only [Prod.mk.injEq] at same
  obtain ⟨none, waits, returns⟩ := same
  have run := MsgWorld.play_run zeroPages _ _ w crossedSends reached
  obtain ⟨send, at_⟩ := (MsgPc.awaitsReply_iff _).mp waits
  obtain ⟨w', returned⟩ := Option.isSome_iff_exists.mp returns
  have answered := claim zeroPages zeroPages_clean _ (twoTasks_distinct [20, 21, 22]) _ w run _ send w' at_ returned
  rw [none] at answered
  cases answered

-- The second task receives the message and replies.
def repliedSend : List (Word × WorldAction) :=
  connectBoth ++ [byFirst (.call (.send 1 0 0)), byFirst .go, byFirst .go, byFirst .go,
    bySecond (.call (.recv 0)), bySecond .go, bySecond .go, bySecond (.call (.reply 0 1)), bySecond .go]

theorem send_replied_once : ∃ (w w' : MsgWorld) (send : MsgSend),
    w.step zeroPages (poolVa 10) (.msg .go) = some w' ∧
      (∃ item, w.history.log.sent[w.history.mine (poolVa 10)]? = some item ∧ item.receiver = send.receiver ∧
        item.sender = send.sendId.toNat) ∧ w.history.mine (poolVa 10) ∈ w.answered := by
  let allowed := fun (w : MsgWorld) (a : Word × WorldAction) => (twoTasks [20, 21, 22]).Live a.1 ∧ w.Careful a.1 a.2
  have played : ((MsgWorld.fresh (twoTasks [20, 21, 22]) fun _ => .running).play zeroPages allowed
      repliedSend).map (fun w => ((w.tasks.pc (poolVa 10)).awaitsReply,
        decide (w.Careful (poolVa 10) (.msg .go)), (w.step zeroPages (poolVa 10) (.msg .go)).isSome)) =
      some (true, true, true) := by decide +kernel
  obtain ⟨w, reached, same⟩ := Option.map_eq_some_iff.mp played
  simp only [Prod.mk.injEq, decide_eq_true_eq] at same
  obtain ⟨waits, careful, returns⟩ := same
  have run := MsgWorld.play_run zeroPages allowed _ w repliedSend reached
  obtain ⟨send, at_⟩ := (MsgPc.awaitsReply_iff _).mp waits
  obtain ⟨w', returned⟩ := Option.isSome_iff_exists.mp returns
  exact ⟨w, w', send, returned, send_replied zeroPages zeroPages_clean _ (twoTasks_distinct [20, 21, 22]) _ w run
    (poolVa 10) send w' at_ careful returned⟩

end Anthill
