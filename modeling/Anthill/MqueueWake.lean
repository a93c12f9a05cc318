import Anthill.MqueueDelivery
import Anthill.Task

set_option autoImplicit false

namespace Anthill

/-- The loop of mqueue_send or mqueue_receive, with the place of the task in the queue. -/
inductive MqLoop where
  | send (p : Fin mqMaxSubscribers) (msgPtr : Nat → Byte) (msgLen : Word)
  | receive (p : Fin mqMaxSubscribers) (msgLen : Word)

def MqLoop.place : MqLoop → Fin mqMaxSubscribers
  | .send p _ _ => p
  | .receive p _ => p

def MqLoop.flag : MqLoop → Flags
  | .send _ _ _ => blckSend
  | .receive _ _ => blckRecv

/-- Where a task is between two atomic steps. -/
inductive MqPc where
  | idle
  | body (loop : MqLoop)
  | flag (loop : MqLoop)
  | block (loop : MqLoop)
  | blocked (loop : MqLoop)
  -- In _unblock_subscribers, with the pids that are still to be unblocked.
  | wake (pids : List Int)

/-- One queue and the tasks that send to it and receive from it. -/
structure MqWorld where
  queue : Mqueue
  pc : Int → MqPc
  state : Int → TaskState

inductive MqAction where
  | callSend (msgPtr : Nat → Byte) (msgLen : Word)
  | callReceive (msgLen : Word)
  | body
  | setFlag
  | block
  | unblock
  | resume

def MqWorld.setPc (w : MqWorld) (pid : Int) (pc : MqPc) : MqWorld :=
  { w with pc := Function.update w.pc pid pc }

def taskUnblock (state : Int → TaskState) (pid : Int) : Int → TaskState :=
  if state pid = .blocked then Function.update state pid .running else state

-- The body of _enqueue or _dequeue, and what the loop does with its result.
def MqWorld.body (w : MqWorld) (pid : Int) : MqLoop → Option MqWorld
  | .send p msgPtr msgLen =>
    match enqueue w.queue msgPtr msgLen with
    | .error _ => none
    | .ok ⟨true, woken, mqueue⟩ => some ({ w with queue := mqueue }.setPc pid (.wake woken))
    | .ok ⟨false, _, mqueue⟩ =>
      if (mqueue.subs p).flags &&& oNonblock ≠ 0 then some ({ w with queue := mqueue }.setPc pid .idle)
      else some ({ w with queue := mqueue }.setPc pid (.flag (.send p msgPtr msgLen)))
  | .receive p msgLen =>
    match dequeue w.queue msgLen with
    | .error _ => none
    | .ok ⟨result, _, mqueue⟩ =>
      if result > 0 ∨ (mqueue.subs p).flags &&& oNonblock ≠ 0 then
        some ({ w with queue := mqueue }.setPc pid .idle)
      else some ({ w with queue := mqueue }.setPc pid (.flag (.receive p msgLen)))

/-- One atomic step of task `pid`, which only a running task takes. -/
def MqWorld.step (w : MqWorld) (pid : Int) (action : MqAction) : Option MqWorld :=
  if w.state pid ≠ .running then none
  else
    match action, w.pc pid with
    | .callSend msgPtr msgLen, .idle =>
      (findSubscriber w.queue pid).bind fun p =>
        if msgLen.toInt > w.queue.attr.mqMsgsize ∨ (w.queue.subs p).flags &&& oRdonly ≠ 0 then none
        else some (w.setPc pid (.body (.send p msgPtr msgLen)))
    | .callReceive msgLen, .idle =>
      (findSubscriber w.queue pid).bind fun p =>
        if (w.queue.subs p).flags &&& oWronly ≠ 0 then none
        else some (w.setPc pid (.body (.receive p msgLen)))
    | .body, .body loop => w.body pid loop
    | .setFlag, .flag loop =>
      some ({ w with queue := w.queue.addFlag loop.place loop.flag }.setPc pid (.block loop))
    | .block, .block loop =>
      some ({ w with state := Function.update w.state pid .blocked }.setPc pid (.blocked loop))
    | .unblock, .wake [] => some (w.setPc pid .idle)
    | .unblock, .wake (woken :: rest) =>
      some ({ w with state := taskUnblock w.state woken }.setPc pid (.wake rest))
    -- task_unblock has made the task running again, and task_block returns.
    | .resume, .blocked loop => some (w.setPc pid (.body loop))
    | _, _ => none

/-- A task that the scheduler does not pick, inside the loop of mqueue_receive or mqueue_send. -/
def MqWorld.BlockedReceiving (w : MqWorld) (pid : Int) : Prop :=
  w.state pid = .blocked ∧ ∃ p msgLen, w.pc pid = .blocked (.receive p msgLen)

def MqWorld.BlockedSending (w : MqWorld) (pid : Int) : Prop :=
  w.state pid = .blocked ∧ ∃ p msgPtr msgLen, w.pc pid = .blocked (.send p msgPtr msgLen)

/-- Some task is between its queue update and its task_unblock of `pid`. -/
def MqWorld.ToWake (w : MqWorld) (pid : Int) : Prop := ∃ other woken, w.pc other = .wake woken ∧ pid ∈ woken

/-- No lost wake-up. -/
def MqWorld.Awake (w : MqWorld) : Prop :=
  ∀ pid, (w.BlockedReceiving pid → w.queue.attr.mqCurmsg = 0 ∨ w.ToWake pid) ∧
    (w.BlockedSending pid → w.queue.attr.mqCurmsg = w.queue.attr.mqMaxmsg ∨ w.ToWake pid)

/-- A task that waits for space: its _enqueue failed, and it has not been unblocked since. -/
def MqWorld.AwaitsSpace (w : MqWorld) (pid : Int) : Prop :=
  ∃ p msgPtr msgLen, w.pc pid = .flag (.send p msgPtr msgLen) ∨ w.pc pid = .block (.send p msgPtr msgLen) ∨
    (w.pc pid = .blocked (.send p msgPtr msgLen) ∧ w.state pid = .blocked)

/-- The steps that lose no wake-up. A message is accepted while no receiver is between its failed
_dequeue and the setting of its flag, and taken while no task waits for space; a receive that comes to
messages takes one and gets it, or the last one; and no task is unblocked between the setting of its
flag and its task_block. -/
def MqWorld.Careful (w : MqWorld) (pid : Int) : MqAction → Prop
  | .body =>
    (∀ p msgPtr msgLen, w.pc pid = .body (.send p msgPtr msgLen) →
      w.queue.attr.mqCurmsg ≠ w.queue.attr.mqMaxmsg → ∀ other p msgLen, w.pc other ≠ .flag (.receive p msgLen)) ∧
    ∀ p msgLen, w.pc pid = .body (.receive p msgLen) → w.queue.attr.mqCurmsg ≠ 0 →
      (∀ other, ¬ w.AwaitsSpace other) ∧ ¬ w.queue.oldest.size > msgLen ∧
        (w.queue.oldest.size = 0 → w.queue.attr.mqCurmsg = 1)
  | .unblock =>
    ∀ woken rest, w.pc pid = .wake (woken :: rest) → ∀ p msgLen, w.pc woken ≠ .block (.receive p msgLen)
  | _ => True

/-- What is known of a task at each place of its program: a receiver between its failed _dequeue and
task_block, or blocked, has seen an empty queue and left its flag, or is about to be unblocked; and a
sender that waits for space has seen a full queue. -/
def TaskOk (m : Mqueue) (toWake : Prop) (pid : Int) (state : TaskState) : MqPc → Prop
  | .idle => True
  | .body loop => (m.subs loop.place).pid = pid
  | .flag (.receive p _) => (m.subs p).pid = pid ∧ m.attr.mqCurmsg = 0
  | .flag (.send p _ _) => (m.subs p).pid = pid ∧ m.attr.mqCurmsg = m.attr.mqMaxmsg
  | .block (.receive p _) => (m.subs p).pid = pid ∧
      ((m.attr.mqCurmsg = 0 ∧ (m.subs p).flags &&& blckRecv ≠ 0) ∨ toWake)
  | .block (.send p _ _) => (m.subs p).pid = pid ∧ m.attr.mqCurmsg = m.attr.mqMaxmsg
  | .blocked (.receive p _) => (m.subs p).pid = pid ∧
      (state = .blocked → (m.attr.mqCurmsg = 0 ∧ (m.subs p).flags &&& blckRecv ≠ 0) ∨ toWake)
  | .blocked (.send p _ _) => (m.subs p).pid = pid ∧
      (state = .blocked → m.attr.mqCurmsg = m.attr.mqMaxmsg)
  | .wake _ => True

structure MqWorld.Inv (w : MqWorld) : Prop where
  cursors : Cursors w.queue
  tasks : ∀ pid, TaskOk w.queue (w.ToWake pid) pid (w.state pid) (w.pc pid)

theorem MqWorld.Inv.awake {w : MqWorld} (inv : w.Inv) : w.Awake := by
  intro pid
  have ok := inv.tasks pid
  constructor
  · rintro ⟨blocked, p, msgLen, at_⟩
    rw [at_] at ok
    exact (ok.2 blocked).imp_left And.left
  · rintro ⟨blocked, p, msgPtr, msgLen, at_⟩
    rw [at_] at ok
    exact .inl (ok.2 blocked)

section TaskOk

variable {m m' : Mqueue} {toWake toWake' : Prop} {pid : Int} {state : TaskState} {pc : MqPc}

-- The queue has changed in nothing that a waiting task relies on.
theorem TaskOk.kept (ok : TaskOk m toWake pid state pc) (pids : ∀ p, (m'.subs p).pid = (m.subs p).pid)
    (count : m'.attr.mqCurmsg = m.attr.mqCurmsg) (size : m'.attr.mqMaxmsg = m.attr.mqMaxmsg)
    (flags : ∀ p, (m.subs p).flags &&& blckRecv ≠ 0 → (m'.subs p).flags &&& blckRecv ≠ 0)
    (wakes : toWake → toWake') : TaskOk m' toWake' pid state pc := by
  have waits (p : Fin mqMaxSubscribers) :
      (m.attr.mqCurmsg = 0 ∧ (m.subs p).flags &&& blckRecv ≠ 0) ∨ toWake →
        (m'.attr.mqCurmsg = 0 ∧ (m'.subs p).flags &&& blckRecv ≠ 0) ∨ toWake' :=
    Or.imp (fun both => ⟨count.trans both.1, flags p both.2⟩) wakes
  rcases pc with _ | loop | loop | loop | loop | woken
  case idle | wake => trivial
  case body => exact (pids _).trans ok
  all_goals
    cases loop
    all_goals simp only [TaskOk, pids, count, size] at ok ⊢
  · exact ok
  · exact ok
  · exact ok
  · exact ⟨ok.1, count ▸ waits _ ok.2⟩
  · exact ok
  · exact ⟨ok.1, fun blocked => count ▸ waits _ (ok.2 blocked)⟩

-- A message has come, and every task that waits for one is about to be unblocked.
theorem TaskOk.accepted (ok : TaskOk m toWake pid state pc) (pids : ∀ p, (m'.subs p).pid = (m.subs p).pid)
    (room : m.attr.mqCurmsg ≠ m.attr.mqMaxmsg) (settled : ∀ p msgLen, pc ≠ .flag (.receive p msgLen))
    (woken : ∀ p, m.attr.mqCurmsg = 0 → (m.subs p).flags &&& blckRecv ≠ 0 → (m.subs p).pid = pid → toWake')
    (wakes : toWake → toWake') : TaskOk m' toWake' pid state pc := by
  have waits (p : Fin mqMaxSubscribers) (here : (m.subs p).pid = pid) :
      (m.attr.mqCurmsg = 0 ∧ (m.subs p).flags &&& blckRecv ≠ 0) ∨ toWake → toWake' := by
    rintro (⟨zero, set⟩ | wake)
    · exact woken p zero set here
    · exact wakes wake
  rcases pc with _ | loop | loop | loop | loop | list
  case idle | wake => trivial
  case body => exact (pids _).trans ok
  all_goals
    cases loop
    all_goals simp only [TaskOk, pids] at ok ⊢
  · exact absurd ok.2 room
  · exact absurd rfl (settled _ _)
  · exact absurd ok.2 room
  · exact ⟨ok.1, .inr (waits _ ok.1 ok.2)⟩
  · exact ⟨ok.1, fun blocked => absurd (ok.2 blocked) room⟩
  · exact ⟨ok.1, fun blocked => .inr (waits _ ok.1 (ok.2 blocked))⟩

-- A message has been taken, and no task waits for space.
theorem TaskOk.taken (ok : TaskOk m toWake pid state pc) (pids : ∀ p, (m'.subs p).pid = (m.subs p).pid)
    (some : m.attr.mqCurmsg ≠ 0) (wakes : toWake → toWake')
    (noSender : ∀ p msgPtr msgLen, pc ≠ .flag (.send p msgPtr msgLen) ∧ pc ≠ .block (.send p msgPtr msgLen) ∧
      ¬ (pc = .blocked (.send p msgPtr msgLen) ∧ state = .blocked)) : TaskOk m' toWake' pid state pc := by
  have waits (p : Fin mqMaxSubscribers) :
      (m.attr.mqCurmsg = 0 ∧ (m.subs p).flags &&& blckRecv ≠ 0) ∨ toWake → toWake' := by
    rintro (⟨zero, _⟩ | wake)
    · exact absurd zero some
    · exact wakes wake
  rcases pc with _ | loop | loop | loop | loop | list
  case idle | wake => trivial
  case body => exact (pids _).trans ok
  all_goals
    cases loop
    all_goals simp only [TaskOk, pids] at ok ⊢
  · exact absurd rfl (noSender _ _ _).1
  · exact absurd ok.2 some
  · exact absurd rfl (noSender _ _ _).2.1
  · exact ⟨ok.1, .inr (waits _ ok.2)⟩
  · exact ⟨ok.1, fun blocked => absurd ⟨rfl, blocked⟩ (noSender _ _ _).2.2⟩
  · exact ⟨ok.1, fun blocked => .inr (waits _ (ok.2 blocked))⟩

end TaskOk

section Step

variable {w w' : MqWorld} {pid : Int}

-- A task that unblocks no one moves without taking a wake-up from another.
theorem MqWorld.ToWake.moved {r : Int} (toWake : w.ToWake r) (pc : MqPc)
    (moved : w'.pc = Function.update w.pc pid pc) (quiet : ∀ woken, w.pc pid ≠ .wake woken) :
    w'.ToWake r := by
  obtain ⟨other, woken, at_, member⟩ := toWake
  refine ⟨other, woken, ?_, member⟩
  have away : other ≠ pid := by
    rintro rfl
    exact quiet woken at_
  rw [moved, Function.update_of_ne away]
  exact at_

-- A step of `pid` that changes nothing but where it is keeps what is known of the others.
theorem MqWorld.Inv.move (inv : w.Inv) (pc : MqPc) (quiet : ∀ woken, w.pc pid ≠ .wake woken)
    (own : TaskOk w.queue ((w.setPc pid pc).ToWake pid) pid (w.state pid) pc) : (w.setPc pid pc).Inv := by
  refine ⟨inv.cursors, fun r => ?_⟩
  by_cases here : r = pid
  · subst here
    simpa [MqWorld.setPc] using own
  · have ok : TaskOk w.queue ((w.setPc pid pc).ToWake r) _ _ _ :=
      (inv.tasks r).kept (fun _ => rfl) rfl rfl (fun _ => id) fun wake => wake.moved pc rfl quiet
    simpa [MqWorld.setPc, here] using ok

theorem addFlag_flags (m : Mqueue) (p i : Fin mqMaxSubscribers) (flag : Flags)
    (set : (m.subs i).flags &&& blckRecv ≠ 0) : ((m.addFlag p flag).subs i).flags &&& blckRecv ≠ 0 := by
  by_cases here : i = p
  · subst here
    intro clear
    apply set
    simp only [Mqueue.addFlag, Mqueue.setSub, Function.update_self] at clear
    have split : ((m.subs i).flags ||| flag) &&& blckRecv =
        ((m.subs i).flags &&& blckRecv) ||| (flag &&& blckRecv) := BitVec.and_or_distrib_right ..
    rw [split] at clear
    exact (BitVec.or_eq_zero_iff.mp clear).1
  · simpa [Mqueue.addFlag, Mqueue.setSub, here] using set

theorem MqWorld.Inv.setFlag (inv : w.Inv) (loop : MqLoop) (at_ : w.pc pid = .flag loop) :
    ({ w with queue := w.queue.addFlag loop.place loop.flag }.setPc pid (.block loop)).Inv := by
  have same := addFlag_same w.queue loop.place loop.flag
  have own := inv.tasks pid
  rw [at_] at own
  have quiet (woken : List Int) : w.pc pid ≠ .wake woken := by rw [at_]; simp
  refine ⟨(addFlag_ring _ _ _).cursors inv.cursors, fun r => ?_⟩
  by_cases here : r = pid
  · subst here
    simp only [MqWorld.setPc, Function.update_self]
    cases loop with
    | send p msgPtr msgLen => exact ⟨(same.pids p).trans own.1, own.2⟩
    | receive p msgLen =>
      refine ⟨(same.pids p).trans own.1, .inl ⟨own.2, ?_⟩⟩
      simp only [Mqueue.addFlag, Mqueue.setSub, MqLoop.place, MqLoop.flag, Function.update_self]
      intro clear
      have bit := congrArg (fun v : Flags => v.getLsbD 6) clear
      simp [blckRecv] at bit
  · have ok : TaskOk (w.queue.addFlag loop.place loop.flag)
        (({ w with queue := w.queue.addFlag loop.place loop.flag }.setPc pid (.block loop)).ToWake r) _ _ _ :=
      (inv.tasks r).kept same.pids rfl rfl (fun p => addFlag_flags w.queue loop.place p loop.flag)
        fun wake => wake.moved (.block loop) rfl quiet
    simpa [MqWorld.setPc, here] using ok

theorem MqWorld.Inv.block (inv : w.Inv) (loop : MqLoop) (at_ : w.pc pid = .block loop) :
    ({ w with state := Function.update w.state pid .blocked }.setPc pid (.blocked loop)).Inv := by
  have own := inv.tasks pid
  rw [at_] at own
  have quiet (woken : List Int) : w.pc pid ≠ .wake woken := by rw [at_]; simp
  refine ⟨inv.cursors, fun r => ?_⟩
  by_cases here : r = pid
  · subst here
    simp only [MqWorld.setPc, Function.update_self]
    cases loop with
    | send p msgPtr msgLen => exact ⟨own.1, fun _ => own.2⟩
    | receive p msgLen =>
      exact ⟨own.1, fun _ => own.2.imp_right fun wake => wake.moved (.blocked (.receive p msgLen)) rfl quiet⟩
  · have ok : TaskOk w.queue
        (({ w with state := Function.update w.state pid .blocked }.setPc pid (.blocked loop)).ToWake r) _ _ _ :=
      (inv.tasks r).kept (fun _ => rfl) rfl rfl (fun _ => id) fun wake => wake.moved (.blocked loop) rfl quiet
    simpa [MqWorld.setPc, here] using ok

-- The wake-up of one task; every other one on the list is still to come.
theorem MqWorld.Inv.unblock (inv : w.Inv) (woken : Int) (rest : List Int)
    (at_ : w.pc pid = .wake (woken :: rest)) (settled : ∀ p msgLen, w.pc woken ≠ .block (.receive p msgLen)) :
    ({ w with state := taskUnblock w.state woken }.setPc pid (.wake rest)).Inv := by
  refine ⟨inv.cursors, fun r => ?_⟩
  by_cases here : r = pid
  · subst here
    simp only [MqWorld.setPc, Function.update_self]
    trivial
  have wakes (other : r ≠ woken) (wake : w.ToWake r) :
      ({ w with state := taskUnblock w.state woken }.setPc pid (.wake rest)).ToWake r := by
    obtain ⟨source, list, from_, member⟩ := wake
    by_cases own : source = pid
    · subst own
      rw [at_] at from_
      obtain rfl := MqPc.wake.inj from_
      refine ⟨source, rest, by simp [MqWorld.setPc], ?_⟩
      exact (List.mem_cons.mp member).resolve_left other
    · exact ⟨source, list, by simpa [MqWorld.setPc, own] using from_, member⟩
  have ok := inv.tasks r
  simp only [MqWorld.setPc, Function.update_of_ne here]
  by_cases same : r = woken
  · -- The task runs again, so it is not blocked any more.
    subst same
    have running : taskUnblock w.state r r ≠ .blocked := by
      unfold taskUnblock
      split_ifs with blocked
      · simp
      · exact blocked
    cases at' : w.pc r with
    | idle | wake => trivial
    | body loop => rw [at'] at ok; exact ok
    | flag loop =>
      rw [at'] at ok
      cases loop <;> exact ok
    | block loop =>
      rw [at'] at ok
      cases loop with
      | send => exact ok
      | receive p msgLen => exact absurd at' (settled p msgLen)
    | blocked loop =>
      rw [at'] at ok
      cases loop <;> exact ⟨ok.1, fun blocked => absurd blocked running⟩
  · have state : taskUnblock w.state woken r = w.state r := by
      unfold taskUnblock
      split_ifs
      · exact Function.update_of_ne same _ _
      · rfl
    rw [state]
    exact ok.kept (fun _ => rfl) rfl rfl (fun _ => id) (wakes same)

end Step

section Body

variable {w w' : MqWorld} {pid : Int}

-- The queue's body fails: the cursor may have wrapped, and the task goes on to its flag or returns.
theorem MqWorld.Inv.failed (inv : w.Inv) (mqueue : Mqueue) (pc : MqPc) (cursors : Cursors mqueue)
    (pids : ∀ p, (mqueue.subs p).pid = (w.queue.subs p).pid)
    (count : mqueue.attr.mqCurmsg = w.queue.attr.mqCurmsg)
    (size : mqueue.attr.mqMaxmsg = w.queue.attr.mqMaxmsg)
    (flags : ∀ p, (w.queue.subs p).flags &&& blckRecv ≠ 0 → (mqueue.subs p).flags &&& blckRecv ≠ 0)
    (quiet : ∀ woken, w.pc pid ≠ .wake woken)
    (own : TaskOk mqueue (({ w with queue := mqueue }.setPc pid pc).ToWake pid) pid (w.state pid) pc) :
    ({ w with queue := mqueue }.setPc pid pc).Inv := by
  refine ⟨cursors, fun r => ?_⟩
  by_cases here : r = pid
  · subst here
    simpa [MqWorld.setPc] using own
  · have ok : TaskOk mqueue (({ w with queue := mqueue }.setPc pid pc).ToWake r) _ _ _ :=
      (inv.tasks r).kept pids count size flags fun wake => wake.moved pc rfl quiet
    simpa [MqWorld.setPc, here] using ok

theorem MqWorld.Inv.sendBody (inv : w.Inv) (p : Fin mqMaxSubscribers) (msgPtr : Nat → Byte)
    (msgLen : Word) (at_ : w.pc pid = .body (.send p msgPtr msgLen)) (careful : w.Careful pid .body)
    (taken : w.body pid (.send p msgPtr msgLen) = some w') : w'.Inv := by
  have own := inv.tasks pid
  rw [at_] at own
  have quiet (woken : List Int) : w.pc pid ≠ .wake woken := by rw [at_]; simp
  rcases enqueue_cases inv.cursors msgPtr msgLen with
    ⟨full, done⟩ | ⟨_, _, fault, done⟩ | ⟨room, _, woken, m', done, pushed⟩
  · have subs : w.queue.wrapTail.subs = w.queue.subs := by
      unfold Mqueue.wrapTail
      split_ifs <;> rfl
    have failed (pc : MqPc) (fine : TaskOk w.queue.wrapTail
        (({ w with queue := w.queue.wrapTail }.setPc pid pc).ToWake pid) pid (w.state pid) pc) :
        ({ w with queue := w.queue.wrapTail }.setPc pid pc).Inv :=
      inv.failed _ pc inv.cursors.wrapTail (by simp [subs]) (by simp) (by simp) (by simp [subs]) quiet fine
    simp only [MqWorld.body, done] at taken
    split_ifs at taken
    · obtain rfl := Option.some.inj taken
      exact failed .idle trivial
    · obtain rfl := Option.some.inj taken
      refine failed (.flag (.send p msgPtr msgLen)) ⟨?_, ?_⟩
      · rw [subs]
        exact own
      · simpa using full
  · simp only [MqWorld.body, done] at taken
    cases taken
  · simp only [MqWorld.body, done] at taken
    obtain rfl := Option.some.inj taken
    have settled := careful.1 p msgPtr msgLen at_ room
    refine ⟨pushed.cursors, fun r => ?_⟩
    by_cases here : r = pid
    · subst here
      simp only [MqWorld.setPc, Function.update_self]
      trivial
    · have ok : TaskOk m' (({ w with queue := m' }.setPc pid (.wake woken)).ToWake r) _ _ _ :=
        (inv.tasks r).accepted pushed.same.pids room (settled r) (fun i zero set who => ?_)
          fun wake => wake.moved (.wake woken) rfl quiet
      · simpa [MqWorld.setPc, here] using ok
      · refine ⟨pid, woken, by simp [MqWorld.setPc], ?_⟩
        rw [← who]
        exact enqueue_woken w.queue m' msgPtr msgLen woken done zero i set

theorem MqWorld.Inv.receiveBody (inv : w.Inv) (p : Fin mqMaxSubscribers) (msgLen : Word)
    (at_ : w.pc pid = .body (.receive p msgLen)) (careful : w.Careful pid .body)
    (taken : w.body pid (.receive p msgLen) = some w') : w'.Inv := by
  have own := inv.tasks pid
  rw [at_] at own
  have quiet (woken : List Int) : w.pc pid ≠ .wake woken := by rw [at_]; simp
  rcases dequeue_cases inv.cursors msgLen with
    ⟨empty, done⟩ | ⟨some, small, _⟩ | ⟨some, m', short, done, popped⟩
  · have failed (pc : MqPc) (fine : TaskOk w.queue (({ w with queue := w.queue }.setPc pid pc).ToWake pid)
        pid (w.state pid) pc) : ({ w with queue := w.queue }.setPc pid pc).Inv :=
      inv.failed _ pc inv.cursors (fun _ => rfl) rfl rfl (fun _ => id) quiet fine
    simp only [MqWorld.body, done] at taken
    split_ifs at taken
    · obtain rfl := Option.some.inj taken
      exact failed .idle trivial
    · obtain rfl := Option.some.inj taken
      exact failed (.flag (.receive p msgLen)) ⟨own, empty⟩
  · exact absurd small (careful.2 p msgLen at_ some).2.1
  · obtain ⟨noSender, _, last⟩ := careful.2 p msgLen at_ some
    -- The other tasks do not wait for space, and those that wait for a message are to be unblocked.
    have taken' (pc : MqPc) (fine : TaskOk m' (({ w with queue := m' }.setPc pid pc).ToWake pid) pid
        (w.state pid) pc) : ({ w with queue := m' }.setPc pid pc).Inv := by
      refine ⟨popped.cursors, fun r => ?_⟩
      by_cases here : r = pid
      · subst here
        simpa [MqWorld.setPc] using fine
      · have ok : TaskOk m' (({ w with queue := m' }.setPc pid pc).ToWake r) _ _ _ :=
          (inv.tasks r).taken popped.same.pids some (fun wake => wake.moved pc rfl quiet) fun i msgPtr len => ?_
        · simpa [MqWorld.setPc, here] using ok
        · have free := noSender r
          exact ⟨fun same => free ⟨i, msgPtr, len, .inl same⟩,
            fun same => free ⟨i, msgPtr, len, .inr (.inl same)⟩,
            fun same => free ⟨i, msgPtr, len, .inr (.inr same)⟩⟩
    simp only [MqWorld.body, done] at taken
    split_ifs at taken with returns
    · obtain rfl := Option.some.inj taken
      exact taken' .idle trivial
    · obtain rfl := Option.some.inj taken
      refine taken' (.flag (.receive p msgLen)) ⟨(popped.same.pids p).trans own, ?_⟩
      -- An empty message has gone, and it was the last one.
      have none : w.queue.oldest.size = 0 := by
        apply BitVec.eq_of_toNat_eq
        simp only [not_or, not_lt, gt_iff_lt] at returns
        have zero : (0 : Word).toNat = 0 := rfl
        have := returns.1
        omega
      rw [popped.count, last none]
      rfl

end Body

theorem MqWorld.Inv.step {w w' : MqWorld} {pid : Int} {action : MqAction} (inv : w.Inv) (real : pid ≠ 0)
    (careful : w.Careful pid action) (taken : w.step pid action = some w') : w'.Inv := by
  have place (p : Fin mqMaxSubscribers) (found : findSubscriber w.queue pid = some p) :
      (w.queue.subs p).pid = pid := by
    have hit := Slots.first_some _ p found
    simp only [decide_eq_true_eq] at hit
    rcases hit with ⟨_, here⟩ | ⟨zero, _⟩
    · exact here
    · exact absurd zero real
  unfold MqWorld.step at taken
  split_ifs at taken
  split at taken
  next msgPtr msgLen at_ =>
    obtain ⟨p, found, rest⟩ := Option.bind_eq_some_iff.mp taken
    split_ifs at rest
    obtain rfl := Option.some.inj rest
    exact inv.move _ (by rw [at_]; simp) (place p found)
  next msgLen at_ =>
    obtain ⟨p, found, rest⟩ := Option.bind_eq_some_iff.mp taken
    split_ifs at rest
    obtain rfl := Option.some.inj rest
    exact inv.move _ (by rw [at_]; simp) (place p found)
  next loop at_ =>
    cases loop with
    | send p msgPtr msgLen => exact inv.sendBody p msgPtr msgLen at_ careful taken
    | receive p msgLen => exact inv.receiveBody p msgLen at_ careful taken
  next loop at_ =>
    obtain rfl := Option.some.inj taken
    exact inv.setFlag loop at_
  next loop at_ =>
    obtain rfl := Option.some.inj taken
    exact inv.block loop at_
  next at_ =>
    obtain rfl := Option.some.inj taken
    refine ⟨inv.cursors, fun r => ?_⟩
    by_cases here : r = pid
    · subst here
      simp only [MqWorld.setPc, Function.update_self]
      trivial
    · have ok : TaskOk w.queue ((w.setPc pid .idle).ToWake r) _ _ _ :=
        (inv.tasks r).kept (fun _ => rfl) rfl rfl (fun _ => id) ?_
      · simpa [MqWorld.setPc, here] using ok
      · rintro ⟨other, list, from_, member⟩
        refine ⟨other, list, ?_, member⟩
        have away : other ≠ pid := by
          rintro rfl
          rw [at_] at from_
          rw [← MqPc.wake.inj from_] at member
          cases member
        simpa [MqWorld.setPc, away] using from_
  next woken rest at_ =>
    obtain rfl := Option.some.inj taken
    exact inv.unblock woken rest at_ (careful woken rest at_)
  next loop at_ =>
    obtain rfl := Option.some.inj taken
    have own := inv.tasks pid
    rw [at_] at own
    refine inv.move (.body loop) (by rw [at_]; simp) ?_
    cases loop <;> exact own.1
  next => cases taken

/-- No wake-up is lost in a run of careful steps. -/
theorem mqueue_awake (w₀ w : MqWorld) (cursors : Cursors w₀.queue) (idle : ∀ pid, w₀.pc pid = .idle)
    (run : Run (fun w (a : Int × MqAction) w' => w.step a.1 a.2 = some w')
      (fun w a => a.1 ≠ 0 ∧ w.Careful a.1 a.2) w₀ w) : w.Awake := by
  have inv : w.Inv := by
    refine run.invariant MqWorld.Inv ⟨cursors, fun pid => ?_⟩ fun w a w' inv fine taken =>
      inv.step fine.1 fine.2 taken
    rw [idle pid]
    trivial
  exact inv.awake

-- The steps of a run one after the other.
def MqWorld.play (w : MqWorld) : List (Int × MqAction) → Option MqWorld
  | [] => some w
  | a :: rest => (w.step a.1 a.2).bind fun w => w.play rest

theorem MqWorld.play_run (allowed : MqWorld → Int × MqAction → Prop) (w₀ w w' : MqWorld)
    (steps : List (Int × MqAction))
    (before : Run (fun w (a : Int × MqAction) w' => w.step a.1 a.2 = some w') allowed w₀ w)
    (fine : ∀ w a, a ∈ steps → allowed w a) (played : w.play steps = some w') :
    Run (fun w (a : Int × MqAction) w' => w.step a.1 a.2 = some w') allowed w₀ w' := by
  induction steps generalizing w with
  | nil =>
    obtain rfl := Option.some.inj played
    exact before
  | cons a steps ih =>
    obtain ⟨next, taken, rest⟩ := Option.bind_eq_some_iff.mp played
    exact ih next (.next w next a before (fine w a List.mem_cons_self) taken)
      (fun w a member => fine w a (List.mem_cons_of_mem _ member)) rest

-- A task moves only by its own steps.
theorem MqWorld.step_others (w w' : MqWorld) (pid r : Int) (action : MqAction) (away : r ≠ pid)
    (taken : w.step pid action = some w') : w'.pc r = w.pc r := by
  have setPc (w : MqWorld) (pc : MqPc) : (w.setPc pid pc).pc r = w.pc r := Function.update_of_ne away _ _
  unfold MqWorld.step at taken
  split_ifs at taken
  split at taken
  next =>
    obtain ⟨p, _, rest⟩ := Option.bind_eq_some_iff.mp taken
    split_ifs at rest
    obtain rfl := Option.some.inj rest
    exact setPc _ _
  next =>
    obtain ⟨p, _, rest⟩ := Option.bind_eq_some_iff.mp taken
    split_ifs at rest
    obtain rfl := Option.some.inj rest
    exact setPc _ _
  next loop _ =>
    cases loop <;>
    · simp only [MqWorld.body] at taken
      split at taken <;> try split_ifs at taken
      all_goals cases taken <;> exact setPc _ _
  all_goals first
    | (obtain rfl := Option.some.inj taken; exact setPc _ _)
    | cases taken

theorem MqWorld.play_others (w w' : MqWorld) (r : Int) (steps : List (Int × MqAction))
    (away : ∀ a, a ∈ steps → r ≠ a.1) (played : w.play steps = some w') : w'.pc r = w.pc r := by
  induction steps generalizing w with
  | nil => rw [Option.some.inj played]
  | cons a steps ih =>
    obtain ⟨next, taken, rest⟩ := Option.bind_eq_some_iff.mp played
    rw [ih next (fun a member => away a (List.mem_cons_of_mem _ member)) rest]
    exact w.step_others next a.1 r a.2 (away a List.mem_cons_self) taken

-- A queue for one message with the subscribers 1 and 2.
def pairWorld : MqWorld where
  queue := { Mqueue.unused with
    id := 1, isOpen := true, head := -1, tail := -1, attr := ⟨0, 1, 1, 0⟩
    subs := fun p => if p = 0 then ⟨1, oRdwr⟩ else if p = 1 then ⟨2, oRdwr⟩ else ⟨0, 0⟩ }
  pc _ := .idle
  state _ := .running

theorem pairWorld_cursors : Cursors pairWorld.queue where
  capLe := by decide
  sizeLe := by decide
  head := by decide
  tail := by decide
  count := by decide
  sizes _ _ := Nat.zero_le _
  ring _ := by decide
  flat negative := absurd negative (by decide)
  bare zero := absurd zero (by decide)

theorem mqueue_awake_receiving :
    (pairWorld.setPc 2 (.body (.receive 1 1))).Awake :=
  mqueue_awake pairWorld _ pairWorld_cursors (fun _ => rfl)
    (.next pairWorld _ (2, .callReceive 1) .start ⟨by decide, trivial⟩ rfl)

-- Task 1 fills the queue, task 2 blocks for space, and task 1 takes the message.
def spaceLost : List (Int × MqAction) :=
  [(1, .callSend (fun _ => 0) 1), (1, .body), (1, .unblock), (2, .callSend (fun _ => 0) 1), (2, .body),
    (2, .setFlag), (2, .block), (1, .callReceive 1), (1, .body)]

-- A sender that waits for space is not unblocked when a message is taken.
theorem sender_lost :
    ¬ ∀ w₀ w : MqWorld, Cursors w₀.queue → (∀ pid, w₀.pc pid = .idle) →
      Run (fun w (a : Int × MqAction) w' => w.step a.1 a.2 = some w') (fun _ a => a.1 ≠ 0) w₀ w →
        w.Awake := by
  intro claim
  have pids : ∀ a, a ∈ spaceLost → a.1 = 1 ∨ a.1 = 2 := by decide
  have played : (pairWorld.play spaceLost).map (fun w => (w.state 2, w.queue.attr.mqCurmsg,
      w.queue.attr.mqMaxmsg, (match w.pc 1 with | .idle => true | _ => false),
      (match w.pc 2 with | .blocked (.send _ _ _) => true | _ => false))) =
      some (.blocked, 0, 1, true, true) := by decide +kernel
  obtain ⟨w, reached, same⟩ := Option.map_eq_some_iff.mp played
  simp only [Prod.mk.injEq] at same
  obtain ⟨blocked, count, size, first, second⟩ := same
  have idle : w.pc 1 = .idle := by
    cases at_ : w.pc 1 <;> rw [at_] at first <;> first | rfl | cases first
  have sending : ∃ p msgPtr msgLen, w.pc 2 = .blocked (.send p msgPtr msgLen) := by
    cases at_ : w.pc 2 with
    | blocked loop =>
      cases loop with
      | send p msgPtr msgLen => exact ⟨p, msgPtr, msgLen, rfl⟩
      | receive => rw [at_] at second; cases second
    | _ => rw [at_] at second; cases second
  have run := MqWorld.play_run (fun _ a => a.1 ≠ 0) pairWorld pairWorld w spaceLost .start
    (fun _ a member => by have := pids a member; omega) reached
  rcases (claim pairWorld w pairWorld_cursors (fun _ => rfl) run 2).2 ⟨blocked, sending⟩ with
    full | ⟨other, woken, from_, _⟩
  · rw [count, size] at full
    cases full
  · by_cases one : other = 1
    · rw [one, idle] at from_
      cases from_
    by_cases two : other = 2
    · obtain ⟨_, _, _, at_⟩ := sending
      rw [two, at_] at from_
      cases from_
    · rw [pairWorld.play_others w other spaceLost (fun a member => by have := pids a member; omega) reached]
        at from_
      cases from_

end Anthill
