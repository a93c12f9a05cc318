import Anthill.TaskBlock

set_option autoImplicit false

namespace Anthill

def Sys.enter (s : Sys) : Sys :=
  s.setTask s.current { s.currentTask with preemptCount := s.currentTask.preemptCount + 1 }

def Sys.leave (s : Sys) : Sys :=
  s.setTask s.current { s.currentTask with preemptCount := s.currentTask.preemptCount - 1 }

-- task_fork between its first line and the last of the parent: what it returns in error, or the child.
def forkBody (s : Sys) : Except (KernErr × Sys) (Word × Sys) :=
  match forkAlloc s.kernel with
  | .error (err, k) => .error (err, { s with kernel := k })
  | .ok (pages, k) =>
    let parent := s.currentTask
    let child : Task :=
      { pid := s.taskCount + 1
        kernelStack := pages.stack
        parent := s.current
        childrenNo := 0
        tranTable := virtToPhys pages.table
        state := parent.state
        preemptCount := parent.preemptCount
        priority := parent.priority
        counter := parent.priority }
    let s := { s with
      kernel := forkCopy k pages parent.kernelStack (physToVirt parent.tranTable)
      tasks := taskAdd s.tasks pages.task
      taskCount := s.taskCount + 1 }
    let s := s.setTask pages.task child
    .ok (pages.task, s.setTask s.current { parent with childrenNo := parent.childrenNo + 1 })

-- task_schedule up to its loop, and from there to the task that is switched to.
def Sys.startSchedule (s : Sys) : Sys :=
  s.setTask s.current { s.currentTask with counter := 0, preemptCount := s.currentTask.preemptCount + 1 }

def Sys.switch (s : Sys) : Except Halt Sys :=
  let found := (List.finRange taskTotal).foldl scheduleRound (s, -1, 0)
  let s := found.1
  match s.tasks found.2.2 with
  | none => .error .fault
  | some t => .ok { s.setTask t { s.task t with counter := (s.task t).priority } with current := t }

-- The loop of task_block.
def Sys.blockLoop (s : Sys) (pid : Int) (state : TaskState) : Except Halt Sys :=
  match s.taskFind pid (List.finRange taskTotal) with
  | .error halt => .error halt
  | .ok none => .ok s
  | .ok (some t) => .ok (s.setTask t { s.task t with state := state, preemptCount := (s.task t).preemptCount - 1 })

def exitSwitch (init : Word) (s : Sys) : Except Halt Sys := do
  let parent := s.currentTask.parent
  if parent = 0 then .error .fault
  let s := s.setTask parent { s.task parent with childrenNo := (s.task parent).childrenNo - 1 }
  let s ← s.taskUnblock (s.task parent).pid .waiting
  let k ← exitFree s
  .ok { s with kernel := k, tasks := taskRemove s.tasks s.current, current := init }

theorem taskFork_pieces (s : Sys) : (taskFork s).2 =
    match forkBody s.enter with
    | .error (_, s') => s'
    | .ok (_, s') => s'.leave := by
  unfold taskFork forkBody
  simp only [Sys.enter]
  cases forkAlloc (s.setTask s.current
      { s.currentTask with preemptCount := s.currentTask.preemptCount + 1 }).kernel with
  | error failed => rfl
  | ok made =>
    simp only [Sys.leave, Sys.setTask, Sys.currentTask, if_true, Sys.mk.injEq, true_and, and_true]
    funext p
    by_cases here : p = s.current <;> simp [here]

theorem taskSchedule_pieces (s : Sys) : taskSchedule s = s.startSchedule.switch.map Sys.leave := by
  unfold taskSchedule Sys.switch
  simp only [Sys.startSchedule]
  generalize (List.finRange taskTotal).foldl scheduleRound _ = found
  cases found.1.tasks found.2.2 <;> rfl

theorem taskBlock_pieces (s : Sys) (pid : Int) (state : TaskState) :
    s.taskBlock pid state = (s.blockLoop pid state).bind taskSchedule := by
  unfold Sys.taskBlock Sys.blockLoop
  generalize s.taskFind pid (List.finRange taskTotal) = found
  rcases found with halt | none | t <;> simp only [Except.bind]

theorem taskExitEnd_pieces (init : Word) (s : Sys) : taskExitEnd init s = (exitSwitch init s).map Sys.leave := by
  unfold taskExitEnd exitSwitch
  simp only [bind, Except.bind]
  split
  · rfl
  · split
    · rfl
    · split <;> rfl

-- Where a task stands in a call. At the last three only the line that counts down is left.
inductive Point where
  | message
  | fork
  | exec
  | exit
  | schedule
  | forked
  | started
  | switched
deriving DecidableEq, Repr

-- By how much a call has raised the count since it was entered.
def Point.raised : Point → Int
  | .message => 0
  | _ => 1

/-- A call that a task is in, with its preempt_count when it entered. -/
structure Frame where
  point : Point
  entered : Int
deriving DecidableEq, Repr

-- The calls each task is in, innermost first, and of each call that has returned the counts at entry and return.
structure Counting where
  sys : Sys
  frames : Word → List Frame
  returns : List (Int × Int)

def Counting.setFrames (w : Counting) (frames : List Frame) : Counting :=
  { w with frames := Function.update w.frames w.sys.current frames }

def Counting.top (w : Counting) : Option Point := (w.frames w.sys.current).head?.map Frame.point

def Counting.push (w : Counting) (point : Point) : Counting :=
  w.setFrames (⟨point, w.sys.currentTask.preemptCount⟩ :: w.frames w.sys.current)

def Counting.mark (w : Counting) (point : Point) : Counting :=
  match w.frames w.sys.current with
  | [] => w
  | frame :: rest => w.setFrames (⟨point, frame.entered⟩ :: rest)

def Counting.pop (w : Counting) : Counting :=
  match w.frames w.sys.current with
  | [] => w
  | frame :: rest =>
    { w.setFrames rest with returns := w.returns ++ [(frame.entered, w.sys.currentTask.preemptCount)] }

def Counting.startSchedule (w : Counting) : Counting :=
  { w.push .schedule with sys := w.sys.startSchedule }

inductive CountCall where
  -- Calls of a task that is in none.
  | fork
  | exec
  | exit
  | message
  | schedule
  -- What the call goes on with.
  | forkBody
  | execBody (err : KernErr) (k : Kernel)
  | exitEnd
  | block
  | unblock (pid : Int) (state : TaskState)
  | switch
  | leave
  | tick
  -- Anything else that the kernel does to its memory.
  | memory (k : Kernel)

def Counting.enter (w : Counting) (point : Point) : Option Counting :=
  if w.frames w.sys.current = [] then some { w.push point with sys := w.sys.enter } else none

-- A call in the middle of which the kernel stops has no next state.
def Counting.step (init : Word) (w : Counting) : CountCall → Option Counting
  | .fork => w.enter .fork
  | .exec => w.enter .exec
  | .exit => w.enter .exit
  | .message => if w.frames w.sys.current = [] then some (w.push .message) else none
  | .schedule => if w.frames w.sys.current = [] then some w.startSchedule else none
  | .forkBody =>
    if w.top = some .fork then
      match Anthill.forkBody w.sys with
      | .error (_, s) => some { w with sys := s }.pop
      | .ok (child, s) =>
        let w := w.mark .forked
        some { w with sys := s, frames := Function.update w.frames child (w.frames w.sys.current) }
    else none
  | .execBody err k =>
    if w.top = some .exec then
      let w := { w with sys := { w.sys with kernel := k } }
      some (if err = .ok then w.mark .started else w.pop)
    else none
  | .exitEnd =>
    if w.top = some .exit ∧ w.sys.currentTask.childrenNo = 0 then
      match exitSwitch init w.sys with
      | .error _ => none
      | .ok s => some { w.setFrames [] with sys := s }
    else none
  | .block =>
    let state := if w.top = some .exit then TaskState.waiting else TaskState.blocked
    if w.top = some .message ∨ (w.top = some .exit ∧ w.sys.currentTask.childrenNo > 0) then
      match w.sys.blockLoop w.sys.currentTask.pid state with
      | .error _ => none
      | .ok s => some { w with sys := s }.startSchedule
    else none
  | .unblock pid state =>
    if w.top = some .message then
      match w.sys.taskUnblock pid state with
      | .error _ => none
      | .ok s => some { w with sys := s }
    else none
  | .switch =>
    if w.top = some .schedule then
      match w.sys.switch with
      | .error _ => none
      | .ok s => some { w.mark .switched with sys := s }
    else none
  | .leave =>
    match w.top with
    | some .message => some w.pop
    | some .forked | some .started | some .switched => some { w with sys := w.sys.leave }.pop
    | _ => none
  | .tick =>
    let w := { w with sys := w.sys.countDown }
    if w.sys.currentTask.counter > 0 ∨ w.sys.currentTask.preemptCount > 0 then some w else some w.startSchedule
  | .memory k => some { w with sys := { w.sys with kernel := k } }

-- No call returns an error or blocks, and no fork writes its child over a task of the array.
def CountCall.Smooth (w : Counting) : CountCall → Prop
  | .forkBody => canAlloc 3 w.sys.kernel = true ∧ w.sys.Intact
  | .execBody err _ => err = .ok
  | .block => False
  | _ => True

-- The count of a task that is in the given calls.
def CountsFor : Int → List Frame → Prop
  | count, [] => count = 0
  | count, frame :: rest => count = frame.entered + frame.point.raised ∧ CountsFor frame.entered rest

theorem Point.raised_nonneg (point : Point) : 0 ≤ point.raised := by
  cases point <;> decide

theorem CountsFor.nonneg {count : Int} {frames : List Frame} (matched : CountsFor count frames) : 0 ≤ count := by
  induction frames generalizing count with
  | nil => exact matched.ge
  | cons frame rest ih =>
    have before := ih matched.2
    have raised := frame.point.raised_nonneg
    rw [matched.1]
    omega

theorem CountsFor.positive {count : Int} {frames : List Frame} (matched : CountsFor count frames) (frame : Frame)
    (member : frame ∈ frames) (critical : frame.point ≠ .message) : 0 < count := by
  induction frames generalizing count with
  | nil => cases member
  | cons first rest ih =>
    have raised := first.point.raised_nonneg
    rw [matched.1]
    rcases List.mem_cons.mp member with rfl | inside
    · have before := CountsFor.nonneg matched.2
      have one : frame.point.raised = 1 := by
        cases here : frame.point <;> first | rfl | exact absurd here critical
      omega
    · have before := ih matched.2 inside
      omega

/-- Every count is the number of critical regions that its task is in, and every return was balanced. -/
structure Counting.Ok (init : Word) (w : Counting) : Prop where
  once : w.sys.Once
  running : w.sys.Live w.sys.current
  init : w.sys.Live init ∧ (w.sys.task init).parent = 0
  counts : ∀ t, w.sys.Live t → CountsFor (w.sys.task t).preemptCount (w.frames t)
  returns : ∀ r, r ∈ w.returns → r.2 = r.1

theorem taskAdd_once (tasks : Fin taskTotal → Option Word) (ptr : Word)
    (once : ∀ i j t, tasks i = some t → tasks j = some t → i = j) (new : ¬ ∃ i, tasks i = some ptr) (i j : Fin taskTotal)
    (t : Word) (first : taskAdd tasks ptr i = some t) (second : taskAdd tasks ptr j = some t) : i = j := by
  unfold taskAdd at first second
  cases found : firstSlot fun i => (tasks i).isNone with
  | none =>
    rw [found] at first second
    exact once i j t first second
  | some a =>
    simp only [found] at first second
    by_cases inA : i = a <;> by_cases inB : j = a
    · rw [inA, inB]
    · rw [inA, Function.update_self] at first
      rw [Function.update_of_ne inB, ← first] at second
      exact absurd ⟨j, second⟩ new
    · rw [inB, Function.update_self] at second
      rw [Function.update_of_ne inA, ← second] at first
      exact absurd ⟨i, first⟩ new
    · rw [Function.update_of_ne inA] at first
      rw [Function.update_of_ne inB] at second
      exact once i j t first second

section Steps

variable {init : Word} {w w' : Counting}

-- A step that leaves the array as it is, with what it does to the counts and the calls.
theorem Counting.Ok.same (ok : w.Ok init) (tasks : w'.sys.tasks = w.sys.tasks) (running : w'.sys.Live w'.sys.current)
    (parent : (w'.sys.task init).parent = (w.sys.task init).parent)
    (counts : ∀ t, w.sys.Live t → CountsFor (w'.sys.task t).preemptCount (w'.frames t))
    (returns : ∀ r, r ∈ w'.returns → r.2 = r.1) : w'.Ok init where
  once i j t := by
    rw [tasks]
    exact ok.once i j t
  running := running
  init := by
    rw [Sys.Live, tasks, parent]
    exact ok.init
  counts t live := by
    rw [Sys.Live, tasks] at live
    exact counts t live
  returns := returns

-- A step of the current task that only it sees.
theorem Counting.Ok.current (ok : w.Ok init) (tasks : w'.sys.tasks = w.sys.tasks)
    (current : w'.sys.current = w.sys.current) (parents : ∀ t, (w'.sys.task t).parent = (w.sys.task t).parent)
    (others : ∀ t, t ≠ w.sys.current →
      (w'.sys.task t).preemptCount = (w.sys.task t).preemptCount ∧ w'.frames t = w.frames t)
    (mine : CountsFor w'.sys.currentTask.preemptCount (w'.frames w.sys.current))
    (returns : ∀ r, r ∈ w'.returns → r.2 = r.1) : w'.Ok init := by
  refine ok.same tasks ?_ (parents init) (fun t live => ?_) returns
  · rw [current, Sys.Live, tasks]
    exact ok.running
  · by_cases here : t = w.sys.current
    · rw [here, ← current]
      rwa [← current] at mine
    · rw [(others t here).1, (others t here).2]
      exact ok.counts t live

theorem Counting.Ok.currentCount (ok : w.Ok init) :
    CountsFor w.sys.currentTask.preemptCount (w.frames w.sys.current) := ok.counts _ ok.running

theorem Counting.Ok.enter (ok : w.Ok init) (point : Point) (critical : point.raised = 1)
    (entered : w.enter point = some w') : w'.Ok init := by
  unfold Counting.enter at entered
  split at entered
  · obtain rfl := Option.some.inj entered
    refine ok.current rfl rfl (fun t => ?_) (fun t other => ?_) ?_ ok.returns
    · by_cases here : t = w.sys.current <;> simp [Sys.enter, Sys.setTask, Sys.currentTask, here]
    · exact ⟨by simp [Sys.enter, Sys.setTask, other], by simp [Counting.push, Counting.setFrames, other]⟩
    · simp only [Sys.enter, Counting.push, Counting.setFrames, Function.update_self]
      refine ⟨?_, ok.currentCount⟩
      rw [critical]
      exact congrArg Task.preemptCount (Sys.setTask_self ..)
  · cases entered

theorem Counting.Ok.startSchedule (ok : w.Ok init) : w.startSchedule.Ok init := by
  refine ok.current rfl rfl (fun t => ?_) (fun t other => ?_) ?_ ok.returns
  · by_cases here : t = w.sys.current <;>
      simp [Counting.startSchedule, Sys.startSchedule, Sys.setTask, Sys.currentTask, here]
  · exact ⟨by simp [Counting.startSchedule, Sys.startSchedule, Sys.setTask, other],
      by simp [Counting.startSchedule, Counting.push, Counting.setFrames, other]⟩
  · simp only [Counting.startSchedule, Sys.startSchedule, Counting.push, Counting.setFrames, Function.update_self]
    exact ⟨congrArg Task.preemptCount (Sys.setTask_self ..), ok.currentCount⟩

-- The call of the top frame returns, with the count it was entered with.
theorem Counting.Ok.pops {s : Sys} (ok : w.Ok init) (frame : Frame) (rest : List Frame)
    (top : w.frames w.sys.current = frame :: rest) (tasks : s.tasks = w.sys.tasks) (current : s.current = w.sys.current)
    (parents : ∀ t, (s.task t).parent = (w.sys.task t).parent)
    (others : ∀ t, t ≠ w.sys.current → (s.task t).preemptCount = (w.sys.task t).preemptCount)
    (count : s.currentTask.preemptCount = frame.entered) : ({ w with sys := s }.pop).Ok init := by
  have matched := ok.currentCount
  rw [top] at matched
  have popped : ({ w with sys := s }.pop) = { { w with sys := s }.setFrames rest with
      returns := w.returns ++ [(frame.entered, s.currentTask.preemptCount)] } := by
    simp only [Counting.pop, current, top]
  rw [popped]
  refine ok.current tasks current parents (fun t other => ⟨others t other, ?_⟩) ?_ (fun r member => ?_)
  · simp only [Counting.setFrames, current]
    exact Function.update_of_ne other ..
  · simp only [Counting.setFrames, current]
    rw [count, Function.update_self]
    exact matched.2
  · rcases List.mem_append.mp member with before | last
    · exact ok.returns r before
    · obtain rfl := List.mem_singleton.mp last
      exact count

theorem Counting.Ok.leave (ok : w.Ok init) (frame : Frame) (rest : List Frame)
    (top : w.frames w.sys.current = frame :: rest) (critical : frame.point.raised = 1) :
    ({ w with sys := w.sys.leave }.pop).Ok init := by
  have matched := ok.currentCount
  rw [top] at matched
  have count : w.sys.leave.currentTask.preemptCount = frame.entered := by
    rw [show w.sys.leave.currentTask = { w.sys.currentTask with
      preemptCount := w.sys.currentTask.preemptCount - 1 } from Sys.setTask_self .., matched.1, critical]
    exact Int.add_sub_cancel ..
  refine ok.pops frame rest top rfl rfl (fun t => ?_) (fun t other => ?_) count
  · by_cases here : t = w.sys.current <;> simp [Sys.leave, Sys.setTask, Sys.currentTask, here]
  · simp [Sys.leave, Sys.setTask, other]

theorem Counting.Ok.mark (ok : w.Ok init) (frame : Frame) (rest : List Frame)
    (top : w.frames w.sys.current = frame :: rest) (point : Point) (critical : point.raised = frame.point.raised) :
    (w.mark point).Ok init := by
  have matched := ok.currentCount
  rw [top] at matched
  have marked : w.mark point = w.setFrames (⟨point, frame.entered⟩ :: rest) := by
    simp only [Counting.mark, top]
  rw [marked]
  refine ok.current rfl rfl (fun _ => rfl) (fun t other => ⟨rfl, Function.update_of_ne other ..⟩) ?_ ok.returns
  simp only [Counting.setFrames, Function.update_self]
  exact ⟨matched.1.trans (by rw [critical]), matched.2⟩

theorem Counting.top_frame (point : Point) (top : w.top = some point) :
    ∃ frame rest, w.frames w.sys.current = frame :: rest ∧ frame.point = point := by
  unfold Counting.top at top
  cases frames : w.frames w.sys.current with
  | nil =>
    rw [frames] at top
    cases top
  | cons frame rest =>
    rw [frames] at top
    exact ⟨frame, rest, rfl, Option.some.inj top⟩

theorem Counting.Ok.memory (ok : w.Ok init) (k : Kernel) : Counting.Ok init { w with sys := { w.sys with kernel := k } } :=
  ⟨ok.once, ok.running, ok.init, ok.counts, ok.returns⟩

theorem scheduleRounds_count (slots : List (Fin taskTotal)) (found : Sys × Int × Fin taskTotal) (t : Word) :
    ((slots.foldl scheduleRound found).1.task t).preemptCount = (found.1.task t).preemptCount := by
  induction slots generalizing found with
  | nil => rfl
  | cons i slots ih =>
    rw [List.foldl_cons, ih]
    obtain ⟨s, best, place⟩ := found
    rcases scheduleRound_cases s best place i with ⟨_, result⟩ | ⟨u, _, sys, _⟩
    · rw [result]
    · rw [sys]
      by_cases here : t = u <;> simp [Sys.setTask, here, Task.aged]

theorem switch_spec (s s' : Sys) (done : s.switch = .ok s') : s'.tasks = s.tasks ∧ s.Live s'.current ∧
    ∀ t, (s'.task t).preemptCount = (s.task t).preemptCount ∧ (s'.task t).parent = (s.task t).parent := by
  unfold Sys.switch at done
  simp only at done
  have counts := scheduleRounds_count (List.finRange taskTotal) (s, -1, 0)
  have same := (scheduleRounds_same (List.finRange taskTotal) (s, -1, 0)).1
  generalize (List.finRange taskTotal).foldl scheduleRound (s, -1, 0) = found at *
  cases there : found.1.tasks found.2.2 with
  | none =>
    rw [there] at done
    cases done
  | some t =>
    rw [there] at done
    obtain rfl := Except.ok.inj done
    refine ⟨same.tasks, ⟨found.2.2, by rw [← same.tasks]; exact there⟩, fun u => ?_⟩
    rw [← counts u, ← (same.kin u).parent]
    by_cases here : u = t <;> simp [Sys.setTask, here]

theorem Counting.Ok.switch (ok : w.Ok init) (s : Sys) (done : w.sys.switch = .ok s) :
    Counting.Ok init { w with sys := s } := by
  obtain ⟨tasks, live, fields⟩ := switch_spec w.sys s done
  refine ok.same tasks ?_ (fields init).2 (fun t here => ?_) ok.returns
  · rw [Sys.Live, tasks]
    exact live
  · rw [(fields t).1]
    exact ok.counts t here

theorem unblock_count (s s' : Sys) (pid : Int) (state : TaskState) (done : s.taskUnblock pid state = .ok s') (t : Word) :
    (s'.task t).preemptCount = (s.task t).preemptCount := by
  unfold Sys.taskUnblock at done
  generalize s.taskFind pid (List.finRange taskTotal) = found at done
  rcases found with halt | none | u
  · cases done
  · obtain rfl := Except.ok.inj done
    rfl
  · obtain rfl := Except.ok.inj done
    split
    · by_cases here : t = u <;> simp [Sys.setTask, here]
    · rfl

theorem Counting.Ok.unblock (ok : w.Ok init) (pid : Int) (state : TaskState) (s : Sys)
    (done : w.sys.taskUnblock pid state = .ok s) : Counting.Ok init { w with sys := s } := by
  obtain ⟨same, current⟩ := taskUnblock_same w.sys s pid state done
  have counts := unblock_count w.sys s pid state done
  refine ok.current same.tasks current (fun t => (same.kin t).parent) (fun t _ => ⟨counts t, rfl⟩) ?_ ok.returns
  show CountsFor (s.task s.current).preemptCount (w.frames w.sys.current)
  rw [current, counts]
  exact ok.currentCount

theorem Counting.Ok.countDown (ok : w.Ok init) : Counting.Ok init { w with sys := w.sys.countDown } := by
  refine ok.current rfl rfl (fun t => ?_) (fun t other => ?_) ?_ ok.returns
  · by_cases here : t = w.sys.current <;> simp [Sys.countDown, Sys.setTask, Sys.currentTask, here]
  · exact ⟨by simp [Sys.countDown, Sys.setTask, other], rfl⟩
  · rw [show w.sys.countDown.currentTask = { w.sys.currentTask with counter := w.sys.currentTask.counter - 1 } from
      Sys.setTask_self ..]
    exact ok.currentCount

theorem Counting.Ok.message (ok : w.Ok init) : (w.push .message).Ok init := by
  refine ok.current rfl rfl (fun _ => rfl) (fun t other => ⟨rfl, Function.update_of_ne other ..⟩) ?_ ok.returns
  simp only [Counting.push, Counting.setFrames, Function.update_self]
  exact ⟨(Int.add_zero _).symm, ok.currentCount⟩

theorem Counting.Ok.messageReturns (ok : w.Ok init) (frame : Frame) (rest : List Frame)
    (top : w.frames w.sys.current = frame :: rest) (plain : frame.point.raised = 0) : w.pop.Ok init := by
  have matched := ok.currentCount
  rw [top] at matched
  have count : w.sys.currentTask.preemptCount = frame.entered := by
    rw [matched.1, plain, Int.add_zero]
  exact ok.pops frame rest top rfl rfl (fun _ => rfl) (fun _ _ => rfl) count

theorem Counting.Ok.forkBody (ok : w.Ok init) (intact : w.sys.Intact) (child : Word) (s : Sys)
    (done : Anthill.forkBody w.sys = .ok (child, s)) :
    Counting.Ok init { w with sys := s, frames := Function.update w.frames child (w.frames w.sys.current) } := by
  unfold Anthill.forkBody at done
  cases alloc : forkAlloc w.sys.kernel with
  | error failed =>
    rw [alloc] at done
    cases done
  | ok made =>
    rw [alloc] at done
    obtain ⟨pages, k⟩ := made
    obtain ⟨rfl, rfl⟩ := Prod.mk.inj (Except.ok.inj done)
    have held : ¬ w.sys.Live pages.task := fun live => intact _ live (forkAlloc_free w.sys.kernel k pages alloc)
    have away (t : Word) (live : w.sys.Live t) : t ≠ pages.task := by
      rintro rfl
      exact held live
    have listed (t : Word) (live : ∃ i, taskAdd w.sys.tasks pages.task i = some t) : t = pages.task ∨ w.sys.Live t := by
      obtain ⟨i, there⟩ := live
      exact (taskAdd_cases w.sys.tasks pages.task t i there).imp (fun new => new.1) fun old => ⟨i, old⟩
    have keeps (t : Word) (live : w.sys.Live t) : ∃ i, taskAdd w.sys.tasks pages.task i = some t := by
      obtain ⟨i, there⟩ := live
      exact ⟨i, taskAdd_keeps w.sys.tasks pages.task t i there⟩
    refine ⟨taskAdd_once w.sys.tasks pages.task ok.once held, keeps _ ok.running, ⟨keeps init ok.init.1, ?_⟩,
      fun t live => ?_, ok.returns⟩
    · rw [← ok.init.2]
      by_cases here : init = w.sys.current
      · simp [Sys.setTask, Sys.currentTask, here]
      · simp [Sys.setTask, here, away init ok.init.1]
    · rcases listed t live with rfl | old
      · have apart : pages.task ≠ w.sys.current := (away _ ok.running).symm
        simpa [Sys.setTask, apart] using ok.currentCount
      · by_cases here : t = w.sys.current
        · subst here
          simpa [Sys.setTask, away _ old] using ok.currentCount
        · simpa [Sys.setTask, here, away t old] using ok.counts t old

/-- task_exit up to its cpu_switch. -/
structure Switched (init : Word) (s s' : Sys) : Prop where
  orphan : s.currentTask.parent ≠ 0
  tasks : s'.tasks = taskRemove s.tasks s.current
  current : s'.current = init
  fields : ∀ t, (s'.task t).parent = (s.task t).parent ∧ (s'.task t).preemptCount = (s.task t).preemptCount

theorem exitSwitch_spec (s s' : Sys) (done : exitSwitch init s = .ok s') : Switched init s s' := by
  unfold exitSwitch at done
  simp only [bind, Except.bind] at done
  split at done
  · cases done
  next orphan =>
    generalize counted : s.setTask s.currentTask.parent { s.task s.currentTask.parent with
      childrenNo := (s.task s.currentTask.parent).childrenNo - 1 } = s₁ at done
    split at done
    · cases done
    next s₂ woken =>
      split at done
      · cases done
      next k freed =>
        obtain rfl := Except.ok.inj done
        obtain ⟨same, current⟩ := taskUnblock_same s₁ s₂ _ _ woken
        have counts := unblock_count s₁ s₂ _ _ woken
        have unmoved : s₁.tasks = s.tasks ∧ s₁.current = s.current := by
          rw [← counted]
          exact ⟨rfl, rfl⟩
        refine ⟨orphan, ?_, rfl, fun t => ?_⟩
        · exact congrArg₂ taskRemove (same.tasks.trans unmoved.1) (current.trans unmoved.2)
        · show (s₂.task t).parent = _ ∧ (s₂.task t).preemptCount = _
          rw [(same.kin t).parent, counts t, ← counted]
          by_cases here : t = s.currentTask.parent <;> simp [Sys.setTask, here]

theorem Counting.Ok.exitEnd (ok : w.Ok init) (s : Sys) (done : exitSwitch init w.sys = .ok s) :
    Counting.Ok init { w.setFrames [] with sys := s } := by
  obtain ⟨orphan, tasks, current, fields⟩ := exitSwitch_spec w.sys s done
  obtain ⟨i, there⟩ := ok.running
  rw [taskRemove_once w.sys ok.once i _ there] at tasks
  have kept (j : Fin taskTotal) (t : Word) (there' : s.tasks j = some t) : w.sys.tasks j = some t ∧ t ≠ w.sys.current := by
    rw [tasks] at there'
    by_cases here : j = i
    · rw [here, Function.update_self] at there'
      cases there'
    · rw [Function.update_of_ne here] at there'
      refine ⟨there', ?_⟩
      rintro rfl
      exact here (ok.once j i _ there' there)
  have first : s.Live init := by
    obtain ⟨j, there'⟩ := ok.init.1
    refine ⟨j, ?_⟩
    rw [tasks, Function.update_of_ne]
    · exact there'
    · rintro rfl
      rw [there] at there'
      rw [Sys.currentTask, Option.some.inj there'] at orphan
      exact orphan ok.init.2
  refine ⟨fun a b t inA inB => ok.once a b t (kept a t inA).1 (kept b t inB).1, ?_, ⟨first, ?_⟩, ?_, ok.returns⟩
  · show s.Live s.current
    rw [current]
    exact first
  · exact (fields init).1.trans ok.init.2
  · rintro t ⟨j, there'⟩
    obtain ⟨old, away⟩ := kept j t there'
    show CountsFor (s.task t).preemptCount (Function.update w.frames w.sys.current [] t)
    rw [(fields t).2, Function.update_of_ne away]
    exact ok.counts t ⟨j, old⟩

theorem Counting.Ok.next (ok : w.Ok init) (call : CountCall) (smooth : call.Smooth w)
    (done : w.step init call = some w') : w'.Ok init := by
  cases call with
  | fork => exact ok.enter .fork rfl done
  | exec => exact ok.enter .exec rfl done
  | exit => exact ok.enter .exit rfl done
  | message =>
    simp only [Counting.step] at done
    split at done
    · obtain rfl := Option.some.inj done
      exact ok.message
    · cases done
  | schedule =>
    simp only [Counting.step] at done
    split at done
    · obtain rfl := Option.some.inj done
      exact ok.startSchedule
    · cases done
  | forkBody =>
    simp only [Counting.step] at done
    split at done
    · next top =>
      obtain ⟨frame, rest, frames, point⟩ := Counting.top_frame .fork top
      obtain ⟨pages, k, worked, -⟩ := forkAlloc_room w.sys.kernel 0 smooth.1
      cases body : Anthill.forkBody w.sys with
      | error failed =>
        simp only [Anthill.forkBody, worked] at body
        cases body
      | ok made =>
        rw [body] at done
        obtain rfl := Option.some.inj done
        have marked := ok.mark frame rest frames .forked (by rw [point]; rfl)
        have sys : (w.mark .forked).sys = w.sys := by simp only [Counting.mark, frames, Counting.setFrames]
        exact marked.forkBody (sys ▸ smooth.2) made.1 made.2 (sys ▸ body)
    · cases done
  | execBody err k =>
    obtain rfl : err = .ok := smooth
    simp only [Counting.step, if_true] at done
    split at done
    · next top =>
      obtain rfl := Option.some.inj done
      obtain ⟨frame, rest, frames, point⟩ := Counting.top_frame .exec top
      exact (ok.memory k).mark frame rest frames .started (by rw [point]; rfl)
    · cases done
  | exitEnd =>
    simp only [Counting.step] at done
    split at done
    · split at done
      · cases done
      · next s switched =>
        obtain rfl := Option.some.inj done
        exact ok.exitEnd s switched
    · cases done
  | block => exact smooth.elim
  | unblock pid state =>
    simp only [Counting.step] at done
    split at done
    · split at done
      · cases done
      · next s woken =>
        obtain rfl := Option.some.inj done
        exact ok.unblock pid state s woken
    · cases done
  | switch =>
    simp only [Counting.step] at done
    split at done
    · next top =>
      obtain ⟨frame, rest, frames, point⟩ := Counting.top_frame .schedule top
      split at done
      · cases done
      · next s switched =>
        obtain rfl := Option.some.inj done
        have marked := ok.mark frame rest frames .switched (by rw [point]; rfl)
        have sys : (w.mark .switched).sys = w.sys := by simp only [Counting.mark, frames, Counting.setFrames]
        exact marked.switch s (sys ▸ switched)
    · cases done
  | leave =>
    simp only [Counting.step] at done
    split at done
    · next top =>
      obtain rfl := Option.some.inj done
      obtain ⟨frame, rest, frames, point⟩ := Counting.top_frame .message top
      exact ok.messageReturns frame rest frames (by rw [point]; rfl)
    · next top =>
      obtain rfl := Option.some.inj done
      obtain ⟨frame, rest, frames, point⟩ := Counting.top_frame .forked top
      exact ok.leave frame rest frames (by rw [point]; rfl)
    · next top =>
      obtain rfl := Option.some.inj done
      obtain ⟨frame, rest, frames, point⟩ := Counting.top_frame .started top
      exact ok.leave frame rest frames (by rw [point]; rfl)
    · next top =>
      obtain rfl := Option.some.inj done
      obtain ⟨frame, rest, frames, point⟩ := Counting.top_frame .switched top
      exact ok.leave frame rest frames (by rw [point]; rfl)
    · cases done
  | tick =>
    simp only [Counting.step] at done
    split at done
    · obtain rfl := Option.some.inj done
      exact ok.countDown
    · obtain rfl := Option.some.inj done
      exact ok.countDown.startSchedule
  | memory k =>
    obtain rfl := Option.some.inj done
    exact ok.memory k

end Steps

/-- init_task alone, in no call. -/
structure Counting.Boot (init : Word) (w : Counting) : Prop where
  lone : Lone init w.sys
  count : (w.sys.task init).preemptCount = 0
  frames : ∀ t, w.frames t = []
  returns : w.returns = []

-- Some call of the current task is in a critical region.
def Counting.Critical (w : Counting) : Prop := ∃ frame, frame ∈ w.frames w.sys.current ∧ frame.point ≠ .message

/-- While no call fails or blocks, each call returns to its task with the preempt_count it was entered with, and
task_tick does not switch away from a critical region. -/
theorem preempt_balanced (init : Word) (w₀ w : Counting) (boot : w₀.Boot init)
    (run : Run (fun w (call : CountCall) w' => w.step init call = some w') (fun w call => call.Smooth w) w₀ w) :
    (∀ r, r ∈ w.returns → r.2 = r.1) ∧
    (w.Critical → 0 < w.sys.currentTask.preemptCount ∧ taskTick w.sys = .ok w.sys.countDown) := by
  have start : w₀.Ok init := by
    have family := boot.lone.family
    refine ⟨family.once, family.current, family.init, fun t live => ?_, fun r member => ?_⟩
    · rw [boot.frames, (boot.lone.live t).mp live]
      exact boot.count
    · rw [boot.returns] at member
      cases member
  have ok : w.Ok init := run.invariant (Counting.Ok init) start fun w call w' ok smooth done => ok.next call smooth done
  refine ⟨ok.returns, ?_⟩
  rintro ⟨frame, member, critical⟩
  have positive := ok.currentCount.positive frame member critical
  refine ⟨positive, ?_⟩
  have counted : w.sys.countDown.currentTask = { w.sys.currentTask with counter := w.sys.currentTask.counter - 1 } :=
    Sys.setTask_self ..
  unfold taskTick
  simp only [counted, positive, or_true, if_true]

def bootCounting (free : List Nat) : Counting := ⟨loneInit free, fun _ => [], []⟩

theorem bootCounting_boot (free : List Nat) : (bootCounting free).Boot (poolVa 10) :=
  ⟨loneInit_lone free, rfl, fun _ => rfl, rfl⟩

-- A run of the given calls from `bootCounting`, by what it has returned.
theorem counting_run (free : List Nat) (allowed : Counting → CountCall → Prop) [∀ w call, Decidable (allowed w call)]
    (calls : List CountCall) (returns : List (Int × Int))
    (done : (Run.replay (Counting.step (poolVa 10)) allowed (bootCounting free) calls).map Counting.returns =
      some returns) :
    ∃ w, Run (fun w (call : CountCall) w' => w.step (poolVa 10) call = some w') allowed (bootCounting free) w ∧
      w.returns = returns := by
  obtain ⟨w, reached, same⟩ := Option.map_eq_some_iff.mp done
  exact ⟨w, Run.of_replay _ _ w calls .start reached, same⟩

/-- A task_fork without pages returns with the count raised, and a call that has blocked with the count lowered. -/
theorem unbalanced :
    (∃ w₀ w : Counting, w₀.Boot (poolVa 10) ∧ (0, 1) ∈ w.returns ∧
      Run (fun (w : Counting) (call : CountCall) w' => w.step (poolVa 10) call = some w') (fun _ _ => True) w₀ w) ∧
    (∃ w₀ w : Counting, w₀.Boot (poolVa 10) ∧ (0, -1) ∈ w.returns ∧
      Run (fun (w : Counting) (call : CountCall) w' => w.step (poolVa 10) call = some w') (fun _ _ => True) w₀ w) := by
  constructor
  · obtain ⟨w, run, same⟩ := counting_run [] (fun _ _ => True) [.fork, .forkBody] [(0, 1)] (by decide +kernel)
    exact ⟨_, w, bootCounting_boot [], by rw [same]; decide, run⟩
  · obtain ⟨w, run, same⟩ := counting_run [] (fun _ _ => True) [.message, .block, .switch, .leave, .leave]
      [(-1, -1), (0, -1)] (by decide +kernel)
    exact ⟨_, w, bootCounting_boot [], by rw [same]; decide, run⟩

-- The calls that always are smooth.
def CountCall.plain : CountCall → Bool
  | .forkBody => false
  | .execBody _ _ => false
  | .block => false
  | _ => true

theorem CountCall.plain_smooth (w : Counting) (call : CountCall) (plain : call.plain = true) : call.Smooth w := by
  cases call with
  | forkBody | execBody | block => cases plain
  | _ => trivial

theorem preempt_balanced_schedule : ∃ w : Counting, w.returns = [(0, 0), (0, 0)] ∧
    (∀ r, r ∈ w.returns → r.2 = r.1) ∧
    (w.Critical → 0 < w.sys.currentTask.preemptCount ∧ taskTick w.sys = .ok w.sys.countDown) := by
  obtain ⟨w, run, same⟩ := counting_run [] (fun _ call => call.plain = true)
    [.message, .leave, .schedule, .tick, .switch, .tick, .leave, .fork] [(0, 0), (0, 0)] (by decide +kernel)
  exact ⟨w, same, preempt_balanced (poolVa 10) (bootCounting []) w (bootCounting_boot [])
    (run.weaken _ fun w call plain => call.plain_smooth w plain)⟩

end Anthill
