import Anthill.Schedule

set_option autoImplicit false

namespace Anthill

def Sys.members (s : Sys) : Finset Word := ((List.finRange taskTotal).filterMap s.tasks).toFinset

theorem Sys.mem_members (s : Sys) (t : Word) : t ∈ s.members ↔ s.Live t := by
  simp [Sys.members, Sys.Live]

inductive ScheduleAction where
  | schedule
  | tick
  | setState (t : Word) (state : TaskState)

-- The state in which the action calls task_schedule, if it does.
def ScheduleAction.enters (s : Sys) : ScheduleAction → Option Sys
  | .schedule => some s
  | .tick =>
    if s.countDown.currentTask.counter > 0 ∨ s.countDown.currentTask.preemptCount > 0 then none
    else some s.countDown
  | .setState _ _ => none

def ScheduleAction.act (s : Sys) : ScheduleAction → Except Halt Sys
  | .schedule => taskSchedule s
  | .tick => taskTick s
  | .setState t state => .ok (s.setTask t { s.task t with state := state })

-- A call of task_schedule: who could have been picked, and who was.
def Sys.choice (s s' : Sys) : Aging.Choice Word := ⟨fun t => (s.task t).state = .running, s'.current⟩

/-- The tasks, and the calls of task_schedule so far. -/
structure Scheduling where
  sys : Sys
  calls : List (Aging.Choice Word)

def Scheduling.step (w : Scheduling) (action : ScheduleAction) : Option Scheduling :=
  match action.act w.sys with
  | .error _ => none
  | .ok s' => some ⟨s', w.calls ++ ((action.enters w.sys).map fun s => s.choice s').toList⟩

-- Some task of the array is running whenever task_schedule is called.
def Sys.Ready (s : Sys) : Prop := ∃ t, s.Live t ∧ (s.task t).state = .running

theorem act_enters_schedule (s : Sys) (action : ScheduleAction) :
    (∃ s₁, action.enters s = some s₁ ∧ action.act s = taskSchedule s₁) ∨
      ∃ s', action.enters s = none ∧ action.act s = .ok s' ∧ s'.tasks = s.tasks ∧ s'.age = s.age ∧
        ∀ t, (s'.task t).priority = (s.task t).priority := by
  cases action with
  | schedule => exact .inl ⟨s, rfl, rfl⟩
  | tick =>
    simp only [ScheduleAction.enters, ScheduleAction.act, taskTick]
    split_ifs
    · refine .inr ⟨s.countDown, rfl, rfl, rfl, funext fun t => ?_, fun t => ?_⟩
      · by_cases here : t = s.current <;> simp [Sys.age, Sys.countDown, Sys.setTask, here]
      · by_cases here : t = s.current <;> simp [Sys.countDown, Sys.setTask, Sys.currentTask, here]
    · exact .inl ⟨s.countDown, rfl, rfl⟩
  | setState u state =>
    refine .inr ⟨_, rfl, rfl, rfl, funext fun t => ?_, fun t => ?_⟩
    · by_cases here : t = u <;> simp [Sys.age, Sys.setTask, here]
    · by_cases here : t = u <;> simp [Sys.setTask, here]

-- Counting down changes nothing that task_schedule goes by.
theorem enters_alike (s s₁ : Sys) (action : ScheduleAction) (enters : action.enters s = some s₁) :
    s₁.tasks = s.tasks ∧ s₁.age = s.age ∧ ∀ t, (s₁.task t).priority = (s.task t).priority := by
  cases action with
  | schedule =>
    obtain rfl := Option.some.inj enters
    exact ⟨rfl, rfl, fun _ => rfl⟩
  | tick =>
    simp only [ScheduleAction.enters] at enters
    split_ifs at enters
    obtain rfl := Option.some.inj enters
    refine ⟨rfl, funext fun t => ?_, fun t => ?_⟩
    · by_cases here : t = s.current <;> simp [Sys.age, Sys.countDown, Sys.setTask, here]
    · by_cases here : t = s.current <;> simp [Sys.countDown, Sys.setTask, Sys.currentTask, here]
  | setState => cases enters

/-- The array of `s₀` with the priority `step` for every task, and what the calls so far have made of the counters. -/
structure Scheduling.Ok (s₀ : Sys) (step : Int) (w : Scheduling) : Prop where
  tasks : w.sys.tasks = s₀.tasks
  priority : ∀ t, s₀.Live t → (w.sys.task t).priority = step
  log : Aging.Log s₀.members step s₀.age w.calls w.sys.age

section Fair

variable {s₀ : Sys} {step : Int} {w : Scheduling} (once : s₀.Once)
  (nonneg : ∀ t, s₀.Live t → 0 ≤ (s₀.task t).counter) (positive : 0 < step)

include nonneg positive in
theorem Scheduling.Ok.ages (ok : w.Ok s₀ step) (t : Word) (live : s₀.Live t) : 0 ≤ w.sys.age t := by
  refine ok.log.nonneg (fun u member => ?_) positive t ((s₀.mem_members t).mpr live)
  unfold Sys.age
  split_ifs
  · exact le_refl _
  · exact nonneg u ((s₀.mem_members u).mp member)

include once nonneg positive

theorem Scheduling.Ok.scheduled (ok : w.Ok s₀ step) (action : ScheduleAction) (s : Sys)
    (enters : action.enters w.sys = some s) (ready : s.Ready) : ∃ s' t, taskSchedule s = .ok s' ∧ Scheduled s s' t := by
  obtain ⟨tasks, age, priority⟩ := enters_alike w.sys s action enters
  have same : s.tasks = s₀.tasks := tasks.trans ok.tasks
  refine taskSchedule_scheduled s ?_ ?_ ready
  · unfold Sys.Once
    rw [same]
    exact once
  · intro t live
    unfold Sys.Live at live
    rw [same] at live
    rw [age, priority t, ok.priority t live]
    have := ok.ages nonneg positive t live
    omega

theorem Scheduling.Ok.next (ok : w.Ok s₀ step) (action : ScheduleAction)
    (ready : ∀ s, action.enters w.sys = some s → s.Ready) (w' : Scheduling) (taken : w.step action = some w') :
    w'.Ok s₀ step := by
  unfold Scheduling.step at taken
  rcases act_enters_schedule w.sys action with ⟨s, enters, acts⟩ | ⟨s', none, acts, tasks, age, priority⟩
  · obtain ⟨s', t, done, scheduled⟩ := ok.scheduled once nonneg positive action s enters (ready s enters)
    obtain ⟨tasks, age, priority⟩ := enters_alike w.sys s action enters
    rw [acts, done, enters] at taken
    obtain rfl := Option.some.inj taken
    have same : s.tasks = s₀.tasks := tasks.trans ok.tasks
    have live (u : Word) : s.Live u ↔ s₀.Live u := by rw [Sys.Live, Sys.Live, same]
    have step_ (u : Word) (there : s₀.Live u) : (s.task u).priority = step :=
      (priority u).trans (ok.priority u there)
    refine ⟨scheduled.tasks.trans same, fun u there => ?_, .next w.calls w.sys.age _ s'.age ok.log ?_⟩
    · exact (scheduled.priority u).trans (step_ u there)
    · have here := (live t).mp scheduled.live
      have picked : (s.choice s').picked = t := scheduled.current
      constructor
      · rw [picked]
        exact (s₀.mem_members t).mpr here
      · rw [picked]
        exact scheduled.running
      · intro u member running
        have there := (s₀.mem_members u).mp member
        have most := scheduled.most u ((live u).mpr there) running
        rw [step_ u there, step_ t here, age] at most
        rw [picked]
        omega
      · exact if_pos rfl
      · intro u member other
        have there := (s₀.mem_members u).mp member
        rw [picked] at other
        rw [Sys.age, scheduled.current, if_neg other, scheduled.counter u ((live u).mpr there) other, age,
          step_ u there]
  · rw [acts, none] at taken
    obtain rfl := Option.some.inj taken
    refine ⟨tasks.trans ok.tasks, fun t live => (priority t).trans (ok.priority t live), ?_⟩
    rw [age]
    simpa using ok.log

end Fair

/-- However the states change between the calls, every call of task_schedule switches to a running task, and a
task that runs at as many calls in a row as the array has tasks is switched to by one of them. -/
theorem schedule_fair (s₀ : Sys) (step : Int) (once : s₀.Once) (equal : ∀ t, s₀.Live t → (s₀.task t).priority = step)
    (positive : 0 < step) (nonneg : ∀ t, s₀.Live t → 0 ≤ (s₀.task t).counter) (w : Scheduling)
    (run : Run (fun w action w' => Scheduling.step w action = some w')
      (fun w action => ∀ s, action.enters w.sys = some s → s.Ready) ⟨s₀, []⟩ w) :
    (∀ (action : ScheduleAction) (s : Sys), action.enters w.sys = some s → s.Ready →
      ∃ s', taskSchedule s = .ok s' ∧ s.Live s'.current ∧ (s.task s'.current).state = .running) ∧
    (∀ call, call ∈ w.calls → call.ready call.picked) ∧
    ∀ t, s₀.Live t → ∀ early window late, w.calls = early ++ window ++ late → window.length = s₀.members.card →
      (∀ call, call ∈ window → call.ready t) → ∃ call, call ∈ window ∧ call.picked = t := by
  have ok : w.Ok s₀ step := run.invariant (Scheduling.Ok s₀ step) ⟨rfl, equal, .start⟩
    fun w action w' ok ready taken => ok.next once nonneg positive action ready w' taken
  refine ⟨fun action s enters ready => ?_, ok.log.ready, fun t live early window late split long ready => ?_⟩
  · obtain ⟨s', t, done, scheduled⟩ := ok.scheduled once nonneg positive action s enters ready
    rw [← scheduled.current] at scheduled
    exact ⟨s', done, scheduled.live, scheduled.running⟩
  · have first : Scheduling.Ok s₀ step ⟨s₀, []⟩ := ⟨rfl, equal, .start⟩
    refine ok.log.picks (fun u member => ?_) positive t ((s₀.mem_members t).mpr live) early window late split long ready
    exact first.ages nonneg positive u ((s₀.mem_members u).mp member)

-- Two tasks of priority 1, the first of them running.
def pair : Sys := crew [] [20, 21] [⟨10, 4, 11, 10, 1⟩, ⟨12, 5, 13, 10, 0⟩] 10

theorem pair_slot (i : Fin taskTotal) (t : Word) (there : pair.tasks i = some t) :
    (i.val = 0 ∧ t = poolVa 10) ∨ (i.val = 1 ∧ t = poolVa 12) := by
  simp only [pair, crew, Option.map_eq_some_iff] at there
  obtain ⟨m, found, rfl⟩ := there
  obtain ⟨small, rfl⟩ := List.getElem?_eq_some_iff.mp found
  obtain zero | one : i.val = 0 ∨ i.val = 1 := by
    rw [List.length_cons, List.length_singleton] at small
    omega
  · exact .inl ⟨zero, by simp only [zero]; rfl⟩
  · exact .inr ⟨one, by simp only [one]; rfl⟩

theorem pair_once : pair.Once := by
  intro i j t first second
  have distinct : poolVa 10 ≠ poolVa 12 := by decide
  rcases pair_slot i t first with ⟨zero, rfl⟩ | ⟨one, rfl⟩
  · rcases pair_slot j _ second with ⟨zero', -⟩ | ⟨-, same⟩
    · exact Fin.ext (zero.trans zero'.symm)
    · exact absurd same distinct
  · rcases pair_slot j _ second with ⟨-, same⟩ | ⟨one', -⟩
    · exact absurd same.symm distinct
    · exact Fin.ext (one.trans one'.symm)

theorem pair_live (t : Word) (live : pair.Live t) : t = poolVa 10 ∨ t = poolVa 12 := by
  obtain ⟨i, there⟩ := live
  rcases pair_slot i t there with ⟨-, same⟩ | ⟨-, same⟩
  · exact .inl same
  · exact .inr same

theorem pair_first : pair.Live (poolVa 10) := ⟨0, rfl⟩

theorem pair_running : (pair.task (poolVa 10)).state = .running := by decide +kernel

theorem schedule_fair_pair : ∃ w : Scheduling, w.calls.map Aging.Choice.picked = [poolVa 12, poolVa 10] ∧
    (∀ call, call ∈ w.calls → call.ready call.picked) ∧
      ((∀ call, call ∈ w.calls → call.ready (poolVa 10)) → ∃ call, call ∈ w.calls ∧ call.picked = poolVa 10) := by
  have played : ((Scheduling.step ⟨pair, []⟩ .schedule).bind fun w₁ => (w₁.step .schedule).map fun w => (w₁, w)).map
      (fun (w₁, w) => (w₁.sys.tasks 0, (w₁.sys.task (poolVa 10)).state, w.calls.map Aging.Choice.picked)) =
      some (some (poolVa 10), .running, [poolVa 12, poolVa 10]) := by decide +kernel
  obtain ⟨⟨w₁, w⟩, taken, same⟩ := Option.map_eq_some_iff.mp played
  obtain ⟨w₁', first, second⟩ := Option.bind_eq_some_iff.mp taken
  obtain ⟨w', next, equal⟩ := Option.map_eq_some_iff.mp second
  obtain ⟨rfl, rfl⟩ := Prod.mk.inj equal
  simp only [Prod.mk.injEq] at same
  obtain ⟨there, running, picked⟩ := same
  have ready (s s₁ : Sys) (live : s.Live (poolVa 10)) (runs : (s.task (poolVa 10)).state = .running)
      (enters : ScheduleAction.schedule.enters s = some s₁) : s₁.Ready := by
    obtain rfl := Option.some.inj enters
    exact ⟨_, live, runs⟩
  have members : pair.members.card = 2 := by decide +kernel
  have once : Run (fun w action w' => Scheduling.step w action = some w')
      (fun w action => ∀ s, action.enters w.sys = some s → s.Ready) ⟨pair, []⟩ w₁' :=
    .next _ w₁' .schedule .start (fun s enters => ready pair s pair_first pair_running enters) first
  have twice := Run.next w₁' w' ScheduleAction.schedule once
    (fun s enters => ready w₁'.sys s ⟨0, there⟩ running enters) next
  have fair := schedule_fair pair 1 pair_once
    (fun t live => by rcases pair_live t live with rfl | rfl <;> decide +kernel) (by decide)
    (fun t live => by rcases pair_live t live with rfl | rfl <;> decide +kernel) w' twice
  have long := congrArg List.length picked
  rw [List.length_map] at long
  exact ⟨w', picked, fair.2.1,
    fair.2.2 (poolVa 10) pair_first [] w'.calls [] (by simp) (long.trans members.symm)⟩

end Anthill
