import Anthill.Schedule
import Anthill.Teardown

set_option autoImplicit false

namespace Anthill

open Radix

-- The loop of task_block and task_unblock, which reads the pid behind every slot it comes to.
def Sys.taskFind (s : Sys) (pid : Int) : List (Fin taskTotal) → Except Halt (Option Word)
  | [] => .ok none
  | i :: slots =>
    match s.tasks i with
    | none => .error .fault
    | some t => if (s.task t).pid = pid then .ok (some t) else s.taskFind pid slots

def Sys.taskBlock (s : Sys) (pid : Int) (state : TaskState) : Except Halt Sys :=
  match s.taskFind pid (List.finRange taskTotal) with
  | .error halt => .error halt
  | .ok none => taskSchedule s
  | .ok (some t) =>
    taskSchedule (s.setTask t { s.task t with state := state, preemptCount := (s.task t).preemptCount - 1 })

def Sys.taskUnblock (s : Sys) (pid : Int) (state : TaskState) : Except Halt Sys :=
  match s.taskFind pid (List.finRange taskTotal) with
  | .error halt => .error halt
  | .ok none => .ok s
  | .ok (some t) =>
    .ok (if (s.task t).state = state then s.setTask t { s.task t with state := .running } else s)

def orPanic (msg : String) : Except Halt (KernErr × Kernel) → Except Halt Kernel
  | .ok (.ok, k) => .ok k
  | .ok _ => .error (.panic msg)
  | .error halt => .error halt

-- What task_exit frees: all that the task's tables reach, its top-level table, its kernel stack and its struct.
def exitFree (s : Sys) : Except Halt Kernel := do
  let k ← orPanic "Failed to teardown table entries" (memTableTeardown s.kernel (s.table s.current))
  let k ← orPanic "Failed to free translation table" (memKernelFreePage k (s.table s.current))
  let k ← orPanic "Failed to free kernel stack" (memKernelFreePage k s.currentTask.kernelStack)
  orPanic "Failed to free task struct" (memKernelFreePage k s.current)

-- task_exit behind its loop. The task that is switched to, init_task, comes back in its own task_schedule.
def taskExitEnd (init : Word) (s : Sys) : Except Halt Sys := do
  let parent := s.currentTask.parent
  if parent = 0 then .error .fault
  let s := s.setTask parent { s.task parent with childrenNo := (s.task parent).childrenNo - 1 }
  let s ← s.taskUnblock (s.task parent).pid .waiting
  let k ← exitFree s
  let s := { s with kernel := k, tasks := taskRemove s.tasks s.current, current := init }
  .ok (s.setTask init { s.task init with preemptCount := (s.task init).preemptCount - 1 })

-- One look at children_no: the task waits or leaves the loop.
def taskExitRound (init : Word) (s : Sys) : Except Halt Sys :=
  if s.currentTask.childrenNo > 0 then s.taskBlock s.currentTask.pid .waiting else taskExitEnd init s

def taskExit (init : Word) (s : Sys) : Except Halt Sys :=
  taskExitRound init (s.setTask s.current { s.currentTask with preemptCount := s.currentTask.preemptCount + 1 })

/-- The fields of a task that only task_fork and task_exit write. -/
structure Task.Kin (t t' : Task) : Prop where
  pid : t'.pid = t.pid
  parent : t'.parent = t.parent
  childrenNo : t'.childrenNo = t.childrenNo
  tranTable : t'.tranTable = t.tranTable
  kernelStack : t'.kernelStack = t.kernelStack

theorem Task.Kin.refl (t : Task) : t.Kin t := ⟨rfl, rfl, rfl, rfl, rfl⟩

theorem Task.Kin.trans {t t' t'' : Task} (first : t.Kin t') (second : t'.Kin t'') : t.Kin t'' :=
  ⟨second.pid.trans first.pid, second.parent.trans first.parent, second.childrenNo.trans first.childrenNo,
    second.tranTable.trans first.tranTable, second.kernelStack.trans first.kernelStack⟩

/-- What the functions that only change states and counters leave as it is. -/
structure SameFamily (s s' : Sys) : Prop where
  tasks : s'.tasks = s.tasks
  taskCount : s'.taskCount = s.taskCount
  kernel : s'.kernel = s.kernel
  kin : ∀ t, (s.task t).Kin (s'.task t)

theorem SameFamily.refl (s : Sys) : SameFamily s s := ⟨rfl, rfl, rfl, fun _ => .refl _⟩

theorem SameFamily.trans {s s' s'' : Sys} (first : SameFamily s s') (second : SameFamily s' s'') :
    SameFamily s s'' where
  tasks := second.tasks.trans first.tasks
  taskCount := second.taskCount.trans first.taskCount
  kernel := second.kernel.trans first.kernel
  kin t := (first.kin t).trans (second.kin t)

theorem SameFamily.setTask (s : Sys) (t : Word) (task : Task) (kin : (s.task t).Kin task) :
    SameFamily s (s.setTask t task) := by
  refine ⟨rfl, rfl, rfl, fun u => ?_⟩
  by_cases same : u = t
  · rw [same, Sys.setTask_self]
    exact kin
  · rw [s.setTask_other t u task same]
    exact .refl _

theorem scheduleRounds_same (slots : List (Fin taskTotal)) (found : Sys × Int × Fin taskTotal) :
    SameFamily found.1 (slots.foldl scheduleRound found).1 ∧
      ∀ u, ((slots.foldl scheduleRound found).1.task u).state = (found.1.task u).state := by
  induction slots generalizing found with
  | nil => exact ⟨.refl _, fun _ => rfl⟩
  | cons i slots ih =>
    obtain ⟨same, states⟩ := ih (scheduleRound found i)
    obtain ⟨s, best, place⟩ := found
    rw [List.foldl_cons]
    rcases scheduleRound_cases s best place i with ⟨_, result⟩ | ⟨t, _, sys, _⟩
    · rw [result] at same states ⊢
      exact ⟨same, states⟩
    · rw [sys] at same states
      refine ⟨(SameFamily.setTask s t (s.task t).aged ⟨rfl, rfl, rfl, rfl, rfl⟩).trans same, fun u => ?_⟩
      rw [states u]
      by_cases here : u = t <;> simp [Sys.setTask, here, Task.aged]

theorem taskSchedule_same (s s' : Sys) (done : taskSchedule s = .ok s') :
    SameFamily s s' ∧ s.Live s'.current ∧ ∀ u, (s'.task u).state = (s.task u).state := by
  unfold taskSchedule at done
  simp only [] at done
  have start : SameFamily s (s.setTask s.current
      { s.currentTask with counter := 0, preemptCount := s.currentTask.preemptCount + 1 }) :=
    .setTask s s.current _ ⟨rfl, rfl, rfl, rfl, rfl⟩
  have states (u : Word) : ((s.setTask s.current { s.currentTask with
      counter := 0, preemptCount := s.currentTask.preemptCount + 1 }).task u).state = (s.task u).state := by
    by_cases here : u = s.current <;> simp [Sys.setTask, here, Sys.currentTask]
  generalize s.setTask s.current _ = s₀ at *
  obtain ⟨loop, kept⟩ := scheduleRounds_same (List.finRange taskTotal) (s₀, -1, 0)
  generalize (List.finRange taskTotal).foldl scheduleRound (s₀, -1, 0) = found at *
  obtain ⟨s₁, best, place⟩ := found
  simp only at loop kept done
  cases there : s₁.tasks place with
  | none =>
    rw [there] at done
    cases done
  | some t =>
    rw [there] at done
    obtain rfl := Except.ok.inj done
    have live : s.Live t := ⟨place, by rw [← start.tasks, ← loop.tasks]; exact there⟩
    have chosen := SameFamily.setTask s₁ t { s₁.task t with counter := (s₁.task t).priority } ⟨rfl, rfl, rfl, rfl, rfl⟩
    have back (s₂ : Sys) : SameFamily s₂ ({ s₂ with current := t }.setTask t
        { s₂.task t with preemptCount := (s₂.task t).preemptCount - 1 }) :=
      (⟨rfl, rfl, rfl, fun _ => .refl _⟩ : SameFamily s₂ { s₂ with current := t }).trans
        (.setTask _ t { s₂.task t with preemptCount := (s₂.task t).preemptCount - 1 } ⟨rfl, rfl, rfl, rfl, rfl⟩)
    refine ⟨start.trans (loop.trans (chosen.trans (back _))), live, fun u => ?_⟩
    rw [← states u, ← kept u]
    by_cases here : u = t <;> simp [Sys.setTask, here]

theorem taskFind_some (s : Sys) (pid : Int) (slots : List (Fin taskTotal)) (t : Word)
    (found : s.taskFind pid slots = .ok (some t)) : s.Live t ∧ (s.task t).pid = pid := by
  induction slots with
  | nil => cases found
  | cons i slots ih =>
    rw [Sys.taskFind] at found
    cases there : s.tasks i with
    | none =>
      rw [there] at found
      cases found
    | some u =>
      rw [there] at found
      simp only at found
      split at found
      · next same =>
        obtain rfl := Option.some.inj (Except.ok.inj found)
        exact ⟨⟨i, there⟩, same⟩
      · exact ih found

theorem taskUnblock_same (s s' : Sys) (pid : Int) (state : TaskState) (done : s.taskUnblock pid state = .ok s') :
    SameFamily s s' ∧ s'.current = s.current := by
  unfold Sys.taskUnblock at done
  cases found : s.taskFind pid (List.finRange taskTotal) with
  | error halt =>
    rw [found] at done
    cases done
  | ok result =>
    rw [found] at done
    cases result with
    | none =>
      obtain rfl := Except.ok.inj done
      exact ⟨.refl _, rfl⟩
    | some t =>
      obtain rfl := Except.ok.inj done
      split
      · exact ⟨.setTask s t { s.task t with state := .running } ⟨rfl, rfl, rfl, rfl, rfl⟩, rfl⟩
      · exact ⟨.refl _, rfl⟩

theorem taskBlock_same (s s' : Sys) (pid : Int) (state : TaskState) (done : s.taskBlock pid state = .ok s') :
    SameFamily s s' ∧ s.Live s'.current := by
  unfold Sys.taskBlock at done
  cases found : s.taskFind pid (List.finRange taskTotal) with
  | error halt =>
    rw [found] at done
    cases done
  | ok result =>
    rw [found] at done
    cases result with
    | none =>
      obtain ⟨same, live, -⟩ := taskSchedule_same s s' done
      exact ⟨same, live⟩
    | some t =>
      obtain ⟨same, live, -⟩ := taskSchedule_same _ s' done
      have start := SameFamily.setTask s t { s.task t with
        state := state, preemptCount := (s.task t).preemptCount - 1 } ⟨rfl, rfl, rfl, rfl, rfl⟩
      exact ⟨start.trans same, live⟩

/-- A task_exit that comes to its end. -/
structure Exited (init : Word) (s s' : Sys) : Prop where
  orphan : s.currentTask.parent ≠ 0
  tasks : s'.tasks = taskRemove s.tasks s.current
  current : s'.current = init
  taskCount : s'.taskCount = s.taskCount
  pid : ∀ t, (s'.task t).pid = (s.task t).pid
  parent : ∀ t, (s'.task t).parent = (s.task t).parent
  childrenNo : ∀ t, (s'.task t).childrenNo =
    if t = s.currentTask.parent then (s.task t).childrenNo - 1 else (s.task t).childrenNo

theorem taskExitEnd_done (init : Word) (s s' : Sys) (done : taskExitEnd init s = .ok s') : Exited init s s' := by
  unfold taskExitEnd at done
  simp only [bind, Except.bind] at done
  split at done
  · cases done
  next orphan =>
    generalize counted : s.setTask s.currentTask.parent { s.task s.currentTask.parent with
      childrenNo := (s.task s.currentTask.parent).childrenNo - 1 } = s₁ at done
    split at done
    · cases done
    next s₂ woken =>
      split at done
      · cases done
      next k freed =>
        obtain rfl := Except.ok.inj done
        obtain ⟨same, current⟩ := taskUnblock_same s₁ s₂ _ _ woken
        have kin (t : Word) : (s₂.task t).Kin (({ s₂ with
            kernel := k, tasks := taskRemove s₂.tasks s₂.current, current := init } : Sys).setTask init
              { s₂.task init with preemptCount := (s₂.task init).preemptCount - 1 } |>.task t) := by
          by_cases here : t = init
          · rw [here, Sys.setTask_self]
            exact ⟨rfl, rfl, rfl, rfl, rfl⟩
          · rw [Sys.setTask_other _ init t _ here]
            exact .refl _
        have before (t : Word) : (s₁.task t).pid = (s.task t).pid ∧ (s₁.task t).parent = (s.task t).parent ∧
            (s₁.task t).childrenNo =
              if t = s.currentTask.parent then (s.task t).childrenNo - 1 else (s.task t).childrenNo := by
          rw [← counted]
          by_cases here : t = s.currentTask.parent <;> simp [Sys.setTask, here]
        have unmoved : s₁.tasks = s.tasks ∧ s₁.current = s.current ∧ s₁.taskCount = s.taskCount := by
          rw [← counted]
          exact ⟨rfl, rfl, rfl⟩
        refine ⟨orphan, ?_, rfl, same.taskCount.trans unmoved.2.2, fun t => ?_, fun t => ?_, fun t => ?_⟩
        · exact congrArg₂ taskRemove (same.tasks.trans unmoved.1) (current.trans unmoved.2.1)
        · exact ((kin t).pid.trans (same.kin t).pid).trans (before t).1
        · exact ((kin t).parent.trans (same.kin t).parent).trans (before t).2.1
        · exact ((kin t).childrenNo.trans (same.kin t).childrenNo).trans (before t).2.2

theorem taskExitRound_cases (init : Word) (s s' : Sys) (done : taskExitRound init s = .ok s') :
    (SameFamily s s' ∧ s.Live s'.current) ∨ (s.currentTask.childrenNo = 0 ∧ Exited init s s') := by
  unfold taskExitRound at done
  split at done
  · exact .inl (taskBlock_same s s' _ _ done)
  · next none => exact .inr ⟨Nat.eq_zero_of_not_pos none, taskExitEnd_done init s s' done⟩

end Anthill
