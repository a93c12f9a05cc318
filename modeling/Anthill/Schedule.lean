import Anthill.Aging
import Anthill.Run
import Anthill.Task

set_option autoImplicit false

namespace Anthill

-- One round of the loop of task_schedule, with the greatest counter so far and where it was found.
def scheduleRound (found : Sys × Int × Fin taskTotal) (i : Fin taskTotal) : Sys × Int × Fin taskTotal :=
  match found.1.tasks i with
  | none => found
  | some t =>
    let task := { found.1.task t with counter := (found.1.task t).counter + (found.1.task t).priority }
    let s := found.1.setTask t task
    if task.state = .running ∧ task.counter > found.2.1 then (s, task.counter, i) else (s, found.2)

-- A task that is switched to comes back from the cpu_switch where it stopped, and both task_schedule and
-- task_fork count preempt_count down there.
def taskSchedule (s : Sys) : Except Halt Sys :=
  let s := s.setTask s.current
    { s.currentTask with counter := 0, preemptCount := s.currentTask.preemptCount + 1 }
  let found := (List.finRange taskTotal).foldl scheduleRound (s, -1, 0)
  let s := found.1
  match s.tasks found.2.2 with
  | none => .error .fault
  | some t =>
    let s := s.setTask t { s.task t with counter := (s.task t).priority }
    let s := { s with current := t }
    .ok (s.setTask t { s.task t with preemptCount := (s.task t).preemptCount - 1 })

def Sys.countDown (s : Sys) : Sys :=
  s.setTask s.current { s.currentTask with counter := s.currentTask.counter - 1 }

def taskTick (s : Sys) : Except Halt Sys :=
  let s := s.countDown
  if s.currentTask.counter > 0 ∨ s.currentTask.preemptCount > 0 then .ok s else taskSchedule s

@[simp] theorem Sys.setTask_self (s : Sys) (t : Word) (task : Task) : (s.setTask t task).task t = task :=
  if_pos rfl

theorem Sys.setTask_other (s : Sys) (t u : Word) (task : Task) (other : u ≠ t) :
    (s.setTask t task).task u = s.task u :=
  if_neg other

-- What the loop of task_schedule does to a task.
def Task.aged (t : Task) : Task := { t with counter := t.counter + t.priority }

/-- Each task of the array is in one slot. -/
def Sys.Once (s : Sys) : Prop := ∀ i j t, s.tasks i = some t → s.tasks j = some t → i = j

theorem scheduleRound_cases (s : Sys) (best : Int) (place i : Fin taskTotal) :
    (s.tasks i = none ∧ scheduleRound (s, best, place) i = (s, best, place)) ∨
    ∃ t, s.tasks i = some t ∧ (scheduleRound (s, best, place) i).1 = s.setTask t (s.task t).aged ∧
      (((s.task t).state = .running ∧ best < (s.task t).aged.counter ∧
          (scheduleRound (s, best, place) i).2 = ((s.task t).aged.counter, i)) ∨
        (((s.task t).state = .running → (s.task t).aged.counter ≤ best) ∧
          (scheduleRound (s, best, place) i).2 = (best, place))) := by
  unfold scheduleRound
  cases there : s.tasks i with
  | none => exact .inl ⟨rfl, rfl⟩
  | some t =>
    refine .inr ⟨t, rfl, ?_⟩
    simp only []
    split_ifs with more
    · exact ⟨rfl, .inl ⟨more.1, more.2, rfl⟩⟩
    · refine ⟨rfl, .inr ⟨fun running => ?_, rfl⟩⟩
      by_contra above
      exact more ⟨running, not_le.mp above⟩

/-- What the loop of task_schedule has found after the slots `slots`, when it starts from `best` and `place`. -/
structure Rounds (s : Sys) (best : Int) (place : Fin taskTotal) (slots : List (Fin taskTotal))
    (found : Sys × Int × Fin taskTotal) : Prop where
  rest : found.1.tasks = s.tasks ∧ found.1.current = s.current
  listed : ∀ i t, i ∈ slots → s.tasks i = some t → found.1.task t = (s.task t).aged
  unlisted : ∀ t, (∀ i, i ∈ slots → s.tasks i ≠ some t) → found.1.task t = s.task t
  most : ∀ i t, i ∈ slots → s.tasks i = some t → (s.task t).state = .running →
    (s.task t).aged.counter ≤ found.2.1
  above : best ≤ found.2.1
  chosen : found.2 = (best, place) ∨ ∃ t, s.tasks found.2.2 = some t ∧ (s.task t).state = .running ∧
    (s.task t).aged.counter = found.2.1

theorem scheduleRounds (s : Sys) (once : s.Once) (best : Int) (place : Fin taskTotal)
    (slots : List (Fin taskTotal)) (distinct : slots.Nodup) :
    Rounds s best place slots (slots.foldl scheduleRound (s, best, place)) := by
  induction slots using List.reverseRecOn with
  | nil =>
    have none (i : Fin taskTotal) : i ∉ ([] : List (Fin taskTotal)) := List.not_mem_nil
    exact ⟨⟨rfl, rfl⟩, fun i t inside => absurd inside (none i), fun _ _ => rfl,
      fun i t inside => absurd inside (none i), le_refl _, .inl rfl⟩
  | append_singleton slots j ih =>
    rw [List.nodup_append] at distinct
    obtain ⟨rest, listed, unlisted, most, above, chosen⟩ := ih distinct.1
    have new (i : Fin taskTotal) (inside : i ∈ slots) : i ≠ j :=
      distinct.2.2 i inside j (List.mem_singleton.mpr rfl)
    rw [List.foldl_append, List.foldl_cons, List.foldl_nil]
    generalize slots.foldl scheduleRound (s, best, place) = found at *
    obtain ⟨s', best', place'⟩ := found
    rcases scheduleRound_cases s' best' place' j with ⟨empty, result⟩ | ⟨t, there, sys, result⟩
    · rw [result]
      rw [rest.1] at empty
      have old (i : Fin taskTotal) (u : Word) (inside : i ∈ slots ++ [j]) (there : s.tasks i = some u) : i ∈ slots := by
        rcases List.mem_append.mp inside with before | last
        · exact before
        · rw [List.mem_singleton.mp last, empty] at there
          cases there
      exact ⟨rest, fun i u inside there => listed i u (old i u inside there) there,
        fun u away => unlisted u fun i inside => away i (List.mem_append_left _ inside),
        fun i u inside there => most i u (old i u inside there) there, above, chosen⟩
    · -- Slot `j` is the only one that names `t`, so the loop has not come to it before.
      rw [rest.1] at there
      have other (i : Fin taskTotal) (u : Word) (inside : i ∈ slots) (listed : s.tasks i = some u) : u ≠ t := by
        rintro rfl
        exact new i inside (once i j u listed there)
      have fresh : s'.task t = s.task t := unlisted t fun i inside same => other i t inside same rfl
      rw [fresh] at sys result
      have best₁ : best' ≤ (scheduleRound (s', best', place') j).2.1 ∧ ((s.task t).state = .running →
          (s.task t).aged.counter ≤ (scheduleRound (s', best', place') j).2.1) := by
        rcases result with ⟨_, more, here⟩ | ⟨less, here⟩
        · rw [here]
          exact ⟨le_of_lt more, fun _ => le_refl _⟩
        · rw [here]
          exact ⟨le_refl _, less⟩
      refine ⟨?_, fun i u inside there' => ?_, fun u away => ?_, fun i u inside there' running => ?_, ?_, ?_⟩
      · rw [sys]
        exact rest
      · rw [sys]
        rcases List.mem_append.mp inside with before | last
        · rw [s'.setTask_other t u _ (other i u before there')]
          exact listed i u before there'
        · rw [List.mem_singleton.mp last, there] at there'
          rw [← Option.some.inj there', Sys.setTask_self]
      · have apart : u ≠ t := by
          rintro rfl
          exact away j (by simp) there
        rw [sys, s'.setTask_other t u _ apart]
        exact unlisted u fun i inside => away i (List.mem_append_left _ inside)
      · rcases List.mem_append.mp inside with before | last
        · exact (most i u before there' running).trans best₁.1
        · rw [List.mem_singleton.mp last, there] at there'
          obtain rfl := Option.some.inj there'
          exact best₁.2 running
      · exact above.trans best₁.1
      · rcases result with ⟨running, _, here⟩ | ⟨_, here⟩
        · rw [here]
          exact .inr ⟨t, there, running, rfl⟩
        · rw [here]
          exact chosen

-- A counter as task_schedule takes it: that of the current task starts again from zero.
def Sys.age (s : Sys) (t : Word) : Int := if t = s.current then 0 else (s.task t).counter

/-- A call of task_schedule that switches to `t`. -/
structure Scheduled (s s' : Sys) (t : Word) : Prop where
  live : s.Live t
  running : (s.task t).state = .running
  most : ∀ u, s.Live u → (s.task u).state = .running →
    s.age u + (s.task u).priority ≤ s.age t + (s.task t).priority
  current : s'.current = t
  tasks : s'.tasks = s.tasks
  state : ∀ u, (s'.task u).state = (s.task u).state
  priority : ∀ u, (s'.task u).priority = (s.task u).priority
  counter : ∀ u, s.Live u → u ≠ t → (s'.task u).counter = s.age u + (s.task u).priority

/-- With a running task in the array, task_schedule switches to one of those with the greatest counter. -/
theorem taskSchedule_scheduled (s : Sys) (once : s.Once) (nonneg : ∀ t, s.Live t → 0 ≤ s.age t + (s.task t).priority)
    (ready : ∃ t, s.Live t ∧ (s.task t).state = .running) :
    ∃ s' t, taskSchedule s = .ok s' ∧ Scheduled s s' t := by
  unfold taskSchedule
  simp only []
  set s₀ := s.setTask s.current { s.currentTask with counter := 0, preemptCount := s.currentTask.preemptCount + 1 }
    with start
  have fields (u : Word) : (s₀.task u).state = (s.task u).state ∧ (s₀.task u).priority = (s.task u).priority ∧
      (s₀.task u).counter = s.age u := by
    rw [start, Sys.setTask, Sys.age]
    by_cases here : u = s.current
    · simp [here, Sys.currentTask]
    · simp [here]
  have aged (u : Word) : (s₀.task u).aged.counter = s.age u + (s.task u).priority := by
    rw [Task.aged, (fields u).2.2, (fields u).2.1]
  obtain ⟨rest, listed, unlisted, most, above, chosen⟩ :=
    scheduleRounds s₀ once (-1) 0 (List.finRange taskTotal) (List.nodup_finRange _)
  generalize (List.finRange taskTotal).foldl scheduleRound (s₀, -1, 0) = found at *
  obtain ⟨s₁, best, place⟩ := found
  simp only [] at *
  obtain ⟨r, ⟨j, there⟩, running⟩ := ready
  have high := most j r (List.mem_finRange j) there ((fields r).1.trans running)
  rw [aged] at high
  have positive := nonneg r ⟨j, there⟩
  rcases chosen with same | ⟨t, here, ready, equal⟩
  · rw [(Prod.mk.inj same).1] at high
    omega
  have here₁ : s₁.tasks place = some t := by
    rw [rest.1]
    exact here
  have kept (u : Word) : (s₁.task u).state = (s.task u).state ∧ (s₁.task u).priority = (s.task u).priority := by
    by_cases inside : ∃ i, s.tasks i = some u
    · obtain ⟨i, at'⟩ := inside
      rw [listed i u (List.mem_finRange i) at']
      exact ⟨(fields u).1, (fields u).2.1⟩
    · rw [unlisted u fun i _ same => inside ⟨i, same⟩]
      exact ⟨(fields u).1, (fields u).2.1⟩
  rw [here₁]
  refine ⟨_, t, rfl, ⟨place, here⟩, (fields t).1.symm.trans ready, ?_, rfl, rest.1, ?_, ?_, ?_⟩
  · rintro u ⟨i, at'⟩ running'
    have below := most i u (List.mem_finRange i) at' ((fields u).1.trans running')
    rw [← equal, aged, aged] at below
    exact below
  · intro u
    by_cases same : u = t
    · simp [Sys.setTask, same, (kept t).1]
    · simp [Sys.setTask, same, (kept u).1]
  · intro u
    by_cases same : u = t
    · simp [Sys.setTask, same, (kept t).2]
    · simp [Sys.setTask, same, (kept u).2]
  · rintro u ⟨i, at'⟩ other
    simp only [Sys.setTask, other, if_false]
    rw [listed i u (List.mem_finRange i) at', aged]

end Anthill
