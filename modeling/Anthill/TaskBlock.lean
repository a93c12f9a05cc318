import Anthill.TaskFamily

set_option autoImplicit false

namespace Anthill

-- Every empty slot lies behind a slot of the task with the pid.
def Sys.Reaches (s : Sys) (pid : Int) : Prop :=
  ∀ i, s.tasks i = none → ∃ j, j < i ∧ ∃ t, s.tasks j = some t ∧ (s.task t).pid = pid

/-- A call that comes back, with no state changed but that of the task with the pid. -/
def Sys.Careful (s : Sys) (pid : Int) (result : Except Halt Sys) : Prop :=
  ∃ s', result = .ok s' ∧ ∀ t, (s'.task t).state ≠ (s.task t).state → s.Live t ∧ (s.task t).pid = pid

/-- init_task has the first slot, and no parent. -/
structure Rooted (init : Word) (s : Sys) : Prop where
  first : s.tasks 0 = some init
  parent : (s.task init).parent = 0

theorem taskFind_ok (s : Sys) (pid : Int) (slots : List (Fin taskTotal)) (sorted : slots.Pairwise (· < ·)) :
    (∃ found, s.taskFind pid slots = .ok found) ↔
      ∀ i, i ∈ slots → s.tasks i = none →
        ∃ j, j ∈ slots ∧ j < i ∧ ∃ t, s.tasks j = some t ∧ (s.task t).pid = pid := by
  induction slots with
  | nil => simp [Sys.taskFind]
  | cons a slots ih =>
    obtain ⟨behind, rest⟩ := List.pairwise_cons.mp sorted
    rw [Sys.taskFind]
    cases there : s.tasks a with
    | none =>
      constructor
      · rintro ⟨_, found⟩
        cases found
      · intro reached
        obtain ⟨j, member, before, _⟩ := reached a List.mem_cons_self there
        rcases List.mem_cons.mp member with rfl | later
        · exact absurd before (lt_irrefl _)
        · exact absurd (before.trans (behind j later)) (lt_irrefl _)
    | some t =>
      simp only []
      split
      · next same =>
        refine ⟨fun _ i member empty => ⟨a, List.mem_cons_self, ?_, t, there, same⟩, fun _ => ⟨_, rfl⟩⟩
        rcases List.mem_cons.mp member with rfl | later
        · rw [there] at empty
          cases empty
        · exact behind i later
      · next different =>
        rw [ih rest]
        constructor
        · intro reached i member empty
          rcases List.mem_cons.mp member with rfl | later
          · rw [there] at empty
            cases empty
          · obtain ⟨j, inside, before, at'⟩ := reached i later empty
            exact ⟨j, List.mem_cons_of_mem _ inside, before, at'⟩
        · intro reached i later empty
          obtain ⟨j, inside, before, u, at', pid'⟩ := reached i (List.mem_cons_of_mem _ later) empty
          rcases List.mem_cons.mp inside with rfl | inside
          · rw [there] at at'
            obtain rfl := Option.some.inj at'
            exact absurd pid' different
          · exact ⟨j, inside, before, u, at', pid'⟩

theorem taskFind_reaches (s : Sys) (pid : Int) :
    (∃ found, s.taskFind pid (List.finRange taskTotal) = .ok found) ↔ s.Reaches pid := by
  rw [taskFind_ok s pid _ (List.pairwise_lt_finRange taskTotal)]
  simp only [List.mem_finRange, true_and, forall_const, Sys.Reaches]

theorem scheduleRounds_place (slots : List (Fin taskTotal)) (found : Sys × Int × Fin taskTotal)
    (place : found.1.tasks found.2.2 ≠ none) :
    (slots.foldl scheduleRound found).1.tasks (slots.foldl scheduleRound found).2.2 ≠ none := by
  induction slots generalizing found with
  | nil => exact place
  | cons i slots ih =>
    refine ih (scheduleRound found i) ?_
    obtain ⟨s, best, at'⟩ := found
    rcases scheduleRound_cases s best at' i with ⟨_, same⟩ | ⟨t, there, sys, ⟨_, _, chosen⟩ | ⟨_, kept⟩⟩
    · rwa [same]
    · rw [sys, chosen]
      show s.tasks i ≠ none
      rw [there]
      exact Option.some_ne_none t
    · rw [sys, kept]
      exact place

-- Without a task to run, the loop ends at the first slot.
theorem taskSchedule_first (s : Sys) (t : Word) (first : s.tasks 0 = some t) : ∃ s', taskSchedule s = .ok s' := by
  unfold taskSchedule
  simp only []
  have place := scheduleRounds_place (List.finRange taskTotal) (s.setTask s.current
    { s.currentTask with counter := 0, preemptCount := s.currentTask.preemptCount + 1 }, -1, 0) (by
      show s.tasks 0 ≠ none
      rw [first]
      exact Option.some_ne_none t)
  generalize (List.finRange taskTotal).foldl scheduleRound _ = found at *
  cases there : found.1.tasks found.2.2 with
  | none => exact absurd there place
  | some u => exact ⟨_, rfl⟩

theorem taskUnblock_careful (s : Sys) (pid : Int) (state : TaskState) :
    s.Careful pid (s.taskUnblock pid state) ↔ s.Reaches pid := by
  rw [← taskFind_reaches, Sys.taskUnblock]
  cases result : s.taskFind pid (List.finRange taskTotal) with
  | error halt =>
    constructor
    · rintro ⟨_, done, _⟩
      cases done
    · rintro ⟨_, done⟩
      cases done
  | ok found =>
    refine ⟨fun _ => ⟨found, rfl⟩, fun _ => ?_⟩
    cases found with
    | none => exact ⟨s, rfl, fun _ changed => absurd rfl changed⟩
    | some t =>
      refine ⟨_, rfl, fun u changed => ?_⟩
      obtain rfl : u = t := by
        by_contra other
        split at changed
        · rw [Sys.setTask_other s t u _ other] at changed
          exact changed rfl
        · exact changed rfl
      exact taskFind_some s pid _ u result

theorem taskBlock_careful (s : Sys) (init : Word) (first : s.tasks 0 = some init) (pid : Int) (state : TaskState) :
    s.Careful pid (s.taskBlock pid state) ↔ s.Reaches pid := by
  rw [← taskFind_reaches, Sys.taskBlock]
  cases result : s.taskFind pid (List.finRange taskTotal) with
  | error halt =>
    constructor
    · rintro ⟨_, done, _⟩
      cases done
    · rintro ⟨_, done⟩
      cases done
  | ok found =>
    refine ⟨fun _ => ⟨found, rfl⟩, fun _ => ?_⟩
    cases found with
    | none =>
      obtain ⟨s', done⟩ := taskSchedule_first s init first
      exact ⟨s', done, fun u changed => absurd ((taskSchedule_same s s' done).2.2 u) changed⟩
    | some t =>
      obtain ⟨s', done⟩ := taskSchedule_first (s.setTask t { s.task t with
        state := state, preemptCount := (s.task t).preemptCount - 1 }) init first
      refine ⟨s', done, fun u changed => ?_⟩
      rw [(taskSchedule_same _ s' done).2.2 u] at changed
      obtain rfl : u = t := by
        by_contra other
        rw [Sys.setTask_other s t u _ other] at changed
        exact changed rfl
      exact taskFind_some s pid _ u result

theorem Rooted.same {init : Word} {s s' : Sys} (rooted : Rooted init s) (same : SameFamily s s') : Rooted init s' where
  first := same.tasks ▸ rooted.first
  parent := (same.kin init).parent.trans rooted.parent

theorem Rooted.round {init : Word} {s s' : Sys} (rooted : Rooted init s) (done : taskExitRound init s = .ok s') :
    Rooted init s' := by
  rcases taskExitRound_cases init s s' done with ⟨same, _⟩ | ⟨_, exited⟩
  · exact rooted.same same
  · refine ⟨?_, (exited.parent init).trans rooted.parent⟩
    have away : init ≠ s.current := by
      rintro rfl
      exact exited.orphan rooted.parent
    rw [exited.tasks]
    unfold taskRemove
    cases found : firstSlot fun i => s.tasks i = some s.current with
    | none => exact rooted.first
    | some i =>
      have here : s.tasks i = some s.current := by simpa using firstSlot_some _ i found
      have other : (0 : Fin taskTotal) ≠ i := by
        rintro rfl
        rw [rooted.first] at here
        exact away (Option.some.inj here)
      simp only [Function.update_of_ne other, rooted.first]

theorem Rooted.fork {init : Word} {s : Sys} (rooted : Rooted init s) (held : ¬ Free s.kernel init) :
    Rooted init (taskFork s).2 := by
  have fields : (taskFork s).2.tasks 0 = some init ∧ ((taskFork s).2.task init).parent = 0 := by
    have start : (s.setTask s.current
        { s.currentTask with preemptCount := s.currentTask.preemptCount + 1 }).kernel = s.kernel := rfl
    unfold taskFork
    simp only [start]
    cases alloc : forkAlloc s.kernel with
    | error failed =>
      refine ⟨rooted.first, ?_⟩
      by_cases here : init = s.current
      · subst here
        simpa [Sys.setTask, Sys.currentTask] using rooted.parent
      · simpa [Sys.setTask, here] using rooted.parent
    | ok made =>
      have apart : init ≠ made.1.task := by
        rintro rfl
        exact held (forkAlloc_free s.kernel made.2 made.1 alloc)
      refine ⟨taskAdd_keeps s.tasks made.1.task init 0 rooted.first, ?_⟩
      by_cases here : init = s.current
      · subst here
        simpa [Sys.setTask, Sys.currentTask] using rooted.parent
      · simpa [Sys.setTask, here, apart] using rooted.parent
  exact ⟨fields.1, fields.2⟩

theorem Rooted.next {init : Word} {s s' : Sys} (rooted : Rooted init s) (held : ¬ Free s.kernel init)
    (call : FamilyCall) (done : call.act init s = .ok s') : Rooted init s' := by
  cases call with
  | fork =>
    obtain rfl := Except.ok.inj done
    exact rooted.fork held
  | exit =>
    have start := SameFamily.setTask s s.current { s.currentTask with
      preemptCount := s.currentTask.preemptCount + 1 } ⟨rfl, rfl, rfl, rfl, rfl⟩
    exact (rooted.same start).round done
  | resume => exact rooted.round done
  | schedule => exact rooted.same (taskSchedule_same s s' done).1
  | tick =>
    have start := SameFamily.setTask s s.current { s.currentTask with counter := s.currentTask.counter - 1 }
      ⟨rfl, rfl, rfl, rfl, rfl⟩
    simp only [FamilyCall.act, taskTick] at done
    split at done
    · obtain rfl := Except.ok.inj done
      exact rooted.same start
    · exact (rooted.same start).same (taskSchedule_same _ s' done).1

/-- In every array that task_fork and task_exit reach, task_block and task_unblock are safe for a pid exactly when
the loop meets no empty slot on its way. -/
theorem block_careful (init : Word) (s₀ s : Sys) (lone : Lone init s₀)
    (run : Run (fun s (call : FamilyCall) s' => call.act init s = .ok s') (fun s _ => ¬ Free s.kernel init) s₀ s)
    (pid : Int) (state : TaskState) :
    (s.Careful pid (s.taskUnblock pid state) ↔ s.Reaches pid) ∧
      (s.Careful pid (s.taskBlock pid state) ↔ s.Reaches pid) := by
  have start : Rooted init s₀ := ⟨by rw [lone.tasks]; exact Function.update_self .., lone.task.2.1⟩
  have rooted : Rooted init s := run.invariant (Rooted init) start
    fun s call s' rooted held done => rooted.next held call done
  exact ⟨taskUnblock_careful s pid state, taskBlock_careful s init rooted.first pid state⟩

theorem teardownLoop_empty (round : Kernel → Idx → Except Halt (KernErr × Kernel)) (k : Kernel) (idx : List Idx)
    (nothing : ∀ i, round k i = .ok (.ok, k)) : teardownLoop round idx k = .ok (.ok, k) := by
  induction idx with
  | nil => rfl
  | cons i idx ih => rw [teardownLoop, nothing i, whenOk, ih]

theorem memTableTeardown_empty (k : Kernel) (table : Word) (empty : ∀ i, mmuIsValid (k.mem table i) = false) :
    memTableTeardown k table = .ok (.ok, k) :=
  teardownLoop_empty _ k _ fun i => by simp [teardownRound, empty i]

theorem exitFree_empty (s : Sys) (wf : KernelWf s.kernel) (empty : ∀ i, mmuIsValid (s.kernel.mem (s.table s.current) i) = false)
    (owned : ∀ p, p ∈ [s.table s.current, s.currentTask.kernelStack, s.current] →
      Backed s.kernel p ∧ ¬ KernelTable s.kernel p)
    (distinct : [s.table s.current, s.currentTask.kernelStack, s.current].Nodup) : ∃ k, exitFree s = .ok k := by
  simp only [List.mem_cons, List.not_mem_nil, or_false, forall_eq_or_imp, forall_eq] at owned
  obtain ⟨table, stack, task⟩ := owned
  simp only [List.nodup_cons, List.mem_cons, List.not_mem_nil, or_false, not_or, not_false_eq_true, List.nodup_nil,
    and_true] at distinct
  obtain ⟨⟨tableStack, tableTask⟩, stackTask⟩ := distinct
  obtain ⟨k₁, freed₁, first⟩ := memKernelFreePage_spec s.kernel wf _ table.1 table.2
  obtain ⟨k₂, freed₂, second⟩ := memKernelFreePage_spec k₁ first.wf s.currentTask.kernelStack
    (first.backed _ stack.1 (Ne.symm tableStack)) fun kernel => stack.2 ((first.tables _).mp kernel)
  obtain ⟨k₃, freed₃, _⟩ := memKernelFreePage_spec k₂ second.wf s.current
    (second.backed _ (first.backed _ task.1 (Ne.symm tableTask)) (Ne.symm stackTask))
    fun kernel => task.2 ((first.tables _).mp ((second.tables _).mp kernel))
  refine ⟨k₃, ?_⟩
  simp only [exitFree, bind, Except.bind, memTableTeardown_empty s.kernel _ empty, orPanic, freed₁, freed₂, freed₃]

-- init_task forks, and its child runs.
structure Child (s : Sys) (child : Word) : Prop where
  run : Run (fun s (call : FamilyCall) s' => call.act (poolVa 10) s = .ok s') (fun s _ => ¬ Free s.kernel (poolVa 10))
    (loneInit forkPages) s
  current : s.current = child
  apart : child ≠ poolVa 10
  task : (s.task child).pid = 2 ∧ (s.task child).parent = poolVa 10 ∧ (s.task child).childrenNo = 0
  init : (s.task (poolVa 10)).pid = 0
  once : s.Once
  tasks : ∃ i, i ≠ 0 ∧ s.tasks = Function.update (loneInit forkPages).tasks i (some child)
  wf : KernelWf s.kernel
  empty : ∀ i, mmuIsValid (s.kernel.mem (s.table child) i) = false
  owned : ∀ p, p ∈ [s.table child, (s.task child).kernelStack, child] → Backed s.kernel p ∧ ¬ KernelTable s.kernel p
  distinct : [s.table child, (s.task child).kernelStack, child].Nodup

theorem loneInit_table : (loneInit forkPages).table (poolVa 10) = poolVa 4 := rfl

theorem loneInit_row (i : Idx) : (loneInit forkPages).kernel.mem (poolVa 4) i = 0 :=
  machine_user [] forkPages (poolVa 4) i (by decide +kernel)

theorem child_runs : ∃ s child, Child s child := by
  have forks := loneInit_start
  have lone := loneInit_lone forkPages
  have system := loneInit_system forkPages forkPages_inside
  obtain ⟨pages, k, worked, -⟩ := forks.alloc (by omega)
  have free := forkAlloc_free _ k pages worked
  have held : ¬ (loneInit forkPages).Live pages.task := fun live => system.structs _ live free
  have apart : (loneInit forkPages).current ≠ pages.task := fun same => held (same ▸ forks.family.current)
  obtain ⟨family, i, tasks, empty⟩ := forks.family.fork worked held free.nonzero (forks.room (by omega))
  obtain ⟨-, kernel, -, current, tables⟩ := taskFork_works _ pages k worked apart
  have intact : ¬ Free (taskFork (loneInit forkPages)).2.kernel (poolVa 10) := by
    obtain ⟨_, after⟩ := (forks.next (by omega)).system
    exact after.structs _ family.init.1
  have child := taskFork_child worked apart
  have parent := taskFork_others worked (poolVa 10) apart
  rw [if_pos lone.current.symm] at parent
  have live (t : Word) (live : (taskFork (loneInit forkPages)).2.Live t) : t = pages.task ∨ t = poolVa 10 := by
    obtain ⟨j, there⟩ := live
    rw [tasks] at there
    by_cases here : j = i
    · rw [here, Function.update_self] at there
      exact .inl (Option.some.inj there).symm
    · rw [Function.update_of_ne here] at there
      exact .inr ((lone.live t).mp ⟨j, there⟩)
  have memory : KernelWf (taskFork (loneInit forkPages)).2.kernel ∧
      (∀ i, mmuIsValid ((taskFork (loneInit forkPages)).2.kernel.mem pages.table i) = false) ∧
      (∀ p, p ∈ [pages.table, pages.stack, pages.task] → Backed (taskFork (loneInit forkPages)).2.kernel p ∧
        ¬ KernelTable (taskFork (loneInit forkPages)).2.kernel p) ∧ [pages.table, pages.stack, pages.task].Nodup := by
    rcases forkAlloc_spec _ system.wf with ⟨pages', k', worked', -, taken⟩ | ⟨_, _, failed, -⟩
    · rw [worked] at worked'
      cases worked'
      have root := system.roots _ system.running
      have distinct := taken.distinct
      rw [kernel]
      have same : SameKernel k (forkCopy k pages (loneInit forkPages).currentTask.kernelStack
        ((loneInit forkPages).table (loneInit forkPages).current)) := forkCopy_same system.layout root taken
      have forked : Forked (loneInit forkPages).kernel (forkCopy k pages (loneInit forkPages).currentTask.kernelStack
          ((loneInit forkPages).table (loneInit forkPages).current)) _
          ((loneInit forkPages).table (loneInit forkPages).current) pages.table :=
        forkCopy_forked system.layout root taken
      refine ⟨forked.wf, fun j => ?_, fun p member => ?_, ?_⟩
      · rw [forked.copy, lone.current, loneInit_table, loneInit_row]
        decide
      · obtain ⟨_, used, backed⟩ := taken.fresh p (by simp only [List.mem_cons] at member ⊢; tauto)
        exact ⟨same.backs backed, fun table => used.2 ((same.kernelTable p).mp table)⟩
      · simp only [List.nodup_cons, List.mem_cons, List.not_mem_nil, or_false, not_or] at distinct ⊢
        obtain ⟨⟨stackTable, stackTask⟩, tableTask, rest⟩ := distinct
        exact ⟨⟨Ne.symm stackTable, tableTask⟩, stackTask, rest⟩
    · rw [worked] at failed
      cases failed
  have table := tables pages.task
  rw [if_pos rfl] at table
  have forkRun : Run (fun s (call : FamilyCall) s' => call.act (poolVa 10) s = .ok s')
      (fun s _ => ¬ Free s.kernel (poolVa 10)) (loneInit forkPages) (taskFork (loneInit forkPages)).2 :=
    .next _ _ .fork .start (system.structs _ ((lone.live _).mpr rfl)) rfl
  generalize (taskFork (loneInit forkPages)).2 = s at *
  have ages : s.age pages.task = 1 ∧ s.age (poolVa 10) = 0 := by
    rw [Sys.age, Sys.age, if_neg (by rw [current]; exact apart.symm), if_pos (by rw [current]; rfl), child]
    exact ⟨rfl, rfl⟩
  have priorities : (s.task pages.task).priority = 1 ∧ (s.task (poolVa 10)).priority = 1 := by
    rw [child, parent]
    exact ⟨rfl, rfl⟩
  obtain ⟨s', t, done, scheduled⟩ := taskSchedule_scheduled s family.once (fun t here => by
    rcases live t here with rfl | rfl
    · rw [ages.1, priorities.1]
      decide
    · rw [ages.2, priorities.2]
      decide) ⟨pages.task, ⟨i, by rw [tasks]; exact Function.update_self ..⟩, by rw [child]; rfl⟩
  obtain rfl : t = pages.task := by
    rcases live t scheduled.live with rfl | rfl
    · rfl
    · have most := scheduled.most pages.task ⟨i, by rw [tasks]; exact Function.update_self ..⟩ (by rw [child]; rfl)
      rw [ages.1, ages.2, priorities.1, priorities.2] at most
      exact absurd most (by decide)
  have kin := (taskSchedule_same s s' done).1
  have sameTable : s'.table pages.task = pages.table := by rw [Sys.table, (kin.kin _).tranTable]; exact table
  have sameStack : (s'.task pages.task).kernelStack = pages.stack := by rw [(kin.kin _).kernelStack, child]
  refine ⟨s', pages.task, .next s s' .schedule forkRun intact done, scheduled.current, apart.symm, ?_, ?_, ?_,
    ⟨i, ?_, ?_⟩, ?_, ?_, ?_, ?_⟩
  · rw [(kin.kin _).pid, (kin.kin _).parent, (kin.kin _).childrenNo, child]
    exact ⟨rfl, rfl, rfl⟩
  · rw [(kin.kin _).pid, parent]
    rfl
  · intro a b t
    rw [scheduled.tasks]
    exact family.once a b t
  · rintro rfl
    rw [lone.tasks] at empty
    cases empty
  · rw [scheduled.tasks, tasks]
  · rw [kin.kernel]
    exact memory.1
  · rw [kin.kernel, sameTable]
    exact memory.2.1
  · rw [kin.kernel, sameTable, sameStack]
    exact memory.2.2.1
  · rw [sameTable, sameStack]
    exact memory.2.2.2

theorem taskFind_fault (s : Sys) (pid : Int) (slots : List (Fin taskTotal)) (halt : Halt)
    (failed : s.taskFind pid slots = .error halt) : halt = .fault := by
  induction slots with
  | nil => cases failed
  | cons i slots ih =>
    rw [Sys.taskFind] at failed
    cases there : s.tasks i with
    | none =>
      rw [there] at failed
      cases failed
      rfl
    | some t =>
      rw [there] at failed
      simp only at failed
      split at failed
      · cases failed
      · exact ih failed

theorem Child.exits {s : Sys} {child : Word} (runs : Child s child) : ∃ s', taskExit (poolVa 10) s = .ok s' ∧
    s'.tasks = (loneInit forkPages).tasks ∧ (s'.task (poolVa 10)).pid = 0 := by
  obtain ⟨-, current, apart, ⟨pid, parent, childrenNo⟩, init, once, ⟨i, away, tasks⟩, wf, empty, owned,
    distinct⟩ := runs
  have lone := loneInit_lone forkPages
  -- The system when the parent is to be woken.
  set s₁ := s.setTask s.current { s.currentTask with preemptCount := s.currentTask.preemptCount + 1 } with entered
  have task₁ : s₁.currentTask = { s.task child with preemptCount := (s.task child).preemptCount + 1 } := by
    rw [entered, Sys.currentTask, ← current]
    exact Sys.setTask_self ..
  have others₁ (t : Word) (other : t ≠ child) : s₁.task t = s.task t := by
    rw [entered, Sys.setTask_other _ _ _ _ (by rwa [current])]
  set s₂ := s₁.setTask (poolVa 10) { s₁.task (poolVa 10) with childrenNo := (s₁.task (poolVa 10)).childrenNo - 1 }
    with counted
  have task₂ : s₂.task child = { s.task child with preemptCount := (s.task child).preemptCount + 1 } := by
    rw [counted, Sys.setTask_other _ _ _ _ apart, ← task₁, Sys.currentTask, entered, ← current]
    rfl
  have pid₂ : (s₂.task (poolVa 10)).pid = 0 := by
    rw [counted, Sys.setTask_self, others₁ _ apart.symm]
    exact init
  have first : s₂.tasks 0 = some (poolVa 10) := by
    show s.tasks 0 = some (poolVa 10)
    rw [tasks, Function.update_of_ne away.symm, lone.tasks]
    exact Function.update_self ..
  have reaches : s₂.Reaches 0 := by
    intro j none
    refine ⟨0, Fin.pos_of_ne_zero ?_, poolVa 10, first, pid₂⟩
    rintro rfl
    rw [first] at none
    cases none
  obtain ⟨s₃, woken, -⟩ := (taskUnblock_careful s₂ 0 .waiting).mpr reaches
  obtain ⟨same, current₃⟩ := taskUnblock_same s₂ s₃ 0 .waiting woken
  have current₃ : s₃.current = child := current₃.trans current
  have table : s₃.table s₃.current = s.table child := by
    rw [Sys.table, current₃, (same.kin child).tranTable, task₂]
    rfl
  have stack : s₃.currentTask.kernelStack = (s.task child).kernelStack := by
    rw [Sys.currentTask, current₃, (same.kin child).kernelStack, task₂]
  have kernel : s₃.kernel = s.kernel := same.kernel
  obtain ⟨k, freed⟩ := exitFree_empty s₃ (kernel ▸ wf) (by rwa [table, kernel])
    (by rwa [table, stack, current₃, kernel]) (by rwa [table, stack, current₃])
  have ends : ∃ s', taskExitEnd (poolVa 10) s₁ = .ok s' := by
    rw [taskExitEnd, task₁]
    simp only [parent, bind, Except.bind, ← counted, pid₂, woken, freed]
    exact ⟨_, rfl⟩
  obtain ⟨s', ended⟩ := ends
  obtain ⟨-, tasks', -, -, pids, -⟩ := taskExitEnd_done (poolVa 10) s₁ s' ended
  refine ⟨s', ?_, ?_, ?_⟩
  · rw [taskExit, ← entered, taskExitRound, task₁, if_neg (by simp [childrenNo])]
    exact ended
  · have there : s.tasks i = some s.current := by rw [tasks, Function.update_self, current]
    rw [tasks', show taskRemove s₁.tasks s₁.current = taskRemove s.tasks s.current from rfl,
      taskRemove_once s once i _ there, tasks, Function.update_idem]
    have nothing : (loneInit forkPages).tasks i = none := by rw [lone.tasks, Function.update_of_ne away]
    rw [← nothing, Function.update_eq_self]
  · rw [pids, others₁ _ apart.symm]
    exact init

theorem block_careful_child : ∃ s child, Child s child ∧ ∀ pid state,
    (s.Careful pid (s.taskUnblock pid state) ↔ s.Reaches pid) ∧
      (s.Careful pid (s.taskBlock pid state) ↔ s.Reaches pid) := by
  obtain ⟨s, child, runs⟩ := child_runs
  exact ⟨s, child, runs, block_careful (poolVa 10) (loneInit forkPages) s (loneInit_lone forkPages) runs.run⟩

/-- Behind the only task, the pid of a child that has exited leads to an empty slot. -/
theorem exited_faults : ∃ s₀ s₁ s, Lone (poolVa 10) s₀ ∧
    Run (fun s (call : FamilyCall) s' => call.act (poolVa 10) s = .ok s') (fun s _ => ¬ Free s.kernel (poolVa 10)) s₀ s₁ ∧
    s₁.currentTask.pid = 2 ∧ taskExit (poolVa 10) s₁ = .ok s ∧
    ∀ state, s.taskUnblock 2 state = .error .fault ∧ s.taskBlock 2 state = .error .fault := by
  obtain ⟨s₁, child, runs⟩ := child_runs
  obtain ⟨s, exited, tasks, pid⟩ := runs.exits
  have lone := loneInit_lone forkPages
  refine ⟨loneInit forkPages, s₁, s, lone, runs.run, ?_, exited, fun state => ?_⟩
  · rw [Sys.currentTask, runs.current]
    exact runs.task.1
  · have blocked : ¬ s.Reaches 2 := by
      intro reaches
      obtain ⟨j, before, t, there, pid'⟩ := reaches 1 (by rw [tasks, lone.tasks]; rfl)
      obtain rfl : j = 0 := Fin.ext (Nat.lt_one_iff.mp before)
      rw [tasks, lone.tasks, Function.update_self] at there
      rw [← Option.some.inj there, pid] at pid'
      exact absurd pid' (by decide)
    rw [← taskFind_reaches] at blocked
    cases result : s.taskFind 2 (List.finRange taskTotal) with
    | ok found => exact absurd ⟨found, result⟩ blocked
    | error halt =>
      rw [taskFind_fault s 2 _ halt result] at result
      simp only [Sys.taskUnblock, Sys.taskBlock, result, and_self]

end Anthill
