import Anthill.TaskExit

set_option autoImplicit false

namespace Anthill

open Radix

-- The slots of the tasks whose parent is `t`.
def Sys.childSlots (s : Sys) (t : Word) : Finset (Fin taskTotal) :=
  Finset.univ.filter fun i => (s.tasks i).map (fun u => (s.task u).parent) = some t

/-- No struct of a task of the array lies in a page that is marked free. -/
def Sys.Intact (s : Sys) : Prop := ∀ t, s.Live t → ¬ Free s.kernel t

inductive FamilyCall where
  | fork
  | exit
  -- A task that waits in task_exit is running again.
  | resume
  | schedule
  | tick
deriving DecidableEq

def FamilyCall.act (init : Word) (s : Sys) : FamilyCall → Except Halt Sys
  | .fork => .ok (taskFork s).2
  | .exit => taskExit init s
  | .resume => taskExitRound init s
  | .schedule => taskSchedule s
  | .tick => taskTick s

-- A task_fork that does not run out of pages finds a slot of the array and a pid.
def FamilyCall.Room (s : Sys) : FamilyCall → Prop
  | .fork => (∃ made, forkAlloc s.kernel = .ok made) → (∃ i, s.tasks i = none) ∧ s.taskCount < 2 ^ 63 - 1
  | _ => True

/-- init_task alone in the array. -/
structure Lone (init : Word) (s : Sys) : Prop where
  tasks : s.tasks = Function.update (fun _ => none) 0 (some init)
  current : s.current = init
  address : init ≠ 0
  task : (s.task init).pid = 0 ∧ (s.task init).parent = 0 ∧ (s.task init).childrenNo = 0
  taskCount : s.taskCount = 1

/-- What task_fork and task_exit keep up between the tasks of the array. -/
structure Family (init : Word) (s : Sys) : Prop where
  once : s.Once
  pids : ∀ t u, s.Live t → s.Live u → (s.task t).pid = (s.task u).pid → t = u
  counted : ∀ t, s.Live t → (s.task t).pid ≤ s.taskCount
  children : ∀ t, s.Live t → (s.task t).childrenNo = (s.childSlots t).card
  parents : ∀ t, s.Live t → (s.task t).parent ≠ 0 → s.Live (s.task t).parent ∧ (s.task t).parent ≠ t
  current : s.Live s.current
  init : s.Live init ∧ (s.task init).parent = 0
  address : ∀ t, s.Live t → t ≠ 0

theorem Lone.live {init : Word} {s : Sys} (lone : Lone init s) (t : Word) : s.Live t ↔ t = init := by
  simp only [Sys.Live, lone.tasks]
  constructor
  · rintro ⟨i, there⟩
    by_cases zero : i = 0
    · rw [zero, Function.update_self] at there
      exact (Option.some.inj there).symm
    · rw [Function.update_of_ne zero] at there
      cases there
  · rintro rfl
    exact ⟨0, Function.update_self ..⟩

theorem Lone.family {init : Word} {s : Sys} (lone : Lone init s) : Family init s where
  once i j t first second := by
    rw [lone.tasks] at first second
    have zero (k : Fin taskTotal) (there : Function.update (fun _ => none) 0 (some init) k = some t) : k = 0 := by
      by_contra other
      rw [Function.update_of_ne other] at there
      cases there
    rw [zero i first, zero j second]
  pids t u first second _ := by rw [(lone.live t).mp first, (lone.live u).mp second]
  counted t live := by
    rw [(lone.live t).mp live, lone.task.1, lone.taskCount]
    decide
  children t live := by
    obtain rfl := (lone.live t).mp live
    rw [lone.task.2.2]
    refine (Finset.card_eq_zero.mpr (Finset.filter_eq_empty_iff.mpr fun i _ same => ?_)).symm
    obtain ⟨u, there, parent⟩ := Option.map_eq_some_iff.mp same
    rw [(lone.live u).mp ⟨i, there⟩, lone.task.2.1] at parent
    exact lone.address parent.symm
  parents t live orphan := by
    rw [(lone.live t).mp live] at orphan
    exact absurd lone.task.2.1 orphan
  current := (lone.live _).mpr lone.current
  init := ⟨(lone.live _).mpr rfl, lone.task.2.1⟩
  address t live := by
    rw [(lone.live t).mp live]
    exact lone.address

theorem taskAdd_room (tasks : Fin taskTotal → Option Word) (ptr : Word) (room : ∃ i, tasks i = none) :
    ∃ i, tasks i = none ∧ taskAdd tasks ptr = Function.update tasks i (some ptr) := by
  unfold taskAdd
  cases first : firstSlot fun i => (tasks i).isNone with
  | none =>
    obtain ⟨i, empty⟩ := room
    have full := List.find?_eq_none.mp first i (List.mem_finRange i)
    simp [empty] at full
  | some i => exact ⟨i, by simpa using firstSlot_some _ i first, rfl⟩

theorem taskRemove_once (s : Sys) (once : s.Once) (i : Fin taskTotal) (ptr : Word) (there : s.tasks i = some ptr) :
    taskRemove s.tasks ptr = Function.update s.tasks i none := by
  unfold taskRemove
  cases first : firstSlot fun i => s.tasks i = some ptr with
  | none =>
    have none := List.find?_eq_none.mp first i (List.mem_finRange i)
    simp [there] at none
  | some j =>
    have here : s.tasks j = some ptr := by simpa using firstSlot_some _ j first
    rw [once j i ptr here there]

-- The family in a system in which only states and counters differ.
theorem Family.congr {init : Word} {s s' : Sys} (family : Family init s) (tasks : s'.tasks = s.tasks)
    (taskCount : s'.taskCount = s.taskCount) (kin : ∀ t, (s.task t).Kin (s'.task t)) (current : s'.Live s'.current) :
    Family init s' := by
  have live (t : Word) : s'.Live t ↔ s.Live t := by rw [Sys.Live, Sys.Live, tasks]
  have slots (t : Word) : s'.childSlots t = s.childSlots t := by
    simp only [Sys.childSlots, tasks, fun u => (kin u).parent]
  refine ⟨fun i j t first second => ?_, fun t u first second pids => ?_, fun t here => ?_, fun t here => ?_,
    fun t here orphan => ?_, current, ?_, fun t here => family.address t ((live t).mp here)⟩
  · rw [tasks] at first second
    exact family.once i j t first second
  · rw [(kin t).pid, (kin u).pid] at pids
    exact family.pids t u ((live t).mp first) ((live u).mp second) pids
  · rw [(kin t).pid, taskCount]
    exact family.counted t ((live t).mp here)
  · rw [(kin t).childrenNo, slots]
    exact family.children t ((live t).mp here)
  · rw [(kin t).parent] at orphan ⊢
    rw [live]
    exact family.parents t ((live t).mp here) orphan
  · rw [live, (kin init).parent]
    exact family.init

theorem memKernelAllocPage_free (k k' : Kernel) (perm : MemPerm) (va : Word)
    (taken : memKernelAllocPage k perm = (⟨va, .ok⟩, k')) : Free k va := by
  unfold memKernelAllocPage at taken
  cases attr : kernelAttr perm with
  | none =>
    rw [attr] at taken
    cases taken
  | some attr' =>
    rw [attr] at taken
    cases got : pmmGet k.memoryMap with
    | none =>
      rw [got] at taken
      cases taken
    | some found =>
      obtain ⟨page, map⟩ := found
      rw [got] at taken
      obtain ⟨n, inside, rfl, clear, -⟩ := pmmGet_some _ _ _ got
      simp only at taken
      have address : va = poolVa n := by
        generalize kernelInstall _ _ _ _ _ = installed at taken
        rcases installed with k₁ | ⟨level3, phys, k₁⟩
        · cases congrArg (fun r => r.1.err) taken
        · simp only at taken
          split_ifs at taken
          · rcases phys with _ | ⟨_ | page0, rest⟩ <;> cases congrArg (fun r => r.1.err) taken
          · exact (congrArg (fun r => r.1.addr) taken).symm
      exact ⟨n, inside, address, clear⟩

theorem forkAlloc_free (k k' : Kernel) (pages : ForkPages) (worked : forkAlloc k = .ok (pages, k')) :
    Free k pages.task := by
  unfold forkAlloc at worked
  split at worked
  · next task k₁ taken =>
    have free := memKernelAllocPage_free k k₁ .rw task taken
    split at worked
    · split at worked
      · cases worked
        exact free
      · cases worked
    · cases worked
  · cases worked

theorem forkAlloc_error (k : Kernel) (failed : KernErr × Kernel) (fails : forkAlloc k = .error failed) :
    failed.1 ≠ .ok := by
  unfold forkAlloc at fails
  split at fails
  · split at fails
    · split at fails
      · cases fails
      · next other _ =>
        cases fails
        exact other
    · next other _ =>
      cases fails
      exact other
  · next other _ =>
    cases fails
    exact other

section Fork

variable {init : Word} {s : Sys} (family : Family init s) {pages : ForkPages} {k : Kernel}
  (worked : forkAlloc s.kernel = .ok (pages, k)) (held : ¬ s.Live pages.task) (nonzero : pages.task ≠ 0)

include worked in
theorem taskFork_child (apart : s.current ≠ pages.task) : (taskFork s).2.task pages.task =
    { pid := s.taskCount + 1, kernelStack := pages.stack, parent := s.current, childrenNo := 0,
      tranTable := virtToPhys pages.table, state := s.currentTask.state,
      preemptCount := s.currentTask.preemptCount + 1, priority := s.currentTask.priority,
      counter := s.currentTask.priority } := by
  have same : forkAlloc (s.setTask s.current
      { s.currentTask with preemptCount := s.currentTask.preemptCount + 1 }).kernel = .ok (pages, k) := worked
  unfold taskFork
  simp only [same]
  simp [Sys.setTask, Sys.currentTask, apart.symm]

include worked in
theorem taskFork_others (u : Word) (other : u ≠ pages.task) : (taskFork s).2.task u =
    if u = s.current then { s.currentTask with childrenNo := s.currentTask.childrenNo + 1 } else s.task u := by
  have same : forkAlloc (s.setTask s.current
      { s.currentTask with preemptCount := s.currentTask.preemptCount + 1 }).kernel = .ok (pages, k) := worked
  unfold taskFork
  simp only [same]
  by_cases here : u = s.current
  · subst here
    simp [Sys.setTask, Sys.currentTask]
  · simp [Sys.setTask, here, other]

include worked in
theorem taskFork_task (u : Word) (apart : s.current ≠ pages.task) :
    (u = pages.task → ((taskFork s).2.task u).pid = s.taskCount + 1 ∧ ((taskFork s).2.task u).parent = s.current ∧
      ((taskFork s).2.task u).childrenNo = 0) ∧
    (u ≠ pages.task → ((taskFork s).2.task u).pid = (s.task u).pid ∧
      ((taskFork s).2.task u).parent = (s.task u).parent ∧
      ((taskFork s).2.task u).childrenNo = if u = s.current then (s.task u).childrenNo + 1 else (s.task u).childrenNo) := by
  constructor
  · rintro rfl
    rw [taskFork_child worked apart]
    exact ⟨rfl, rfl, rfl⟩
  · intro other
    rw [taskFork_others worked u other]
    by_cases here : u = s.current
    · subst here
      rw [if_pos rfl, if_pos rfl]
      exact ⟨rfl, rfl, rfl⟩
    · rw [if_neg here, if_neg here]
      exact ⟨rfl, rfl, rfl⟩

include worked in
theorem taskFork_count : (taskFork s).2.taskCount = s.taskCount + 1 := by
  have same : forkAlloc (s.setTask s.current
      { s.currentTask with preemptCount := s.currentTask.preemptCount + 1 }).kernel = .ok (pages, k) := worked
  unfold taskFork
  simp only [same]
  rfl

include family worked held nonzero in
theorem Family.fork (room : ∃ i, s.tasks i = none) : Family init (taskFork s).2 ∧
    ∃ i, (taskFork s).2.tasks = Function.update s.tasks i (some pages.task) ∧ s.tasks i = none := by
  have old (t : Word) (live : s.Live t) : t ≠ pages.task := by
    rintro rfl
    exact held live
  have apart := old _ family.current
  obtain ⟨-, -, tasks, current, -⟩ := taskFork_works s pages k worked apart
  have fields := fun u => taskFork_task worked u apart
  have count := taskFork_count worked
  obtain ⟨i, empty, added⟩ := taskAdd_room s.tasks pages.task room
  rw [added] at tasks
  generalize (taskFork s).2 = s' at *
  have live (t : Word) : s'.Live t ↔ t = pages.task ∨ s.Live t := by
    simp only [Sys.Live, tasks]
    constructor
    · rintro ⟨j, there⟩
      by_cases here : j = i
      · rw [here, Function.update_self] at there
        exact .inl (Option.some.inj there).symm
      · rw [Function.update_of_ne here] at there
        exact .inr ⟨j, there⟩
    · rintro (rfl | ⟨j, there⟩)
      · exact ⟨i, Function.update_self ..⟩
      · have other : j ≠ i := by
          rintro rfl
          rw [empty] at there
          cases there
        exact ⟨j, by rwa [Function.update_of_ne other]⟩
  have slots (t : Word) : s'.childSlots t = if t = s.current then insert i (s.childSlots t) else s.childSlots t := by
    ext j
    by_cases here : j = i
    · subst here
      have new : (s'.tasks j).map (fun u => (s'.task u).parent) = some s.current := by
        rw [tasks, Function.update_self, Option.map_some, ((fields pages.task).1 rfl).2.1]
      have before : j ∉ s.childSlots t := by simp [Sys.childSlots, empty]
      rw [Sys.childSlots, Finset.mem_filter, new]
      split
      · next same => simp [same]
      · next same => simp [before, Ne.symm same]
    · have kept : (s'.tasks j).map (fun u => (s'.task u).parent) = (s.tasks j).map fun u => (s.task u).parent := by
        rw [tasks, Function.update_of_ne here]
        cases there : s.tasks j with
        | none => rfl
        | some u => rw [Option.map_some, Option.map_some, ((fields u).2 (old u ⟨j, there⟩)).2.1]
      simp only [Sys.childSlots, Finset.mem_filter, Finset.mem_univ, true_and, kept]
      split <;> simp [here]
  refine ⟨⟨fun a b t first second => ?_, fun t u first second same => ?_, fun t here => ?_, fun t here => ?_,
    fun t here orphan => ?_, ?_, ?_, fun t here => ?_⟩, i, tasks, empty⟩
  · rw [tasks] at first second
    by_cases inA : a = i <;> by_cases inB : b = i
    · rw [inA, inB]
    · rw [inA, Function.update_self] at first
      rw [Function.update_of_ne inB] at second
      exact absurd (Option.some.inj first).symm (old t ⟨b, second⟩)
    · rw [inB, Function.update_self] at second
      rw [Function.update_of_ne inA] at first
      exact absurd (Option.some.inj second).symm (old t ⟨a, first⟩)
    · rw [Function.update_of_ne inA] at first
      rw [Function.update_of_ne inB] at second
      exact family.once a b t first second
  · have above (v : Word) (there : s.Live v) : (s.task v).pid ≠ s.taskCount + 1 := by
      have bound := family.counted v there
      omega
    rcases (live t).mp first with rfl | first <;> rcases (live u).mp second with rfl | second
    · rfl
    · rw [((fields _).1 rfl).1, ((fields u).2 (old u second)).1] at same
      exact absurd same.symm (above u second)
    · rw [((fields _).1 rfl).1, ((fields t).2 (old t first)).1] at same
      exact absurd same (above t first)
    · rw [((fields t).2 (old t first)).1, ((fields u).2 (old u second)).1] at same
      exact family.pids t u first second same
  · rw [count]
    rcases (live t).mp here with rfl | here
    · rw [((fields _).1 rfl).1]
    · rw [((fields t).2 (old t here)).1]
      exact (family.counted t here).trans (by omega)
  · rw [slots]
    rcases (live t).mp here with rfl | here
    · -- Nobody in the array has the child's struct as parent yet.
      rw [if_neg apart.symm, ((fields _).1 rfl).2.2]
      refine (Finset.card_eq_zero.mpr (Finset.filter_eq_empty_iff.mpr fun j _ same => ?_)).symm
      obtain ⟨u, there, parent⟩ := Option.map_eq_some_iff.mp same
      have orphan : (s.task u).parent ≠ 0 := by rwa [parent]
      have known := (family.parents u ⟨j, there⟩ orphan).1
      rw [parent] at known
      exact held known
    · rw [((fields t).2 (old t here)).2.2, family.children t here]
      split
      · refine (Finset.card_insert_of_notMem ?_).symm
        simp [Sys.childSlots, empty]
      · rfl
  · rcases (live t).mp here with rfl | here
    · rw [((fields _).1 rfl).2.1, live]
      exact ⟨.inr family.current, apart⟩
    · rw [((fields t).2 (old t here)).2.1] at orphan ⊢
      obtain ⟨known, other⟩ := family.parents t here orphan
      exact ⟨(live _).mpr (.inr known), other⟩
  · rw [current, live]
    exact .inr family.current
  · rw [live, ((fields init).2 (old init family.init.1)).2.1]
    exact ⟨.inr family.init.1, family.init.2⟩
  · rcases (live t).mp here with rfl | here
    · exact nonzero
    · exact family.address t here

end Fork

theorem Family.exit {init : Word} {s s' : Sys} (family : Family init s) (childless : s.currentTask.childrenNo = 0)
    (exited : Exited init s s') : Family init s' := by
  obtain ⟨i, there⟩ := family.current
  have tasks := exited.tasks
  rw [taskRemove_once s family.once i s.current there] at tasks
  have other (j : Fin taskTotal) (u : Word) : s'.tasks j = some u ↔ s.tasks j = some u ∧ j ≠ i := by
    rw [tasks]
    by_cases here : j = i <;> simp [here]
  have live (t : Word) : s'.Live t ↔ s.Live t ∧ t ≠ s.current := by
    constructor
    · rintro ⟨j, member⟩
      obtain ⟨member, away⟩ := (other j t).mp member
      refine ⟨⟨j, member⟩, ?_⟩
      rintro rfl
      exact away (family.once j i _ member there)
    · rintro ⟨⟨j, member⟩, away⟩
      refine ⟨j, (other j t).mpr ⟨member, ?_⟩⟩
      rintro rfl
      rw [there] at member
      exact away (Option.some.inj member).symm
  -- The children of the task have left the array before it.
  have childless (t : Word) (known : s.Live t) : (s.task t).parent ≠ s.current := by
    intro parent
    obtain ⟨j, member⟩ := known
    have none := family.children s.current family.current
    rw [show (s.task s.current).childrenNo = 0 from childless] at none
    have empty := Finset.card_eq_zero.mp none.symm
    have inside : j ∈ s.childSlots s.current := by simp [Sys.childSlots, member, parent]
    rw [empty] at inside
    exact absurd inside (Finset.notMem_empty j)
  have slots (t : Word) : s'.childSlots t =
      if t = s.currentTask.parent then (s.childSlots t).erase i else s.childSlots t := by
    have kept (j : Fin taskTotal) (away : j ≠ i) :
        (s'.tasks j).map (fun u => (s'.task u).parent) = (s.tasks j).map fun u => (s.task u).parent := by
      rw [tasks, Function.update_of_ne away]
      simp only [exited.parent]
    have mine : (s.tasks i).map (fun u => (s.task u).parent) = some s.currentTask.parent := by
      rw [there, Option.map_some, Sys.currentTask]
    ext j
    by_cases here : j = i
    · subst here
      have gone : (s'.tasks j).map (fun u => (s'.task u).parent) = none := by
        rw [tasks, Function.update_self, Option.map_none]
      simp only [Sys.childSlots, Finset.mem_filter, gone]
      split
      · simp
      · next away =>
        simp only [Finset.mem_filter, mine]
        simp [Ne.symm away]
    · simp only [Sys.childSlots, Finset.mem_filter, Finset.mem_univ, true_and, kept j here]
      split <;> simp [here]
  have member : i ∈ s.childSlots s.currentTask.parent := by simp [Sys.childSlots, there, Sys.currentTask]
  have notInit : init ≠ s.current := by
    rintro rfl
    exact exited.orphan family.init.2
  refine ⟨fun a b t first second => ?_, fun t u first second same => ?_, fun t here => ?_, fun t here => ?_,
    fun t here orphan => ?_, ?_, ?_, fun t here => family.address t ((live t).mp here).1⟩
  · exact family.once a b t ((other a t).mp first).1 ((other b t).mp second).1
  · rw [exited.pid, exited.pid] at same
    exact family.pids t u ((live t).mp first).1 ((live u).mp second).1 same
  · rw [exited.pid, exited.taskCount]
    exact family.counted t ((live t).mp here).1
  · rw [exited.childrenNo, slots, family.children t ((live t).mp here).1]
    split
    · next same =>
      rw [same, Finset.card_erase_of_mem member]
    · rfl
  · rw [exited.parent] at orphan ⊢
    obtain ⟨known, apart⟩ := family.parents t ((live t).mp here).1 orphan
    exact ⟨(live _).mpr ⟨known, childless t ((live t).mp here).1⟩, apart⟩
  · rw [exited.current]
    exact (live init).mpr ⟨family.init.1, notInit⟩
  · rw [exited.parent]
    exact ⟨(live init).mpr ⟨family.init.1, notInit⟩, family.init.2⟩

theorem Free.nonzero {k : Kernel} {va : Word} (free : Free k va) : va ≠ 0 := by
  obtain ⟨n, inside, rfl, -⟩ := free
  intro zero
  have value := poolVa_toNat n inside
  rw [zero, show (0 : Word).toNat = 0 from rfl] at value
  omega

theorem Family.same {init : Word} {s s' : Sys} (family : Family init s) (same : SameFamily s s')
    (live : s.Live s'.current) : Family init s' :=
  family.congr same.tasks same.taskCount same.kin (by rwa [Sys.Live, same.tasks])

theorem Family.round {init : Word} {s s' : Sys} (family : Family init s) (done : taskExitRound init s = .ok s') :
    Family init s' := by
  rcases taskExitRound_cases init s s' done with ⟨same, live⟩ | ⟨childless, exited⟩
  · exact family.same same live
  · exact family.exit childless exited

theorem Family.forkFails {init : Word} {s : Sys} (family : Family init s) (err : KernErr) (k : Kernel)
    (failed : forkAlloc s.kernel = .error (err, k)) : Family init (taskFork s).2 := by
  have same : forkAlloc (s.setTask s.current
      { s.currentTask with preemptCount := s.currentTask.preemptCount + 1 }).kernel = .error (err, k) := failed
  unfold taskFork
  simp only [same]
  have start := SameFamily.setTask s s.current { s.currentTask with preemptCount := s.currentTask.preemptCount + 1 }
    ⟨rfl, rfl, rfl, rfl, rfl⟩
  exact family.congr start.tasks start.taskCount start.kin family.current

theorem Family.next {init : Word} {s s' : Sys} (family : Family init s) (intact : s.Intact) (call : FamilyCall)
    (room : call.Room s) (done : call.act init s = .ok s') : Family init s' := by
  cases call with
  | fork =>
    obtain rfl := Except.ok.inj done
    cases worked : forkAlloc s.kernel with
    | error failed => exact family.forkFails failed.1 failed.2 worked
    | ok made =>
      have free := forkAlloc_free s.kernel made.2 made.1 worked
      exact (family.fork worked (fun live => intact _ live free) free.nonzero (room ⟨made, worked⟩).1).1
  | exit =>
    have start := SameFamily.setTask s s.current { s.currentTask with
      preemptCount := s.currentTask.preemptCount + 1 } ⟨rfl, rfl, rfl, rfl, rfl⟩
    exact (family.same start family.current).round done
  | resume => exact family.round done
  | schedule =>
    obtain ⟨same, live, -⟩ := taskSchedule_same s s' done
    exact family.same same live
  | tick =>
    have start := SameFamily.setTask s s.current { s.currentTask with counter := s.currentTask.counter - 1 }
      ⟨rfl, rfl, rfl, rfl, rfl⟩
    have ticked := family.same start family.current
    simp only [FamilyCall.act, taskTick] at done
    split at done
    · obtain rfl := Except.ok.inj done
      exact ticked
    · obtain ⟨same, live, -⟩ := taskSchedule_same _ s' done
      exact ticked.same same live

/-- The tasks of the array make up a family in every state that task_fork and task_exit reach, and a task_fork
that returns in the parent has put the child in one slot. -/
theorem task_family (init : Word) (s₀ s : Sys) (lone : Lone init s₀)
    (run : Run (fun s (call : FamilyCall) s' => call.act init s = .ok s') (fun s call => s.Intact ∧ call.Room s) s₀ s) :
    (∀ t u, s.Live t → s.Live u → (s.task t).pid = (s.task u).pid → t = u) ∧
    (∀ t, s.Live t → (s.task t).childrenNo = (s.childSlots t).card) ∧
    (s.Intact → FamilyCall.fork.Room s → (taskFork s).1.2 = .ok → ∃! i, ∃ t,
      (taskFork s).2.tasks i = some t ∧ ((taskFork s).2.task t).pid = (taskFork s).1.1) := by
  have family : Family init s := run.invariant (Family init) lone.family
    fun s call s' family allowed done => family.next allowed.1 call allowed.2 done
  refine ⟨family.pids, family.children, fun intact room worked => ?_⟩
  cases alloc : forkAlloc s.kernel with
  | error failed =>
    rw [(taskFork_fails s failed.1 failed.2 alloc).1] at worked
    exact absurd worked (forkAlloc_error _ _ alloc)
  | ok made =>
    have free := forkAlloc_free s.kernel made.2 made.1 alloc
    have held : ¬ s.Live made.1.task := fun live => intact _ live free
    have apart : s.current ≠ made.1.task := fun same => held (same ▸ family.current)
    obtain ⟨i, tasks, empty⟩ := (family.fork alloc held free.nonzero (room ⟨made, alloc⟩).1).2
    obtain ⟨result, -⟩ := taskFork_works s made.1 made.2 alloc apart
    rw [result]
    refine ⟨i, ⟨made.1.task, ?_, ((taskFork_task alloc made.1.task apart).1 rfl).1⟩, ?_⟩
    · rw [tasks, Function.update_self]
    · rintro j ⟨t, there, pid⟩
      by_contra away
      rw [tasks, Function.update_of_ne away] at there
      have old : t ≠ made.1.task := by
        rintro rfl
        exact held ⟨j, there⟩
      rw [((taskFork_task alloc t apart).2 old).1] at pid
      have bound := family.counted t ⟨j, there⟩
      simp only at pid
      omega

theorem forkAlloc_room (k : Kernel) (count : Nat) (room : canAlloc (count + 3) k = true) :
    ∃ pages k', forkAlloc k = .ok (pages, k') ∧ canAlloc count k' = true := by
  simp only [canAlloc, Bool.and_eq_true, beq_iff_eq] at room
  obtain ⟨first, second, third, rest⟩ := room
  unfold forkAlloc
  generalize memKernelAllocPage k .rw = taken at *
  obtain ⟨⟨task, err⟩, k₁⟩ := taken
  obtain rfl : err = .ok := first
  simp only at second third rest ⊢
  generalize memKernelAllocPage k₁ .rw = taken at *
  obtain ⟨⟨table, err⟩, k₂⟩ := taken
  obtain rfl : err = .ok := second
  simp only at third rest ⊢
  generalize memKernelAllocPage k₂ .rw = taken at *
  obtain ⟨⟨stack, err⟩, k₃⟩ := taken
  obtain rfl : err = .ok := third
  exact ⟨_, _, rfl, rest⟩

-- init_task with an empty address space and `free` as the free pages.
def loneInit (free : List Nat) : Sys :=
  { oneTask [] free with task := fun p => { (oneTask [] free).task p with pid := 0, parent := 0 } }

theorem loneInit_lone (free : List Nat) : Lone (poolVa 10) (loneInit free) where
  tasks := by
    funext i
    by_cases first : i = 0
    · rw [first]
      rfl
    · rw [Function.update_of_ne first]
      have beyond : [(⟨10, 4, 11, 10, 0⟩ : Member)][i.val]? = none :=
        List.getElem?_eq_none (Nat.one_le_iff_ne_zero.mpr fun zero => first (Fin.ext zero))
      show Option.map _ [(⟨10, 4, 11, 10, 0⟩ : Member)][i.val]? = none
      rw [beyond]
      rfl
  current := rfl
  address := by decide +kernel
  task := ⟨rfl, rfl, rfl⟩
  taskCount := rfl

theorem loneInit_system (free : List Nat) (inside : ∀ n, n ∈ free → 20 ≤ n ∧ n < 384) :
    SysLayout (loneInit free) (posOf [(4, [])]) := by
  have away (n : Nat) (low : n < 20) : n ∉ free := fun member => by
    have := inside n member
    omega
  have fits : Fits [] free [(4, [])] := by
    refine ⟨fun n member => ?_, by simp, fun table member => ?_, by simp⟩
    · have := inside n member
      omega
    · obtain rfl := List.mem_singleton.mp member
      exact ⟨by omega, by omega, away 4 (by omega), by simp⟩
  obtain ⟨wf, layout, roots, structs, running⟩ :=
    oneTask_layout [] free [(4, [])] fits (by simp [TaskFits]) rfl (away 10 (by omega))
  exact ⟨wf, layout, roots, structs, running⟩

/-- init_task has forked `n` times in a row. -/
structure Forks (init : Word) (n : Nat) (s : Sys) : Prop where
  family : Family init s
  system : ∃ pos, SysLayout s pos
  pages : canAlloc (3 * (64 - n)) s.kernel = true
  current : s.current = init
  taskCount : s.taskCount = n + 1
  children : (s.task init).childrenNo = n
  empty : (Finset.univ.filter fun i => s.tasks i = none).card = 63 - n

theorem Forks.alloc {init : Word} {n : Nat} {s : Sys} (forks : Forks init n s) (few : n ≤ 63) :
    ∃ pages k, forkAlloc s.kernel = .ok (pages, k) ∧ canAlloc (3 * (63 - n)) k = true := by
  refine forkAlloc_room s.kernel _ ?_
  have more := forks.pages
  rwa [show 3 * (64 - n) = 3 * (63 - n) + 3 by omega] at more

theorem Forks.room {init : Word} {n : Nat} {s : Sys} (forks : Forks init n s) (few : n < 63) :
    ∃ i, s.tasks i = none := by
  have some : 0 < (Finset.univ.filter fun i => s.tasks i = none).card := by
    rw [forks.empty]
    omega
  obtain ⟨i, member⟩ := Finset.card_pos.mp some
  exact ⟨i, (Finset.mem_filter.mp member).2⟩

theorem Forks.next {init : Word} {n : Nat} {s : Sys} (forks : Forks init n s) (few : n < 63) :
    Forks init (n + 1) (taskFork s).2 := by
  obtain ⟨pos, system⟩ := forks.system
  obtain ⟨pages, k, worked, more⟩ := forks.alloc (by omega)
  have free := forkAlloc_free s.kernel k pages worked
  have held : ¬ s.Live pages.task := fun live => system.structs _ live free
  have apart : s.current ≠ pages.task := fun same => held (same ▸ forks.family.current)
  obtain ⟨family, i, tasks, empty⟩ := forks.family.fork worked held free.nonzero (forks.room few)
  obtain ⟨-, kernel, -, current, -⟩ := taskFork_works s pages k worked apart
  have rest : canAlloc (3 * (63 - n)) (taskFork s).2.kernel = true := by
    rcases forkAlloc_spec s.kernel system.wf with ⟨pages', k', worked', -, taken⟩ | ⟨_, _, failed, -⟩
    · rw [worked] at worked'
      cases worked'
      rw [kernel, (forkCopy_same system.layout (system.roots _ system.running) taken).allocs taken.wf]
      exact more
    · rw [worked] at failed
      cases failed
  refine ⟨family, ?_, ?_, current.trans forks.current, ?_, ?_, ?_⟩
  · rcases taskFork_spec s pos system with ⟨child, _, _, _, forked⟩ | ⟨_, result, _⟩
    · exact ⟨_, forked.system system⟩
    · rw [(taskFork_works s pages k worked apart).1] at result
      exact nomatch (Prod.ext_iff.mp result).2
  · rwa [show 3 * (64 - (n + 1)) = 3 * (63 - n) by omega]
  · rw [taskFork_count worked, forks.taskCount]
    rfl
  · have mine := ((taskFork_task worked init apart).2 (forks.current ▸ apart)).2.2
    rw [mine, if_pos forks.current.symm, forks.children]
  · have less : (Finset.univ.filter fun j => (taskFork s).2.tasks j = none) =
        (Finset.univ.filter fun j => s.tasks j = none).erase i := by
      ext j
      rw [tasks]
      by_cases here : j = i <;> simp [here]
    rw [less, Finset.card_erase_of_mem (by simp [empty]), forks.empty]
    omega

def forkPages : List Nat := List.range' 20 192

theorem forkPages_inside (n : Nat) (member : n ∈ forkPages) : 20 ≤ n ∧ n < 384 := by
  rw [forkPages, List.mem_range'_1] at member
  omega

theorem loneInit_start : Forks (poolVa 10) 0 (loneInit forkPages) := by
  have lone := loneInit_lone forkPages
  refine ⟨lone.family, ⟨_, loneInit_system forkPages forkPages_inside⟩, ?_, rfl, rfl, rfl, ?_⟩
  · refine (machine_stocked [] forkPages fun m member => ?_).allocs _ ?_
    · have := forkPages_inside m member
      omega
    · rw [forkPages, List.toFinset_card_of_nodup List.nodup_range', List.length_range']
  · have others : (Finset.univ.filter fun i => (loneInit forkPages).tasks i = none) = Finset.univ.erase 0 := by
      ext i
      rw [lone.tasks]
      by_cases first : i = 0 <;> simp [first]
    rw [others, Finset.card_erase_of_mem (Finset.mem_univ 0), Finset.card_univ, Fintype.card_fin]
    rfl

theorem loneInit_forks (n : Nat) (few : n ≤ 63) : ∃ s, Forks (poolVa 10) n s ∧
    Run (fun s (call : FamilyCall) s' => call.act (poolVa 10) s = .ok s') (fun s call => s.Intact ∧ call.Room s)
      (loneInit forkPages) s := by
  induction n with
  | zero => exact ⟨loneInit forkPages, loneInit_start, .start⟩
  | succ n ih =>
    obtain ⟨s, forks, run⟩ := ih (by omega)
    refine ⟨_, forks.next few, .next s _ .fork run ⟨?_, fun _ => ⟨forks.room few, ?_⟩⟩ rfl⟩
    · obtain ⟨pos, system⟩ := forks.system
      exact system.structs
    · rw [forks.taskCount]
      omega

theorem task_family_forks : ∃ s, Forks (poolVa 10) 63 s ∧
    ∀ t, s.Live t → (s.task t).childrenNo = (s.childSlots t).card := by
  obtain ⟨s, forks, run⟩ := loneInit_forks 63 (by omega)
  exact ⟨s, forks, (task_family (poolVa 10) (loneInit forkPages) s (loneInit_lone forkPages) run).2.1⟩

/-- The fork that finds the array full returns a pid that no task of the array has, and is counted as a child. -/
theorem full_array : ∃ s₀ s, Lone (poolVa 10) s₀ ∧
    Run (fun s (call : FamilyCall) s' => call.act (poolVa 10) s = .ok s') (fun s _ => s.Intact) s₀ s ∧
    (taskFork s).1.2 = .ok ∧
    (¬ ∃ i t, (taskFork s).2.tasks i = some t ∧ ((taskFork s).2.task t).pid = (taskFork s).1.1) ∧
    (taskFork s).2.Live s.current ∧
    ((taskFork s).2.task s.current).childrenNo ≠ ((taskFork s).2.childSlots s.current).card := by
  obtain ⟨s, forks, run⟩ := loneInit_forks 63 (by omega)
  obtain ⟨pos, system⟩ := forks.system
  obtain ⟨pages, k, worked, -⟩ := forks.alloc (by omega)
  have held : ¬ s.Live pages.task := fun live => system.structs _ live (forkAlloc_free s.kernel k pages worked)
  have apart : s.current ≠ pages.task := fun same => held (same ▸ forks.family.current)
  obtain ⟨result, -, tasks, -⟩ := taskFork_works s pages k worked apart
  have full (i : Fin taskTotal) : s.tasks i ≠ none := by
    intro empty
    have nothing := Finset.card_eq_zero.mp forks.empty
    have member : i ∈ Finset.univ.filter fun i => s.tasks i = none := by simp [empty]
    rw [nothing] at member
    exact absurd member (Finset.notMem_empty i)
  have unlisted : taskAdd s.tasks pages.task = s.tasks := by
    unfold taskAdd
    cases found : firstSlot fun i => (s.tasks i).isNone with
    | none => rfl
    | some i =>
      have empty := firstSlot_some _ i found
      exact absurd (Option.isNone_iff_eq_none.mp empty) (full i)
  rw [unlisted] at tasks
  have fields (t : Word) (live : s.Live t) := (taskFork_task worked t apart).2 fun same => held (same ▸ live)
  refine ⟨loneInit forkPages, s, loneInit_lone forkPages, run.weaken _ fun _ _ fine => fine.1, by rw [result], ?_, ?_, ?_⟩
  · rintro ⟨i, t, there, pid⟩
    rw [tasks] at there
    rw [(fields t ⟨i, there⟩).1, result] at pid
    have bound := forks.family.counted t ⟨i, there⟩
    simp only at pid
    omega
  · obtain ⟨i, there⟩ := forks.family.current
    exact ⟨i, by rw [tasks]; exact there⟩
  · have slots : (taskFork s).2.childSlots s.current = s.childSlots s.current := by
      ext i
      simp only [Sys.childSlots, Finset.mem_filter, Finset.mem_univ, true_and, tasks]
      cases there : s.tasks i with
      | none => rfl
      | some t => rw [Option.map_some, Option.map_some, (fields t ⟨i, there⟩).2.1]
    rw [(fields _ forks.family.current).2.2, if_pos rfl, slots, forks.family.children _ forks.family.current]
    omega

end Anthill
