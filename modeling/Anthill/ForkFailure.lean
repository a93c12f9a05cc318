import Anthill.PreemptCount

set_option autoImplicit false

namespace Anthill

open Radix

/-- What a task_fork that fails is to leave as it was. -/
structure ForkUndone (s s' : Sys) : Prop where
  pool : ∀ n, n < managed → marked s'.kernel.memoryMap n = marked s.kernel.memoryMap n
  tasks : s'.tasks = s.tasks
  children : (s'.task s.current).childrenNo = (s.task s.current).childrenNo
  entries : ∀ q p, q.length ≤ 3 → node nav s.kernel.mem (s.table s.current) q = some p →
    s'.kernel.mem p = s.kernel.mem p
  preempt : (s'.task s.current).preemptCount = (s.task s.current).preemptCount

/-- What it leaves as it was, with the pages that it keeps. -/
structure ForkKeeps (s s' : Sys) (pages : List Word) : Prop where
  taken : Taken s.kernel s'.kernel pages
  fewer : pages.length < 3
  tasks : s'.tasks = s.tasks
  children : (s'.task s.current).childrenNo = (s.task s.current).childrenNo
  entries : ∀ q p, q.length ≤ 3 → node nav s.kernel.mem (s.table s.current) q = some p →
    s'.kernel.mem p = s.kernel.mem p
  preempt : (s'.task s.current).preemptCount = (s.task s.current).preemptCount + 1

theorem ForkKeeps.not_undone {s s' : Sys} {pages : List Word} (keeps : ForkKeeps s s' pages) : ¬ ForkUndone s s' := by
  intro undone
  have counted := keeps.preempt
  rw [undone.preempt] at counted
  omega

theorem taskFork_error (s : Sys) (err : KernErr) (k : Kernel) (failed : forkAlloc s.kernel = .error (err, k)) :
    taskFork s = ((-1, err), { s.enter with kernel := k }) := by
  have same : forkAlloc s.enter.kernel = .error (err, k) := failed
  unfold taskFork
  rw [← Sys.enter]
  simp only [same]

@[simp] theorem Sys.enter_current (s : Sys) : s.enter.task s.current =
    { s.currentTask with preemptCount := s.currentTask.preemptCount + 1 } :=
  Sys.setTask_self ..

/-- A task_fork that fails keeps the pages that it has taken, and leaves the count of its caller one too high. -/
theorem taskFork_failed (s : Sys) (pos : Pos) (system : SysLayout s pos) (failed : (taskFork s).1.2 ≠ .ok) :
    ¬ ForkUndone s (taskFork s).2 ∧ ∃ pages, ForkKeeps s (taskFork s).2 pages := by
  have kept : ∃ pages, ForkKeeps s (taskFork s).2 pages := by
    rcases forkAlloc_spec s.kernel system.wf with ⟨pages, k, worked, _, taken⟩ | ⟨pages, k, dry, taken, fewer, _⟩
    · have fresh := (taken.fresh pages.task (by simp)).1
      have apart : s.current ≠ pages.task := by
        intro same
        exact system.structs _ system.running (same ▸ fresh)
      rw [(taskFork_works s pages k worked apart).1] at failed
      exact absurd rfl failed
    · rw [taskFork_error s .memOom k dry]
      have children : (s.enter.task s.current).childrenNo = (s.task s.current).childrenNo := by
        rw [s.enter_current]
        rfl
      have preempt : (s.enter.task s.current).preemptCount = (s.task s.current).preemptCount + 1 := by
        rw [s.enter_current]
        rfl
      refine ⟨pages, taken, fewer, rfl, children, fun q p short found => ?_, preempt⟩
      have position := system.layout.typed.node_pos _ p q (system.roots _ system.running) short found
      exact taken.keeps p (system.layout.inUse p q position)
  obtain ⟨pages, keeps⟩ := kept
  exact ⟨keeps.not_undone, pages, keeps⟩

theorem oneTask_short : (taskFork (oneTask [] [20])).1.2 ≠ .ok := by
  decide +kernel

theorem taskFork_failed_short : ¬ ForkUndone (oneTask [] [20]) (taskFork (oneTask [] [20])).2 :=
  (taskFork_failed _ (posOf [(4, [])]) (oneTask_layout [] [20] [(4, [])] (by decide) (by decide) (by decide) (by decide))
    oneTask_short).1

-- With one page left the struct of the child gets it, and nobody gives it back.
theorem failed_fork_counts : ¬ ∀ s : Sys, (taskFork s).1.2 ≠ .ok → ForkUndone s (taskFork s).2 := by
  intro claim
  have undone := claim (oneTask [] [20]) oneTask_short
  have before : ((oneTask [] [20]).task (oneTask [] [20]).current).preemptCount = 0 := by decide +kernel
  have after : ((taskFork (oneTask [] [20])).2.task (oneTask [] [20]).current).preemptCount = 1 := by decide +kernel
  have same := undone.preempt
  rw [before, after] at same
  cases same

end Anthill
