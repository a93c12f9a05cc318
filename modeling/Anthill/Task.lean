import Anthill.Machine
import Anthill.SoftCopy

set_option autoImplicit false

namespace Anthill

open Radix

inductive TaskState where
  | running
  | blocked
  | waiting
deriving DecidableEq, Repr

-- The stored processor context is left out: no function here reads it.
structure Task where
  tranTable : Word
  pid : Int
  kernelStack : Word
  parent : Word
  childrenNo : Nat
  state : TaskState
  preemptCount : Int
  priority : Int
  counter : Int
deriving DecidableEq, Repr

abbrev taskTotal : Nat := 64

instance taskNeZero : NeZero taskTotal := ⟨by decide⟩

-- Task structs are read by address. The page of a struct holds nothing else.
structure Sys where
  kernel : Kernel
  task : Word → Task
  tasks : Fin taskTotal → Option Word
  current : Word
  taskCount : Int

def Sys.setTask (s : Sys) (ptr : Word) (t : Task) : Sys :=
  { s with task := fun p => if p = ptr then t else s.task p }

def Sys.currentTask (s : Sys) : Task := s.task s.current

-- The kernel address of a task's top-level table.
def Sys.table (s : Sys) (ptr : Word) : Word := physToVirt (s.task ptr).tranTable

def firstSlot (found : Fin taskTotal → Bool) : Option (Fin taskTotal) :=
  (List.finRange taskTotal).find? found

def taskAdd (tasks : Fin taskTotal → Option Word) (ptr : Word) : Fin taskTotal → Option Word :=
  match firstSlot fun i => (tasks i).isNone with
  | some i => Function.update tasks i (some ptr)
  | none => tasks

def taskRemove (tasks : Fin taskTotal → Option Word) (ptr : Word) : Fin taskTotal → Option Word :=
  match firstSlot fun i => tasks i = some ptr with
  | some i => Function.update tasks i none
  | none => tasks

structure ForkPages where
  task : Word
  table : Word
  stack : Word
deriving DecidableEq, Repr

-- The three allocations of task_fork. A failure keeps the pages taken before it.
def forkAlloc (k : Kernel) : Except (KernErr × Kernel) (ForkPages × Kernel) :=
  match memKernelAllocPage k .rw with
  | (⟨task, .ok⟩, k) =>
    match memKernelAllocPage k .rw with
    | (⟨table, .ok⟩, k) =>
      match memKernelAllocPage k .rw with
      | (⟨stack, .ok⟩, k) => .ok (⟨task, table, stack⟩, k)
      | (⟨_, err⟩, k) => .error (err, k)
    | (⟨_, err⟩, k) => .error (err, k)
  | (⟨_, err⟩, k) => .error (err, k)

def softCopyKernel (k : Kernel) (table : Word) : Kernel :=
  k.setMem (memTableSoftCopy k.mem table)

-- The memory that task_fork writes: kernel stack, lower tables, top-level table.
def forkCopy (k : Kernel) (pages : ForkPages) (stack table : Word) : Kernel :=
  let k := k.writePage pages.stack (k.mem stack)
  let k := softCopyKernel k table
  k.writePage pages.table (k.mem table)

/-- task_fork as its caller sees it return. -/
def taskFork (s : Sys) : (Int × KernErr) × Sys :=
  let s := s.setTask s.current
    { s.currentTask with preemptCount := s.currentTask.preemptCount + 1 }
  match forkAlloc s.kernel with
  | .error (err, k) => ((-1, err), { s with kernel := k })
  | .ok (pages, k) =>
    let parent := s.currentTask
    let child : Task :=
      { pid := s.taskCount + 1
        kernelStack := pages.stack
        parent := s.current
        childrenNo := 0
        tranTable := virtToPhys pages.table
        state := parent.state
        preemptCount := parent.preemptCount
        priority := parent.priority
        counter := parent.priority }
    let s := { s with
      kernel := forkCopy k pages parent.kernelStack (physToVirt parent.tranTable)
      tasks := taskAdd s.tasks pages.task
      taskCount := s.taskCount + 1 }
    let s := s.setTask pages.task child
    let s := s.setTask s.current
      { parent with childrenNo := parent.childrenNo + 1, preemptCount := parent.preemptCount - 1 }
    ((child.pid, .ok), s)

/-- The user tables of all tasks: shaped, in pages that are in use, with nothing counted in the
top-level entries. -/
structure TaskLayout (k : Kernel) (pos : Pos) : Prop extends UserLayout k pos where
  blank : ∀ p q i, pos p = some q → q.length = 1 → mmuIsValid (k.mem p i) = false →
    mmuIsBlock (k.mem p i) = true
  topRef : ∀ p i, pos p = some [] → mmuIsValid (k.mem p i) = true → refCount (k.mem p i) = 0

theorem TaskLayout.shaped {k : Kernel} {pos : Pos} (layout : TaskLayout k pos) :
    Shaped k.mem pos where
  typed := layout.typed
  table := layout.table
  blank := layout.blank

-- What the entries of a machine's tables need for a `TaskLayout`.
def TaskFits (cells : List Cell) (tables : Tables) : Prop :=
  ∀ cell, cell ∈ cells → ∀ table, table ∈ tables → cell.page = table.1 →
    (table.2.length = 1 → mmuIsValid cell.entry = false → mmuIsBlock cell.entry = true) ∧
      (table.2 = [] → refCount cell.entry = 0)

instance (cells : List Cell) (tables : Tables) : Decidable (TaskFits cells tables) := by
  unfold TaskFits
  infer_instance

theorem machine_taskLayout (cells : List Cell) (free : List Nat) (tables : Tables)
    (fits : Fits cells free tables) (taskFits : TaskFits cells tables) :
    TaskLayout (machine cells free) (posOf tables) where
  toUserLayout := machine_layout cells free tables fits
  blank p q i position first invalid := by
    rcases machine_entry cells free tables fits p q i position with zero | ⟨n, member, _, cell⟩
    · rw [zero, isBlock_zero]
    · exact (taskFits _ cell _ member rfl).1 first invalid
  topRef p i position _ := by
    rcases machine_entry cells free tables fits p [] i position with zero | ⟨n, member, _, cell⟩
    · rw [zero]
      decide
    · exact (taskFits _ cell _ member rfl).2 rfl

/-- Pages handed out one after another, with no other page in use written. -/
structure Taken (k k' : Kernel) (pages : List Word) : Prop where
  wf : KernelWf k'
  grew : Grew k k'
  fresh : ∀ p, p ∈ pages → Free k p ∧ InUse k' p ∧ Backed k' p
  keeps : ∀ p, InUse k p → k'.mem p = k.mem p
  distinct : pages.Nodup

theorem Taken.none (k : Kernel) (wf : KernelWf k) : Taken k k [] where
  wf := wf
  grew := .refl k
  fresh p member := by cases member
  keeps _ _ := rfl
  distinct := .nil

theorem Taken.more {k k' k'' : Kernel} {pages : List Word} {va : Word} (taken : Taken k k' pages)
    (allocated : Allocated k' k'' va) : Taken k k'' (va :: pages) where
  wf := allocated.wf
  grew := taken.grew.trans allocated.grew
  fresh p member := by
    rcases List.mem_cons.mp member with rfl | before
    · exact ⟨taken.grew.shrinks p allocated.wasFree, allocated.inUse, allocated.backed⟩
    · obtain ⟨free, used, backed⟩ := taken.fresh p before
      exact ⟨free, (allocated.keeps p used).1, allocated.backs p backed⟩
  keeps p used := by rw [(allocated.keeps p (taken.grew.keepsUse p used)).2, taken.keeps p used]
  distinct := by
    refine List.nodup_cons.mpr ⟨fun member => ?_, taken.distinct⟩
    exact not_free_of_marked k' va (taken.fresh va member).2.1.1 allocated.wasFree

/-- task_fork takes three pages, or fails after it took fewer. -/
theorem forkAlloc_spec (k : Kernel) (wf : KernelWf k) :
    (∃ pages k', forkAlloc k = .ok (pages, k') ∧ canAlloc 3 k = true ∧
      Taken k k' [pages.stack, pages.table, pages.task]) ∨
    ∃ pages k', forkAlloc k = .error (.memOom, k') ∧ Taken k k' pages ∧ pages.length < 3 ∧
      canAlloc 3 k = false := by
  have none := Taken.none k wf
  rcases memKernelAllocPage_rw k wf with oom₁ | ⟨task, k₁, taken₁, allocated₁⟩
  · exact .inr ⟨[], k, by simp [forkAlloc, oom₁], none, by simp, canAlloc_oom k 2 oom₁⟩
  · have one := none.more allocated₁
    rcases memKernelAllocPage_rw k₁ one.wf with oom₂ | ⟨table, k₂, taken₂, allocated₂⟩
    · refine .inr ⟨[task], k₁, by simp [forkAlloc, taken₁, oom₂], one, by simp, ?_⟩
      rw [canAlloc_next k k₁ task 2 taken₁]
      exact canAlloc_oom k₁ 1 oom₂
    · have two := one.more allocated₂
      rcases memKernelAllocPage_rw k₂ two.wf with oom₃ | ⟨stack, k₃, taken₃, allocated₃⟩
      · refine .inr ⟨[table, task], k₂, by simp [forkAlloc, taken₁, taken₂, oom₃], two, by simp, ?_⟩
        rw [canAlloc_next k k₁ task 2 taken₁, canAlloc_next k₁ k₂ table 1 taken₂]
        exact canAlloc_oom k₂ 0 oom₃
      · refine .inl ⟨⟨task, table, stack⟩, k₃, by simp [forkAlloc, taken₁, taken₂, taken₃], ?_,
          two.more allocated₃⟩
        rw [canAlloc_next k k₁ task 2 taken₁, canAlloc_next k₁ k₂ table 1 taken₂,
          canAlloc_next k₂ k₃ stack 0 taken₃]
        rfl

theorem Taken.taskLayout {k k' : Kernel} {pos : Pos} {pages : List Word} (taken : Taken k k' pages)
    (layout : TaskLayout k pos) : TaskLayout k' pos where
  toUserLayout := layout.toUserLayout.congr
    (fun p q position => taken.keeps p (layout.inUse p q position))
    (fun p q position => taken.grew.keepsUse p (layout.inUse p q position))
  blank p q i position first := by
    rw [taken.keeps p (layout.inUse p q position)]
    exact layout.blank p q i position first
  topRef p i position := by
    rw [taken.keeps p (layout.inUse p [] position)]
    exact layout.topRef p i position

/-- What task_fork has done to the memory of the parent table `t` and of the others: the tables
below the root are marked, and the child's root `c` is a copy of the parent's. -/
structure Forked (k k' : Kernel) (pos : Pos) (t c : Word) : Prop where
  wf : KernelWf k'
  grew : Grew k k'
  layout : TaskLayout k' (Function.update pos c (some []))
  fresh : Free k c
  used : InUse k' c
  backed : Backed k' c
  marks : ∀ p i, Lower k.mem t p i → k'.mem p i = mmuMarkCopied (k.mem p i)
  others : ∀ p i, InUse k p → ¬ Lower k.mem t p i → k'.mem p i = k.mem p i
  copy : k'.mem c = k.mem t

-- A copy of a root is another root of the same tables.
theorem TaskLayout.withCopy {k k' : Kernel} {pos : Pos} {t c : Word} (layout : TaskLayout k pos)
    (root : pos t = some []) (used : InUse k' c) (new : pos c = none)
    (shape : ∀ p q i, pos p = some q → k'.mem p i &&& navMask = k.mem p i &&& navMask)
    (copy : k'.mem c = k.mem t) (keeps : ∀ p, InUse k p → InUse k' p)
    (others : ∀ p i, InUse k p → ¬ Lower k.mem t p i → k'.mem p i = k.mem p i) :
    TaskLayout k' (Function.update pos c (some [])) := by
  refine { toUserLayout := ⟨?typed, ?inUse, ?table⟩, blank := ?blank, topRef := ?topRef }
  case typed =>
    refine ⟨fun p q position => ?_, fun p q i d position short found => ?_⟩
    · rcases extend_cases position with ⟨_, rfl⟩ | ⟨_, before⟩
      · simp
      · exact layout.typed.bound p q before
    · rcases extend_cases position with ⟨rfl, rfl⟩ | ⟨_, before⟩
      · rw [copy] at found
        exact extend_keeps new (layout.typed.child t [] i d root short found)
      · rw [nav_congr _ _ (shape p q i before)] at found
        exact extend_keeps new (layout.typed.child p q i d before short found)
  case inUse =>
    intro p q position
    rcases extend_cases position with ⟨rfl, _⟩ | ⟨_, before⟩
    · exact used
    · exact keeps p (layout.inUse p q before)
  case table =>
    intro p q i position upper valid
    rcases extend_cases position with ⟨_, rfl⟩ | ⟨_, before⟩
    · simp at upper
    · rw [isValid_congr _ _ (shape p q i before)] at valid
      rw [isBlock_congr _ _ (shape p q i before)]
      exact layout.table p q i before upper valid
  case blank =>
    intro p q i position first invalid
    rcases extend_cases position with ⟨_, rfl⟩ | ⟨_, before⟩
    · simp at first
    · rw [isValid_congr _ _ (shape p q i before)] at invalid
      rw [isBlock_congr _ _ (shape p q i before)]
      exact layout.blank p q i before first invalid
  case topRef =>
    intro p i position valid
    rcases extend_cases position with ⟨rfl, _⟩ | ⟨_, before⟩
    · rw [copy] at valid ⊢
      exact layout.topRef t i root valid
    · have upper : ¬ Lower k.mem t p i := by
        rintro ⟨r, nonempty, short, found, _⟩
        have position' := layout.typed.node_pos t p r root short found
        rw [before] at position'
        obtain rfl := Option.some.inj position'
        simp at nonempty
      rw [others p i (layout.inUse p [] before) upper] at valid ⊢
      exact layout.topRef p i before valid

theorem forkCopy_kernel (k : Kernel) (pages : ForkPages) (stack t : Word) :
    (forkCopy k pages stack t).memoryMap = k.memoryMap ∧
      (forkCopy k pages stack t).kernelTable = k.kernelTable ∧
      (forkCopy k pages stack t).trace = k.trace := by
  have first := Kernel.writePage_rest k pages.stack (k.mem stack)
  have second := Kernel.setMem_rest (k.writePage pages.stack (k.mem stack))
    (memTableSoftCopy (k.writePage pages.stack (k.mem stack)).mem t)
  rw [first.1, first.2.1, first.2.2] at second
  have third := Kernel.writePage_rest (softCopyKernel (k.writePage pages.stack (k.mem stack)) t)
    pages.table ((softCopyKernel (k.writePage pages.stack (k.mem stack)) t).mem t)
  exact ⟨third.1.trans second.1, third.2.1.trans second.2.1, third.2.2.trans second.2.2⟩

theorem forkCopy_mem (k : Kernel) (pages : ForkPages) (stack t : Word) :
    (forkCopy k pages stack t).mem =
      putPage (memTableSoftCopy (k.writePage pages.stack (k.mem stack)).mem t) pages.table
        (memTableSoftCopy (k.writePage pages.stack (k.mem stack)).mem t t) := by
  rw [forkCopy, Kernel.writePage_mem, softCopyKernel, Kernel.setMem_mem]

section Fork

variable {k k₁ : Kernel} {pos : Pos} {pages : ForkPages} {t stack : Word}
  (layout : TaskLayout k pos) (root : pos t = some [])
  (taken : Taken k k₁ [pages.stack, pages.table, pages.task])

include layout

theorem TaskLayout.unused (p : Word) (free : Free k p) : pos p = none :=
  layout.toUserLayout.fresh p free

include root

theorem lower_pos (p : Word) (i : Idx) (lower : Lower k.mem t p i) :
    ∃ q, pos p = some q ∧ 1 ≤ q.length := by
  obtain ⟨r, nonempty, short, found, _⟩ := lower
  exact ⟨r, layout.typed.node_pos t p r root short found, nonempty⟩

include taken

omit root in
theorem Taken.pos_away (p : Word) (q : List Idx) (position : pos p = some q) :
    p ≠ pages.stack ∧ p ≠ pages.table := by
  have away (a : Word) (member : a ∈ [pages.stack, pages.table, pages.task]) : p ≠ a := by
    rintro rfl
    rw [layout.unused p (taken.fresh p member).1] at position
    cases position
  exact ⟨away _ (by simp), away _ (by simp)⟩

omit root in
theorem taken_shape (row : Idx → Word) (p : Word) (q : List Idx) (position : pos p = some q) :
    (k₁.writePage pages.stack row).mem p = k.mem p := by
  rw [Kernel.writePage_mem, putPage_other _ _ _ _ (taken.pos_away layout p q position).1,
    taken.keeps p (layout.inUse p q position)]

-- The soft copy of a memory that agrees with `k` on the tables.
theorem softCopy_here (row : Idx → Word) :
    Touched mmuMarkCopied (Lower k.mem t) (k₁.writePage pages.stack row).mem
      (memTableSoftCopy (k₁.writePage pages.stack row).mem t) := by
  have same := taken_shape layout taken row
  have shaped : Shaped (k₁.writePage pages.stack row).mem pos :=
    { typed := layout.typed.congr fun p q i position => by rw [same p q position]
      table := fun p q i position => by rw [same p q position]; exact layout.table p q i position
      blank := fun p q i position => by rw [same p q position]; exact layout.blank p q i position }
  refine (memTableSoftCopy_touched _ pos shaped t root).congr fun p i => ?_
  have walk (r : List Idx) (short : r.length ≤ 3) :
      node nav (k₁.writePage pages.stack row).mem t r = node nav k.mem t r :=
    layout.typed.node_same t (fun p q j position => by rw [same p q position]) root r (by omega)
  constructor
  · rintro ⟨r, nonempty, short, found, which⟩
    have position := layout.typed.node_pos t p r root short found
    refine ⟨r, nonempty, short, by rw [walk r short]; exact found, ?_⟩
    rw [same p r position]
    exact which
  · rintro ⟨r, nonempty, short, found, which⟩
    rw [walk r short] at found
    have position := layout.typed.node_pos t p r root short found
    rw [same p r position] at which
    exact ⟨r, nonempty, short, found, which⟩

omit layout root taken in
theorem forkCopy_row (p : Word) (other : p ≠ pages.table) : (forkCopy k₁ pages stack t).mem p =
    memTableSoftCopy (k₁.writePage pages.stack (k₁.mem stack)).mem t p := by
  rw [forkCopy_mem, putPage_other _ _ _ _ other]

theorem forkCopy_same : SameKernel k₁ (forkCopy k₁ pages stack t) := by
  have touched := softCopy_here layout root taken (k₁.mem stack)
  have usedTable := (taken.fresh pages.table (by simp)).2.1
  have usedStack := (taken.fresh pages.stack (by simp)).2.1
  obtain ⟨sameMap, sameRoot, sameTrace⟩ := forkCopy_kernel k₁ pages stack t
  refine ⟨sameMap, sameRoot, fun p table => ?_, sameTrace⟩
  have notTable : p ≠ pages.table := fun here => usedTable.2 (here ▸ table)
  have notStack : p ≠ pages.stack := fun here => usedStack.2 (here ▸ table)
  rw [forkCopy_row p notTable]
  funext i
  rw [touched.outside p i, Kernel.writePage_mem, putPage_other _ _ _ _ notStack]
  intro lower
  obtain ⟨q, position, _⟩ := lower_pos layout root p i lower
  exact (taken.grew.keepsUse p (layout.inUse p q position)).2 table

theorem forkCopy_forked : Forked k (forkCopy k₁ pages stack t) pos t pages.table := by
  have touched := softCopy_here layout root taken (k₁.mem stack)
  have before := taken_shape layout taken (k₁.mem stack)
  obtain ⟨freeTable, usedTable, backedTable⟩ := taken.fresh pages.table (by simp)
  have freeStack := (taken.fresh pages.stack (by simp)).1
  have row (p : Word) (other : p ≠ pages.table) : (forkCopy k₁ pages stack t).mem p =
    memTableSoftCopy (k₁.writePage pages.stack (k₁.mem stack)).mem t p := forkCopy_row p other
  have same : SameKernel k₁ (forkCopy k₁ pages stack t) := forkCopy_same layout root taken
  have rootRow : memTableSoftCopy (k₁.writePage pages.stack (k₁.mem stack)).mem t t = k.mem t := by
    funext i
    rw [touched.outside t i, before t [] root]
    intro lower
    obtain ⟨q, position, nonempty⟩ := lower_pos layout root t i lower
    rw [root] at position
    obtain rfl := Option.some.inj position
    simp at nonempty
  have marks (p : Word) (i : Idx) (lower : Lower k.mem t p i) :
      (forkCopy k₁ pages stack t).mem p i = mmuMarkCopied (k.mem p i) := by
    obtain ⟨q, position, _⟩ := lower_pos layout root p i lower
    rw [row p (taken.pos_away layout p q position).2, touched.inside p i lower, before p q position]
  have others (p : Word) (i : Idx) (used : InUse k p) (upper : ¬ Lower k.mem t p i) :
      (forkCopy k₁ pages stack t).mem p i = k.mem p i := by
    have away (a : Word) (free : Free k a) : p ≠ a := by
      rintro rfl
      exact not_free_of_marked k p used.1 free
    rw [row p (away _ freeTable), touched.outside p i upper, Kernel.writePage_mem,
      putPage_other _ _ _ _ (away _ freeStack), taken.keeps p used]
  have copy : (forkCopy k₁ pages stack t).mem pages.table = k.mem t := by
    rw [forkCopy_mem, putPage_same, rootRow]
  have wf := same.wf taken.wf
  have grew := taken.grew.trans same.grew
  have shape (p : Word) (q : List Idx) (i : Idx) (position : pos p = some q) :
      (forkCopy k₁ pages stack t).mem p i &&& navMask = k.mem p i &&& navMask := by
    by_cases lower : Lower k.mem t p i
    · rw [marks p i lower, mmuMarkCopied_nav]
    · rw [others p i (layout.inUse p q position) lower]
  have usedCopy := (same.inUse _).mpr usedTable
  exact ⟨wf, grew, layout.withCopy root usedCopy (layout.unused _ freeTable) shape copy
    (fun p used => grew.keepsUse p used) others, freeTable, usedCopy, same.backs backedTable, marks,
    others, copy⟩

end Fork

-- The address of the struct that task_fork sets up.
def forkedChild (s : Sys) : Option Word :=
  match forkAlloc s.kernel with
  | .ok (pages, _) => some pages.task
  | .error _ => none

def Sys.Live (s : Sys) (ptr : Word) : Prop := ∃ i, s.tasks i = some ptr

/-- The tables of every live task are laid out by `pos`, and no live struct is in a free page. -/
structure SysLayout (s : Sys) (pos : Pos) : Prop where
  wf : KernelWf s.kernel
  layout : TaskLayout s.kernel pos
  roots : ∀ ptr, s.Live ptr → pos (s.table ptr) = some []
  structs : ∀ ptr, s.Live ptr → ¬ Free s.kernel ptr
  running : s.Live s.current

theorem taskFork_fails (s : Sys) (err : KernErr) (k : Kernel)
    (failed : forkAlloc s.kernel = .error (err, k)) :
    (taskFork s).1 = (-1, err) ∧ (taskFork s).2.kernel = k ∧ (taskFork s).2.tasks = s.tasks ∧
      (taskFork s).2.current = s.current ∧ ∀ ptr, (taskFork s).2.table ptr = s.table ptr := by
  have same : forkAlloc (s.setTask s.current
      { s.currentTask with preemptCount := s.currentTask.preemptCount + 1 }).kernel =
      .error (err, k) := failed
  unfold taskFork
  simp only [same]
  refine ⟨trivial, trivial, rfl, rfl, fun ptr => ?_⟩
  by_cases here : ptr = s.current
  · simp [Sys.table, Sys.setTask, Sys.currentTask, here]
  · simp [Sys.table, Sys.setTask, here]

theorem taskFork_works (s : Sys) (pages : ForkPages) (k : Kernel)
    (worked : forkAlloc s.kernel = .ok (pages, k)) (apart : s.current ≠ pages.task) :
    (taskFork s).1 = (s.taskCount + 1, .ok) ∧
      (taskFork s).2.kernel = forkCopy k pages s.currentTask.kernelStack (s.table s.current) ∧
      (taskFork s).2.tasks = taskAdd s.tasks pages.task ∧ (taskFork s).2.current = s.current ∧
      ∀ ptr, (taskFork s).2.table ptr = if ptr = pages.task then pages.table else s.table ptr := by
  have same : forkAlloc (s.setTask s.current
      { s.currentTask with preemptCount := s.currentTask.preemptCount + 1 }).kernel =
      .ok (pages, k) := worked
  unfold taskFork
  simp only [same]
  refine ⟨rfl, ?_, rfl, rfl, fun ptr => ?_⟩
  · simp [Sys.setTask, Sys.currentTask, Sys.table]
  · by_cases here : ptr = s.current
    · subst here
      simp [Sys.table, Sys.setTask, Sys.currentTask, apart]
    · by_cases child : ptr = pages.task
      · simp [Sys.table, Sys.setTask, child, Ne.symm apart, physToVirt_virtToPhys]
      · simp [Sys.table, Sys.setTask, here, child]

theorem firstSlot_some (found : Fin taskTotal → Bool) (i : Fin taskTotal)
    (first : firstSlot found = some i) : found i = true :=
  List.find?_some first

theorem taskAdd_cases (tasks : Fin taskTotal → Option Word) (ptr p : Word) (i : Fin taskTotal)
    (there : taskAdd tasks ptr i = some p) :
    (p = ptr ∧ ∃ i, tasks i = none) ∨ tasks i = some p := by
  unfold taskAdd at there
  cases first : firstSlot fun i => (tasks i).isNone with
  | none =>
    rw [first] at there
    exact .inr there
  | some j =>
    simp only [first] at there
    by_cases here : i = j
    · subst here
      rw [Function.update_self] at there
      have empty := firstSlot_some _ i first
      exact .inl ⟨(Option.some.inj there).symm, i, by simpa using empty⟩
    · rw [Function.update_of_ne here] at there
      exact .inr there

theorem taskAdd_listed (tasks : Fin taskTotal → Option Word) (ptr : Word)
    (room : ∃ i, tasks i = none) : ∃ i, taskAdd tasks ptr i = some ptr := by
  unfold taskAdd
  cases first : firstSlot fun i => (tasks i).isNone with
  | none =>
    obtain ⟨i, empty⟩ := room
    have full := List.find?_eq_none.mp first i (List.mem_finRange i)
    simp [empty] at full
  | some i => exact ⟨i, Function.update_self ..⟩

theorem taskAdd_keeps (tasks : Fin taskTotal → Option Word) (ptr p : Word) (i : Fin taskTotal)
    (there : tasks i = some p) : taskAdd tasks ptr i = some p := by
  unfold taskAdd
  cases first : firstSlot fun i => (tasks i).isNone with
  | none => exact there
  | some j =>
    have other : i ≠ j := by
      rintro rfl
      have empty := firstSlot_some _ i first
      simp [there] at empty
    simp only [Function.update_of_ne other]
    exact there

/-- What a successful task_fork leaves behind, in a system whose tables are laid out by `pos`. -/
structure ForkedSys (s s' : Sys) (pos : Pos) (child : Word) : Prop where
  forked : Forked s.kernel s'.kernel pos (s.table s.current) (s'.table child)
  fresh : Free s.kernel child
  used : InUse s'.kernel child
  backed : Backed s'.kernel child
  live : ∀ ptr, s.Live ptr → s'.Live ptr
  only : ∀ ptr, s'.Live ptr → s.Live ptr ∨ (ptr = child ∧ ∃ i, s.tasks i = none)
  listed : (∃ i, s.tasks i = none) → s'.Live child
  tables : ∀ ptr, ptr ≠ child → s'.table ptr = s.table ptr
  current : s'.current = s.current

theorem taskFork_spec (s : Sys) (pos : Pos) (system : SysLayout s pos) :
    (∃ child, (taskFork s).1 = (s.taskCount + 1, .ok) ∧ forkedChild s = some child ∧
      canAlloc 3 s.kernel = true ∧ ForkedSys s (taskFork s).2 pos child) ∨
    ∃ pages, (taskFork s).1 = (-1, .memOom) ∧ forkedChild s = none ∧ canAlloc 3 s.kernel = false ∧
      Taken s.kernel (taskFork s).2.kernel pages ∧ (taskFork s).2.tasks = s.tasks ∧
      (taskFork s).2.current = s.current ∧ ∀ ptr, (taskFork s).2.table ptr = s.table ptr := by
  rcases forkAlloc_spec s.kernel system.wf with
    ⟨pages, k, worked, enough, taken⟩ | ⟨pages, k, failed, taken, _, dry⟩
  · have fresh := (taken.fresh pages.task (by simp)).1
    have apart (ptr : Word) (live : s.Live ptr) : ptr ≠ pages.task := by
      rintro rfl
      exact system.structs _ live fresh
    obtain ⟨result, kernel, tasks, current, tables⟩ :=
      taskFork_works s pages k worked (apart _ system.running)
    have table : (taskFork s).2.table pages.task = pages.table := by rw [tables, if_pos rfl]
    have root := system.roots _ system.running
    refine .inl ⟨pages.task, result, by simp [forkedChild, worked], enough, ?_⟩
    constructor
    case forked =>
      rw [table, kernel]
      exact forkCopy_forked system.layout root taken
    case fresh => exact fresh
    case used =>
      rw [kernel]
      exact ((forkCopy_same system.layout root taken).inUse _).mpr (taken.fresh _ (by simp)).2.1
    case backed =>
      rw [kernel]
      exact (forkCopy_same system.layout root taken).backs (taken.fresh _ (by simp)).2.2
    case live =>
      rintro ptr ⟨i, there⟩
      exact ⟨i, by rw [tasks]; exact taskAdd_keeps _ _ _ i there⟩
    case only =>
      rintro ptr ⟨i, there⟩
      rw [tasks] at there
      exact (taskAdd_cases _ _ _ i there).symm.imp_left fun old => ⟨i, old⟩
    case listed =>
      intro room
      obtain ⟨i, there⟩ := taskAdd_listed s.tasks pages.task room
      exact ⟨i, by rw [tasks]; exact there⟩
    case tables => exact fun ptr other => by rw [tables, if_neg other]
    case current => exact current
  · obtain ⟨result, kernel, rest⟩ := taskFork_fails s .memOom k failed
    exact .inr ⟨pages, result, by simp [forkedChild, failed], dry, by rw [kernel]; exact taken, rest⟩

theorem ForkedSys.system {s s' : Sys} {pos : Pos} {child : Word} (forked : ForkedSys s s' pos child)
    (system : SysLayout s pos) :
    SysLayout s' (Function.update pos (s'.table child) (some [])) where
  wf := forked.forked.wf
  layout := forked.forked.layout
  roots ptr live := by
    by_cases here : ptr = child
    · rw [here]
      exact Function.update_self ..
    · have old := (forked.only ptr live).resolve_right fun new => here new.1
      have position := system.roots ptr old
      rw [forked.tables ptr here]
      exact extend_keeps (system.layout.unused _ forked.forked.fresh) position
  structs ptr live free := by
    rcases forked.only ptr live with old | ⟨rfl, _⟩
    · exact system.structs ptr old (forked.forked.grew.shrinks ptr free)
    · exact not_free_of_marked _ _ forked.used.1 free
  running := by
    rw [forked.current]
    exact forked.live _ system.running

-- Two tables with one root row share everything below it.
theorem twin_node {k : Kernel} {t u : Word} (twins : k.mem u = k.mem t) (path : List Idx)
    (nonempty : path ≠ []) : node nav k.mem u path = node nav k.mem t path := by
  cases path with
  | nil => exact absurd rfl nonempty
  | cons i path => rw [node_cons, node_cons, twins]

section Forked

variable {s s' : Sys} {pos : Pos} {child : Word} (system : SysLayout s pos)
  (forked : ForkedSys s s' pos child)

include system forked

theorem ForkedSys.childAway : s'.table child ≠ s.table s.current := by
  intro same
  have position := system.roots _ system.running
  rw [← same, system.layout.unused _ forked.forked.fresh] at position
  cases position

theorem ForkedSys.currentAway : s.current ≠ child := by
  rintro rfl
  exact system.structs _ system.running forked.fresh

theorem ForkedSys.parentTable : s'.table s.current = s.table s.current :=
  forked.tables _ (forked.currentAway system)

theorem ForkedSys.positions :
    Function.update pos (s'.table child) (some []) (s.table s.current) = some [] ∧
      Function.update pos (s'.table child) (some []) (s'.table child) = some [] :=
  ⟨extend_keeps (system.layout.unused _ forked.forked.fresh) (system.roots _ system.running),
    Function.update_self ..⟩

theorem ForkedSys.twins : s'.kernel.mem (s'.table child) = s'.kernel.mem (s.table s.current) := by
  rw [forked.forked.copy]
  funext i
  have root := system.roots _ system.running
  rw [forked.forked.others _ i (system.layout.inUse _ [] root)]
  intro lower
  obtain ⟨q, position, nonempty⟩ := lower_pos system.layout root _ i lower
  rw [root] at position
  obtain rfl := Option.some.inj position
  simp at nonempty

theorem ForkedSys.shape (p : Word) (q : List Idx) (i : Idx) (position : pos p = some q) :
    s'.kernel.mem p i &&& navMask = s.kernel.mem p i &&& navMask := by
  by_cases lower : Lower s.kernel.mem (s.table s.current) p i
  · rw [forked.forked.marks p i lower, mmuMarkCopied_nav]
  · rw [forked.forked.others p i (system.layout.inUse p q position) lower]

theorem ForkedSys.walks (t : Word) (root : pos t = some []) (q : List Idx) (short : q.length ≤ 4) :
    node nav s'.kernel.mem t q = node nav s.kernel.mem t q :=
  system.layout.typed.node_same t
    (fun p r i position => nav_congr _ _ (forked.shape system p r i position)) root q short

-- After the soft copy no level-3 entry of the two tables counts zero.
theorem ForkedSys.counted (t : Word) (either : t = s.table s.current ∨ t = s'.table child)
    (v level3 : Word) (walk : node nav s'.kernel.mem t (upperIdx v) = some level3)
    (valid : mmuIsValid (s'.kernel.mem level3 (leafIdx v)) = true) :
    refCount (s'.kernel.mem level3 (leafIdx v)) ≠ 0 := by
  have root := system.roots _ system.running
  have walk' : node nav s'.kernel.mem (s.table s.current) (upperIdx v) = some level3 := by
    rcases either with rfl | rfl
    · exact walk
    · rw [← twin_node (forked.twins system) _ (by simp [upperIdx])]
      exact walk
  rw [forked.walks system _ root _ (by simp)] at walk'
  have position := system.layout.typed.node_pos _ level3 _ root (by simp) walk'
  rw [isValid_congr _ _ (forked.shape system level3 _ _ position)] at valid
  rw [forked.forked.marks level3 _ ⟨upperIdx v, by simp, by simp, walk', .inr valid⟩]
  intro zero
  have count := refCount_mmuMarkCopied (s.kernel.mem level3 (leafIdx v))
  rw [zero] at count
  have none : (0 : Word).toNat = 0 := rfl
  omega

end Forked

-- A task by the pool pages of its struct, top-level table, kernel stack and parent's struct.
structure Member where
  task : Nat
  table : Nat
  stack : Nat
  parent : Nat
  children : Nat
deriving DecidableEq, Repr

/-- A system on a `machine`, with the given tasks in its task array. -/
def crew (cells : List Cell) (free : List Nat) (members : List Member) (running : Nat) : Sys where
  kernel := machine cells free
  task p :=
    match members.find? fun m => poolVa m.task = p with
    | some m =>
      { tranTable := poolPage m.table, pid := m.task, kernelStack := poolVa m.stack,
        parent := poolVa m.parent, childrenNo := m.children, state := .running, preemptCount := 0,
        priority := 1, counter := 1 }
    | none =>
      { tranTable := 0, pid := 0, kernelStack := 0, parent := 0, childrenNo := 0, state := .blocked,
        preemptCount := 0, priority := 1, counter := 1 }
  tasks i := (members[i.val]?).map fun m => poolVa m.task
  current := poolVa running
  taskCount := members.length

def CrewFits (members : List Member) (free : List Nat) (tables : Tables) (running : Nat) : Prop :=
  (∀ m, m ∈ members → m.task < 384 ∧ m.task ∉ free ∧ posOf tables (poolVa m.table) = some []) ∧
    (members.map Member.task).Nodup ∧ members.length ≤ taskTotal ∧
      running ∈ members.map Member.task

instance (members : List Member) (free : List Nat) (tables : Tables) (running : Nat) :
    Decidable (CrewFits members free tables running) := by
  unfold CrewFits
  infer_instance

theorem crew_find (members : List Member) (inside : ∀ m, m ∈ members → m.task < 384)
    (distinct : (members.map Member.task).Nodup) (m : Member) (member : m ∈ members) :
    members.find? (fun n => poolVa n.task = poolVa m.task) = some m := by
  cases found : members.find? fun n => poolVa n.task = poolVa m.task with
  | none =>
    have absent := List.find?_eq_none.mp found m member
    simp at absent
  | some n =>
    have other := List.mem_of_find?_eq_some found
    have same := List.find?_some found
    rw [decide_eq_true_eq] at same
    have low (k : Nat) (small : k < 384) : k < managed := by rw [managed_eq]; omega
    have equal := poolVa_inj n.task m.task (low _ (inside n other)) (low _ (inside m member)) same
    rw [List.inj_on_of_nodup_map distinct other member equal]

section Crew

variable (cells : List Cell) (free : List Nat) (members : List Member) (running : Nat)
  (tables : Tables) (crewFits : CrewFits members free tables running)

include crewFits

theorem crew_live (ptr : Word) :
    (crew cells free members running).Live ptr ↔ ∃ m, m ∈ members ∧ ptr = poolVa m.task := by
  constructor
  · rintro ⟨i, there⟩
    simp only [crew, Option.map_eq_some_iff] at there
    obtain ⟨m, found, same⟩ := there
    exact ⟨m, List.mem_of_getElem? found, same.symm⟩
  · rintro ⟨m, member, rfl⟩
    obtain ⟨i, small, found⟩ := List.getElem_of_mem member
    refine ⟨⟨i, by have := crewFits.2.2.1; omega⟩, ?_⟩
    simp [crew, List.getElem?_eq_getElem small, found]

theorem crew_table (m : Member) (member : m ∈ members) :
    (crew cells free members running).table (poolVa m.task) = poolVa m.table := by
  have found := crew_find members (fun m member => (crewFits.1 m member).1) crewFits.2.1 m member
  simp only [Sys.table, crew, found]
  rfl

theorem crew_layout (fits : Fits cells free tables) (taskFits : TaskFits cells tables) :
    SysLayout (crew cells free members running) (posOf tables) where
  wf := machine_wf cells free fits.1
  layout := machine_taskLayout cells free tables fits taskFits
  roots ptr live := by
    obtain ⟨m, member, rfl⟩ := (crew_live cells free members running tables crewFits ptr).mp live
    rw [crew_table cells free members running tables crewFits m member]
    exact (crewFits.1 m member).2.2
  structs ptr live := by
    obtain ⟨m, member, rfl⟩ := (crew_live cells free members running tables crewFits ptr).mp live
    show ¬ Free (machine cells free) (poolVa m.task)
    rw [machine_free cells free fits.1]
    rintro ⟨n, isFree, same⟩
    obtain ⟨small, busy, _⟩ := crewFits.1 m member
    have low := (fits.1 n isFree).2
    have equal := poolVa_inj m.task n (by rw [managed_eq]; omega) (by rw [managed_eq]; omega) same
    exact busy (equal ▸ isFree)
  running := by
    obtain ⟨m, member, same⟩ := List.mem_map.mp crewFits.2.2.2
    exact (crew_live cells free members running tables crewFits _).mpr ⟨m, member, by rw [← same]; rfl⟩

end Crew

-- One task: struct in page 10, kernel stack in page 11, top-level table in page 4.
def oneTask (cells : List Cell) (free : List Nat) : Sys := crew cells free [⟨10, 4, 11, 10, 0⟩] 10

theorem oneTask_layout (cells : List Cell) (free : List Nat) (tables : Tables)
    (fits : Fits cells free tables) (taskFits : TaskFits cells tables)
    (root : posOf tables (poolVa 4) = some []) (busy : 10 ∉ free) :
    SysLayout (oneTask cells free) (posOf tables) := by
  refine crew_layout cells free [⟨10, 4, 11, 10, 0⟩] 10 tables ⟨?_, by simp, by decide, by simp⟩ fits
    taskFits
  intro m member
  obtain rfl := List.mem_singleton.mp member
  exact ⟨by decide, busy, root⟩

end Anthill
