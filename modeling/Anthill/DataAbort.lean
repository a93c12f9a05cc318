import Anthill.Task

set_option autoImplicit false

namespace Anthill

open Radix

-- One level of mmu_handle_data_abort: entry `a` of `above` names `level`, whose entry `i` is next on
-- the path. An entry that is counted twice costs a copy of its table. `.error` is a return of NULL.
def cowStep (k : Kernel) (above : Word) (a : Idx) (level : Word) (i : Idx) :
    Except Kernel (Word × Kernel) :=
  if !mmuIsValid (k.mem level i) then .error k
  else
    let freed := mmuMarkFreed (k.mem level i)
    let k := k.write level i freed.2
    if 0 < freed.1 then
      match memKernelAllocPage k .rw with
      | (⟨page, .ok⟩, k) =>
        let k := k.writePage page (k.mem level)
        .ok (page, k.write above a (tableEntry page))
      | (_, k) => .error k
    else .ok (level, k)

def cowLevels : Kernel → Word → Idx → List Idx → Except Kernel (Word × Idx × Kernel)
  | k, above, a, [] => .ok (above, a, k)
  | k, above, a, i :: idx =>
    match cowStep k above a (mmuGetVaddr (k.mem above a)) i with
    | .error k => .error k
    | .ok (level, k) => cowLevels k level i idx

-- The last part of mmu_handle_data_abort. The page is copied whether it is shared or not.
def copyData (k : Kernel) (level3 : Word) (i : Idx) : Except Kernel Kernel :=
  match memKernelAllocPage k .rw with
  | (⟨page, .ok⟩, k) =>
    let k := k.writePage page (k.mem (mmuGetVaddr (k.mem level3 i)))
    .ok (k.write level3 i (copiedLeaf (k.mem level3 i) page))
  | (_, k) => .error k

def mmuHandleDataAbort (k : Kernel) (table vaddr : Word) : Word × Kernel :=
  let level0 := physToVirt table
  let i0 := tableIdx vaddr 39
  if !mmuIsValid (k.mem level0 i0) then (0, k)
  else
    match cowLevels k level0 i0 [tableIdx vaddr 30, tableIdx vaddr 21, leafIdx vaddr] with
    | .error k => (0, k)
    | .ok (level3, i, k) =>
      match copyData k level3 i with
      | .error k => (0, k)
      | .ok k => (vaddr &&& vaddrMask, k)

/-- A task's tables, and the one that its walk along `q` has come to: its entry `a` is valid. -/
structure Site (k : Kernel) (pos : Pos) (t above : Word) (q : List Idx) (a : Idx) : Prop where
  wf : KernelWf k
  layout : TaskLayout k pos
  root : pos t = some []
  walk : node nav k.mem t q = some above
  short : q.length ≤ 3
  valid : mmuIsValid (k.mem above a) = true

-- The page that entry `a` of `above` names.
def Kernel.next (k : Kernel) (above : Word) (a : Idx) : Word := mmuGetVaddr (k.mem above a)

section Site

variable {k : Kernel} {pos : Pos} {t above : Word} {q : List Idx} {a : Idx}
  (site : Site k pos t above q a)

include site

theorem Site.here : pos above = some q :=
  site.layout.typed.node_pos t above q site.root site.short site.walk

theorem Site.goes : nav (k.mem above a) = some (k.next above a) := nav_of_valid _ site.valid

theorem Site.nextWalk : node nav k.mem t (q ++ [a]) = some (k.next above a) := by
  rw [node_concat_some nav k.mem t above q a site.walk]
  exact site.goes

theorem Site.nextHere (upper : q.length < 3) : pos (k.next above a) = some (q ++ [a]) :=
  site.layout.typed.child above q a _ site.here upper site.goes

theorem Site.apart (upper : q.length < 3) : k.next above a ≠ above := by
  intro same
  have twice := site.nextHere upper
  rw [same, site.here] at twice
  simp at twice

end Site

/-- The table `level` has been replaced by a copy in the page `va`, which entry `a` of `above` now
names, after its entry `i` was counted down. -/
structure Replaced (k k' : Kernel) (above : Word) (a : Idx) (level : Word) (i : Idx) (va : Word) :
    Prop where
  wf : KernelWf k'
  grew : Grew k k'
  fresh : Free k va
  used : InUse k' va
  backed : Backed k' va
  freed : k'.mem level i = (mmuMarkFreed (k.mem level i)).2
  row : k'.mem va = k'.mem level
  link : k'.mem above a = tableEntry va
  others : ∀ p j, InUse k p → (p ≠ level ∨ j ≠ i) → (p ≠ above ∨ j ≠ a) →
    k'.mem p j = k.mem p j
  marked : ∀ p, Marked k' p → Marked k p ∨ p = va ∨ (KernelTable k' p ∧ ¬ KernelTable k p)
  room : ∀ count, canAlloc count k' = canAlloc (count + 1) k

theorem Replaced.page {k k' : Kernel} {above level va : Word} {a i : Idx}
    (replaced : Replaced k k' above a level i va) : IsPage va := by
  obtain ⟨n, inside, rfl, _⟩ := replaced.fresh
  exact isPage_poolVa n inside

theorem canAlloc_first (k : Kernel) (wf : KernelWf k) :
    (canAlloc 1 k = false ∧ memKernelAllocPage k .rw = (⟨0, .memOom⟩, k)) ∨
      ∃ va k', memKernelAllocPage k .rw = (⟨va, .ok⟩, k') ∧ Allocated k k' va := by
  rcases memKernelAllocPage_rw k wf with oom | taken
  · exact .inl ⟨canAlloc_oom k 0 oom, oom⟩
  · exact .inr taken

-- The state after entry `i` of the table below has been counted down.
def Kernel.countDown (k : Kernel) (level : Word) (i : Idx) : Kernel :=
  k.write level i (mmuMarkFreed (k.mem level i)).2

-- The state after the table has been copied to `va` and the copy linked in its place.
def Kernel.relink (k : Kernel) (above : Word) (a : Idx) (level va : Word) : Kernel :=
  (k.writePage va (k.mem level)).write above a (tableEntry va)

theorem countDown_mem (k : Kernel) (level : Word) (i : Idx) :
    (k.countDown level i).mem = put k.mem level i (mmuMarkFreed (k.mem level i)).2 := rfl

theorem relink_mem (k : Kernel) (above : Word) (a : Idx) (level va : Word) :
    (k.relink above a level va).mem =
      put (putPage k.mem va (k.mem level)) above a (tableEntry va) := rfl

section Step

variable {k : Kernel} {pos : Pos} {t above : Word} {q : List Idx} {a : Idx}
  (site : Site k pos t above q a) (upper : q.length < 3)

include site upper

theorem Site.countDown_same (i : Idx) : SameKernel k (k.countDown (k.next above a) i) :=
  sameKernel_put _ _ _ _ (site.layout.inUse _ _ (site.nextHere upper)).2

theorem Site.replaced (i : Idx) (k₂ : Kernel) (va : Word)
    (taken : memKernelAllocPage (k.countDown (k.next above a) i) .rw = (⟨va, .ok⟩, k₂))
    (allocated : Allocated (k.countDown (k.next above a) i) k₂ va) :
    Replaced k (k₂.relink above a (k.next above a) va) above a (k.next above a) i va := by
  have usedLevel := site.layout.inUse _ _ (site.nextHere upper)
  have usedAbove := site.layout.inUse above _ site.here
  have apart := site.apart upper
  have same := site.countDown_same upper i
  have fewer := same.allocs site.wf
  have counted := countDown_mem k (k.next above a) i
  generalize k.next above a = level at *
  generalize k.countDown level i = k₁ at *
  have usedLevel₁ := (same.inUse level).mpr usedLevel
  have usedAbove₁ := (same.inUse above).mpr usedAbove
  have fresh : Free k va := (same.free va).mp allocated.wasFree
  have away (p : Word) (used : InUse k p) : p ≠ va := by
    rintro rfl
    exact not_free_of_marked k _ used.1 fresh
  have copied := sameKernel_putPage k₂ va (k₂.mem level) allocated.inUse.2
  have linked := sameKernel_put (k₂.writePage va (k₂.mem level)) above a (tableEntry va)
    ((copied.inUse above).mpr (allocated.keeps above usedAbove₁).1).2
  have after : SameKernel k₂ (k₂.relink above a level va) := copied.trans linked
  have mem := relink_mem k₂ above a level va
  generalize k₂.relink above a level va = k' at after mem
  have levelRow : k₂.mem level = k₁.mem level := (allocated.keeps level usedLevel₁).2
  have level' : k'.mem level = k₁.mem level := by
    rw [mem, put_page_other _ _ _ _ _ apart, putPage_other _ _ _ _ (away _ usedLevel), levelRow]
  constructor
  case wf => exact after.wf allocated.wf
  case grew => exact (same.grew.trans allocated.grew).trans after.grew
  case fresh => exact fresh
  case used => exact (after.inUse va).mpr allocated.inUse
  case backed => exact after.backs allocated.backed
  case freed => rw [level', counted, put_same]
  case row =>
    rw [level', mem, put_page_other _ _ _ _ _ (away _ usedAbove).symm, putPage_same, levelRow]
  case link => rw [mem, put_same]
  case others =>
    intro p j used notLevel notAbove
    rw [mem, put_other _ _ _ _ _ _ notAbove, putPage_other _ _ _ _ (away p used),
      (allocated.keeps p ((same.inUse p).mpr used)).2, counted, put_other _ _ _ _ _ _ notLevel]
  case marked =>
    intro p used
    rcases allocated.grows p ((after.marks p).mp used) with old | new | ⟨table, before⟩
    · exact .inl ((same.marks p).mp old)
    · exact .inr (.inl new)
    · exact .inr (.inr ⟨(after.kernelTable p).mpr table,
        fun was => before ((same.kernelTable p).mpr was)⟩)
  case room =>
    intro count
    rw [after.allocs allocated.wf, ← fewer, canAlloc_next _ _ va count taken]

end Step

/-- The four ways in which one level of mmu_handle_data_abort ends. -/
theorem cowStep_cases (k : Kernel) (pos : Pos) (t above : Word) (q : List Idx) (a i : Idx)
    (site : Site k pos t above q a) (upper : q.length < 3) :
    (mmuIsValid (k.mem (k.next above a) i) = false ∧
      cowStep k above a (k.next above a) i = .error k) ∨
    (mmuIsValid (k.mem (k.next above a) i) = true ∧ refCount (k.mem (k.next above a) i) = 0 ∧
      cowStep k above a (k.next above a) i = .ok (k.next above a, k)) ∨
    (mmuIsValid (k.mem (k.next above a) i) = true ∧ refCount (k.mem (k.next above a) i) ≠ 0 ∧
      canAlloc 1 k = false ∧
      cowStep k above a (k.next above a) i = .error (k.countDown (k.next above a) i)) ∨
    (mmuIsValid (k.mem (k.next above a) i) = true ∧ refCount (k.mem (k.next above a) i) ≠ 0 ∧
      ∃ va k', cowStep k above a (k.next above a) i = .ok (va, k') ∧
        Replaced k k' above a (k.next above a) i va) := by
  have same := site.countDown_same upper i
  cases valid : mmuIsValid (k.mem (k.next above a) i) with
  | false => exact .inl ⟨rfl, by simp [cowStep, valid]⟩
  | true =>
    right
    by_cases zero : refCount (k.mem (k.next above a) i) = 0
    · refine .inl ⟨rfl, zero, ?_⟩
      simp [cowStep, valid, zero, mmuMarkFreed_zero _ zero, Kernel.write_self]
    · right
      have counted : 0 < refCount (k.mem (k.next above a) i) := by bv_omega
      have unfolded : cowStep k above a (k.next above a) i =
          match memKernelAllocPage (k.countDown (k.next above a) i) .rw with
          | (⟨page, .ok⟩, k') => .ok (page, k'.relink above a (k.next above a) page)
          | (_, k') => .error k' := by
        simp only [cowStep, valid, mmuMarkFreed_fst, counted, if_true, Bool.not_true,
          Bool.false_eq_true, if_false]
        rfl
      rcases canAlloc_first _ (same.wf site.wf) with ⟨dry, oom⟩ | ⟨va, k₂, taken, allocated⟩
      · refine .inl ⟨rfl, zero, ?_, by rw [unfolded, oom]⟩
        rw [← same.allocs site.wf, dry]
      · exact .inr ⟨rfl, zero, va, _, by rw [unfolded, taken],
          site.replaced upper i k₂ va taken allocated⟩

/-- The data page that leaf `i` of `level3` names has been copied to the page `va`. -/
structure DataCopied (k k' : Kernel) (level3 : Word) (i : Idx) (va : Word) : Prop where
  wf : KernelWf k'
  grew : Grew k k'
  fresh : Free k va
  used : InUse k' va
  backed : Backed k' va
  leaf : k'.mem level3 i = copiedLeaf (k.mem level3 i) va
  others : ∀ p j, InUse k p → (p ≠ level3 ∨ j ≠ i) → k'.mem p j = k.mem p j
  marked : ∀ p, Marked k' p → Marked k p ∨ p = va ∨ (KernelTable k' p ∧ ¬ KernelTable k p)

theorem copyData_cases (k : Kernel) (wf : KernelWf k) (level3 : Word) (i : Idx)
    (usedTable : InUse k level3) :
    (canAlloc 1 k = false ∧ copyData k level3 i = .error k) ∨
      ∃ va k', copyData k level3 i = .ok k' ∧ DataCopied k k' level3 i va := by
  rcases canAlloc_first k wf with ⟨dry, oom⟩ | ⟨va, k₁, taken, allocated⟩
  · exact .inl ⟨dry, by simp [copyData, oom]⟩
  · right
    have used₁ := (allocated.keeps level3 usedTable).1
    have away (p : Word) (used : InUse k p) : p ≠ va := by
      rintro rfl
      exact not_free_of_marked k _ used.1 allocated.wasFree
    generalize hrow : k₁.mem (mmuGetVaddr (k₁.mem level3 i)) = row
    have copied := sameKernel_putPage k₁ va row allocated.inUse.2
    have leafRow : (k₁.writePage va row).mem level3 = k.mem level3 := by
      rw [Kernel.writePage_mem, putPage_other _ _ _ _ (away _ usedTable),
        (allocated.keeps level3 usedTable).2]
    have linked := sameKernel_put (k₁.writePage va row) level3 i (copiedLeaf (k.mem level3 i) va)
      ((copied.inUse level3).mpr used₁).2
    have after := copied.trans linked
    have result : copyData k level3 i =
        .ok ((k₁.writePage va row).write level3 i (copiedLeaf (k.mem level3 i) va)) := by
      simp only [copyData, taken, hrow, leafRow]
    have mem := Kernel.write_mem (k₁.writePage va row) level3 i (copiedLeaf (k.mem level3 i) va)
    rw [Kernel.writePage_mem] at mem
    generalize (k₁.writePage va row).write level3 i (copiedLeaf (k.mem level3 i) va) = k' at *
    refine ⟨va, k', result, ?_⟩
    constructor
    case wf => exact after.wf allocated.wf
    case grew => exact allocated.grew.trans after.grew
    case fresh => exact allocated.wasFree
    case used => exact (after.inUse va).mpr allocated.inUse
    case backed => exact after.backs allocated.backed
    case leaf => rw [mem, put_same]
    case others =>
      intro p j used different
      rw [mem, put_other _ _ _ _ _ _ different, putPage_other _ _ _ _ (away p used),
        (allocated.keeps p used).2]
    case marked =>
      intro p used
      rcases allocated.grows p ((after.marks p).mp used) with old | new | ⟨table, before⟩
      · exact .inl old
      · exact .inr (.inl new)
      · exact .inr (.inr ⟨(after.kernelTable p).mpr table, before⟩)

section Replaced

variable {k k' : Kernel} {pos : Pos} {t above va : Word} {q : List Idx} {a i : Idx}
  (site : Site k pos t above q a) (upper : q.length < 3)
  (replaced : Replaced k k' above a (k.next above a) i va)

include site upper replaced

omit upper in
theorem Replaced.unused : pos va = none := site.layout.unused va replaced.fresh

omit upper in
theorem Replaced.away (p : Word) (r : List Idx) (position : pos p = some r) : p ≠ va := by
  rintro rfl
  rw [site.layout.unused p replaced.fresh] at position
  cases position

-- Of the entries that are not the link, only the counted one changes.
omit upper in
theorem Replaced.changes (p : Word) (r : List Idx) (j : Idx) (position : pos p = some r)
    (away : p ≠ above ∨ j ≠ a) : (p = k.next above a ∧ j = i) ∨ k'.mem p j = k.mem p j := by
  by_cases counted : p = k.next above a ∧ j = i
  · exact .inl counted
  · exact .inr (replaced.others p j (site.layout.inUse p r position) (not_and_or.mp counted) away)

-- Only the link changes where a table leads.
omit upper in
theorem Replaced.goes (p : Word) (r : List Idx) (j : Idx) (position : pos p = some r)
    (away : p ≠ above ∨ j ≠ a) : k'.mem p j &&& navMask = k.mem p j &&& navMask := by
  rcases replaced.changes site p r j position away with ⟨rfl, rfl⟩ | same
  · rw [replaced.freed, mmuMarkFreed_nav]
  · rw [same]

omit upper in
theorem Replaced.entry (p : Word) (r : List Idx) (j : Idx) (position : pos p = some r) :
    (p = above ∧ j = a) ∨ k'.mem p j &&& navMask = k.mem p j &&& navMask := by
  by_cases link : p = above ∧ j = a
  · exact .inl link
  · exact .inr (replaced.goes site p r j position (not_and_or.mp link))

theorem Replaced.goesCopy (j : Idx) :
    k'.mem va j &&& navMask = k.mem (k.next above a) j &&& navMask := by
  rw [replaced.row]
  exact replaced.goes site _ _ j (site.nextHere upper) (.inl (site.apart upper))

theorem Replaced.walks (u : Word) (root : pos u = some []) (s : List Idx) (short : s.length ≤ 4) :
    node nav k'.mem u s =
      if s = q ++ [a] ∧ node nav k.mem u q = some above then some va else node nav k.mem u s := by
  refine site.layout.typed.node_relink u above va q a site.here ?_ ?_ ?_ ?_ root s short
  · rw [replaced.link, tableEntry_nav va replaced.page]
  · exact fun p r j position away => nav_congr _ _ (replaced.goes site p r j position away)
  · intro c j _ found
    rw [site.goes] at found
    obtain rfl := Option.some.inj found
    exact nav_congr _ _ (replaced.goesCopy site upper j)
  · rw [site.goes]
    rfl

theorem Replaced.layout : TaskLayout k' (Function.update pos va (some (q ++ [a]))) := by
  have new := replaced.unused site
  have there := site.nextHere upper
  have page := replaced.page
  have deeper : (q ++ [a]).length = q.length + 1 := by simp
  refine { toUserLayout := ⟨⟨?bound, ?child⟩, ?inUse, ?table⟩, blank := ?blank, topRef := ?topRef }
  case bound =>
    intro p r position
    rcases extend_cases position with ⟨_, rfl⟩ | ⟨_, before⟩
    · omega
    · exact site.layout.typed.bound p r before
  case child =>
    intro p r j c position short found
    rcases extend_cases position with ⟨rfl, rfl⟩ | ⟨_, before⟩
    · rw [nav_congr _ _ (replaced.goesCopy site upper j)] at found
      exact extend_keeps new (site.layout.typed.child _ _ j c there short found)
    · rcases replaced.entry site p r j before with ⟨rfl, rfl⟩ | same
      · rw [replaced.link, tableEntry_nav va page] at found
        obtain rfl := Option.some.inj found
        obtain rfl := Option.some.inj (site.here.symm.trans before)
        exact Function.update_self ..
      · rw [nav_congr _ _ same] at found
        exact extend_keeps new (site.layout.typed.child p r j c before short found)
  case inUse =>
    intro p r position
    rcases extend_cases position with ⟨rfl, _⟩ | ⟨_, before⟩
    · exact replaced.used
    · exact replaced.grew.keepsUse p (site.layout.inUse p r before)
  case table =>
    intro p r j position upper' valid
    rcases extend_cases position with ⟨rfl, rfl⟩ | ⟨_, before⟩
    · have same := replaced.goesCopy site upper j
      rw [isValid_congr _ _ same] at valid
      rw [isBlock_congr _ _ same]
      exact site.layout.table _ _ j there upper' valid
    · rcases replaced.entry site p r j before with ⟨rfl, rfl⟩ | same
      · rw [replaced.link, tableEntry_block va page]
      · rw [isValid_congr _ _ same] at valid
        rw [isBlock_congr _ _ same]
        exact site.layout.table p r j before upper' valid
  case blank =>
    intro p r j position first invalid
    rcases extend_cases position with ⟨rfl, rfl⟩ | ⟨_, before⟩
    · have same := replaced.goesCopy site upper j
      rw [isValid_congr _ _ same] at invalid
      rw [isBlock_congr _ _ same]
      exact site.layout.blank _ _ j there first invalid
    · rcases replaced.entry site p r j before with ⟨rfl, rfl⟩ | same
      · rw [replaced.link, tableEntry_valid va page] at invalid
        cases invalid
      · rw [isValid_congr _ _ same] at invalid
        rw [isBlock_congr _ _ same]
        exact site.layout.blank p r j before first invalid
  case topRef =>
    intro p j position valid
    rcases extend_cases position with ⟨_, path⟩ | ⟨_, before⟩
    · simp at path
    · by_cases link : p = above ∧ j = a
      · obtain ⟨rfl, rfl⟩ := link
        rw [replaced.link, tableEntry_ref va page]
      · have away : p ≠ above ∨ j ≠ a := not_and_or.mp link
        have notNext : p ≠ k.next above a := by
          rintro rfl
          rw [there] at before
          simp at before
        rw [replaced.others p j (site.layout.inUse p _ before) (.inl notNext) away] at valid ⊢
        exact site.layout.topRef p j before valid

end Replaced

section DataCopied

variable {k k' : Kernel} {pos : Pos} {t level3 va : Word} {q : List Idx} {i : Idx}
  (site : Site k pos t level3 q i) (deep : q.length = 3) (copied : DataCopied k k' level3 i va)

include site deep copied

theorem DataCopied.walks (u : Word) (root : pos u = some []) (s : List Idx) (short : s.length ≤ 4) :
    node nav k'.mem u s =
      if s = q ++ [i] ∧ node nav k.mem u q = some level3 then some va else node nav k.mem u s := by
  have page : IsPage va := by
    obtain ⟨n, inside, rfl, _⟩ := copied.fresh
    exact isPage_poolVa n inside
  refine site.layout.typed.node_relink u level3 va q i site.here ?_ ?_ ?_ ?_ root s short
  · rw [copied.leaf, nav_some, copiedLeaf_valid _ _ page, copiedLeaf_vaddr _ _ page]
    exact ⟨site.valid, rfl⟩
  · exact fun p r j position away => by
      rw [copied.others p j (site.layout.inUse p r position) away]
  · intro c j upper
    omega
  · rw [site.goes]
    rfl

-- A leaf leads to no table.
theorem DataCopied.upper (p : Word) (r : List Idx) (j : Idx) (position : pos p = some r)
    (short : r.length < 3) : k'.mem p j = k.mem p j := by
  have other : p ≠ level3 := by
    rintro rfl
    obtain rfl := Option.some.inj (site.here.symm.trans position)
    omega
  exact copied.others p j (site.layout.inUse p r position) (.inl other)

theorem DataCopied.layout : TaskLayout k' pos where
  typed :=
    { bound := site.layout.typed.bound
      child := fun p r j c position short found => by
        rw [copied.upper site deep p r j position short] at found
        exact site.layout.typed.child p r j c position short found }
  inUse p r position := copied.grew.keepsUse p (site.layout.inUse p r position)
  table p r j position upper valid := by
    rw [copied.upper site deep p r j position (by omega)] at valid ⊢
    exact site.layout.table p r j position upper valid
  blank p r j position first invalid := by
    rw [copied.upper site deep p r j position (by omega)] at invalid ⊢
    exact site.layout.blank p r j position first invalid
  topRef p j position valid := by
    rw [copied.upper site deep p [] j position (by simp)] at valid ⊢
    exact site.layout.topRef p j position valid

end DataCopied

/-- What holds of the tables of all tasks after any call of mmu_handle_data_abort. -/
structure Aborted (k k' : Kernel) (pos pos' : Pos) : Prop where
  wf : KernelWf k'
  layout : TaskLayout k' pos'
  keeps : ∀ p q, pos p = some q → pos' p = some q
  grew : Grew k k'

theorem Aborted.refl {k : Kernel} {pos : Pos} (wf : KernelWf k) (layout : TaskLayout k pos) :
    Aborted k k pos pos :=
  ⟨wf, layout, fun _ _ position => position, .refl k⟩

theorem Aborted.trans {k k' k'' : Kernel} {pos pos' pos'' : Pos} (first : Aborted k k' pos pos')
    (second : Aborted k' k'' pos' pos'') : Aborted k k'' pos pos'' where
  wf := second.wf
  layout := second.layout
  keeps p q position := second.keeps p q (first.keeps p q position)
  grew := first.grew.trans second.grew

section Site

variable {k : Kernel} {pos : Pos} {t above : Word} {q : List Idx} {a : Idx}
  (site : Site k pos t above q a)

include site

theorem Site.entered (upper : q.length < 3) (i : Idx)
    (valid : mmuIsValid (k.mem (k.next above a) i) = true) :
    Site k pos t (k.next above a) (q ++ [a]) i := by
  have short : (q ++ [a]).length ≤ 3 := by
    rw [List.length_append, List.length_singleton]
    omega
  exact ⟨site.wf, site.layout, site.root, site.nextWalk, short, valid⟩

theorem Site.countDown_aborted (upper : q.length < 3) (i : Idx) :
    Aborted k (k.countDown (k.next above a) i) pos pos := by
  have same := site.countDown_same upper i
  have there := site.nextHere upper
  have shape : Shape k.mem (k.countDown (k.next above a) i).mem := by
    rw [countDown_mem]
    exact shape_of_touched (Touched.one (fun e => (mmuMarkFreed e).2) k.mem _ i) mmuMarkFreed_nav
  have shaped := site.layout.shaped.shape shape
  refine ⟨same.wf site.wf, ⟨⟨shaped.typed, fun p r position => ?_, shaped.table⟩, shaped.blank,
    fun p j position valid => ?_⟩, fun _ _ position => position, same.grew⟩
  · exact (same.inUse p).mpr (site.layout.inUse p r position)
  · have other : p ≠ k.next above a := by
      rintro rfl
      rw [there] at position
      simp at position
    rw [countDown_mem, put_other _ _ _ _ _ _ (.inl other)] at valid ⊢
    exact site.layout.topRef p j position valid

theorem Replaced.entered {k' : Kernel} {va : Word} {i : Idx}
    (replaced : Replaced k k' above a (k.next above a) i va) (upper : q.length < 3)
    (valid : mmuIsValid (k.mem (k.next above a) i) = true) :
    Site k' (Function.update pos va (some (q ++ [a]))) t va (q ++ [a]) i where
  wf := replaced.wf
  layout := replaced.layout site upper
  root := extend_keeps (replaced.unused site) site.root
  walk := by
    rw [replaced.walks site upper t site.root _ (by simp; omega), if_pos ⟨rfl, site.walk⟩]
  short := by
    rw [List.length_append, List.length_singleton]
    omega
  valid := by rw [isValid_congr _ _ (replaced.goesCopy site upper i), valid]

theorem Replaced.aborted {k' : Kernel} {va : Word} {i : Idx}
    (replaced : Replaced k k' above a (k.next above a) i va) (upper : q.length < 3) :
    Aborted k k' pos (Function.update pos va (some (q ++ [a]))) where
  wf := replaced.wf
  layout := replaced.layout site upper
  keeps _ _ position := extend_keeps (replaced.unused site) position
  grew := replaced.grew

end Site

/-- A rule for mmu_handle_data_abort on the tables of `t`: `inv` holds at each table that the walk
comes to, with the part of the path it has taken and the part that is left, and `post` where the call
ends, with whether it ended in the copy of a page. -/
structure CowRule (t : Word) (inv : Kernel → Pos → Word → List Idx → List Idx → Prop)
    (post : Bool → Kernel → Pos → Prop) : Prop where
  absent : ∀ k pos a idx, inv k pos t [] (a :: idx) → mmuIsValid (k.mem t a) = false → post false k pos
  missing : ∀ k pos above q a i idx, Site k pos t above q a → q.length < 3 →
    inv k pos above q (a :: i :: idx) → mmuIsValid (k.mem (k.next above a) i) = false →
    post false k pos
  kept : ∀ k pos above q a i idx, Site k pos t above q a → q.length < 3 →
    inv k pos above q (a :: i :: idx) → mmuIsValid (k.mem (k.next above a) i) = true →
    refCount (k.mem (k.next above a) i) = 0 → inv k pos (k.next above a) (q ++ [a]) (i :: idx)
  dry : ∀ k pos above q a i idx, Site k pos t above q a → q.length < 3 →
    inv k pos above q (a :: i :: idx) → mmuIsValid (k.mem (k.next above a) i) = true →
    refCount (k.mem (k.next above a) i) ≠ 0 → canAlloc 1 k = false →
    post false (k.countDown (k.next above a) i) pos
  replaced : ∀ k k' pos above q a i idx va, Site k pos t above q a → q.length < 3 →
    inv k pos above q (a :: i :: idx) → mmuIsValid (k.mem (k.next above a) i) = true →
    refCount (k.mem (k.next above a) i) ≠ 0 → Replaced k k' above a (k.next above a) i va →
    inv k' (Function.update pos va (some (q ++ [a]))) va (q ++ [a]) (i :: idx)
  full : ∀ k pos level3 q i, Site k pos t level3 q i → q.length = 3 → inv k pos level3 q [i] →
    canAlloc 1 k = false → post false k pos
  copied : ∀ k k' pos level3 q i va, Site k pos t level3 q i → q.length = 3 →
    inv k pos level3 q [i] → DataCopied k k' level3 i va → post true k' pos

section CowRule

variable {t : Word} {inv : Kernel → Pos → Word → List Idx → List Idx → Prop}
  {post : Bool → Kernel → Pos → Prop} (rule : CowRule t inv post)

include rule

theorem CowRule.step (k : Kernel) (pos : Pos) (above : Word) (q : List Idx) (a i : Idx)
    (idx : List Idx) (site : Site k pos t above q a) (upper : q.length < 3)
    (holds : inv k pos above q (a :: i :: idx)) :
    (∃ k' pos', cowStep k above a (k.next above a) i = .error k' ∧ Aborted k k' pos pos' ∧
      post false k' pos') ∨
    ∃ k' pos' level, cowStep k above a (k.next above a) i = .ok (level, k') ∧
      Aborted k k' pos pos' ∧ Site k' pos' t level (q ++ [a]) i ∧
      inv k' pos' level (q ++ [a]) (i :: idx) := by
  rcases cowStep_cases k pos t above q a i site upper with
    ⟨invalid, stepped⟩ | ⟨valid, zero, stepped⟩ | ⟨valid, counted, dry, stepped⟩ |
      ⟨valid, counted, va, k', stepped, replaced⟩
  · exact .inl ⟨k, pos, stepped, .refl site.wf site.layout,
      rule.missing k pos above q a i idx site upper holds invalid⟩
  · exact .inr ⟨k, pos, _, stepped, .refl site.wf site.layout, site.entered upper i valid,
      rule.kept k pos above q a i idx site upper holds valid zero⟩
  · exact .inl ⟨_, pos, stepped, site.countDown_aborted upper i,
      rule.dry k pos above q a i idx site upper holds valid counted dry⟩
  · exact .inr ⟨k', _, va, stepped, replaced.aborted site upper,
      replaced.entered site upper valid,
      rule.replaced k k' pos above q a i idx va site upper holds valid counted replaced⟩

theorem CowRule.levels (idx : List Idx) (k : Kernel) (pos : Pos) (above : Word) (q : List Idx)
    (a : Idx) (site : Site k pos t above q a) (room : q.length + idx.length ≤ 3)
    (holds : inv k pos above q (a :: idx)) :
    (∃ k' pos', cowLevels k above a idx = .error k' ∧ Aborted k k' pos pos' ∧ post false k' pos') ∨
    ∃ k' pos' level i q', cowLevels k above a idx = .ok (level, i, k') ∧ Aborted k k' pos pos' ∧
      Site k' pos' t level q' i ∧ q'.length = q.length + idx.length ∧ inv k' pos' level q' [i] := by
  induction idx generalizing k pos above q a with
  | nil =>
    exact .inr ⟨k, pos, above, a, q, rfl, .refl site.wf site.layout, site, rfl, holds⟩
  | cons i idx ih =>
    have deeper : (q ++ [a]).length + idx.length = q.length + (i :: idx).length := by
      rw [List.length_append, List.length_singleton, List.length_cons]
      omega
    have upper : q.length < 3 := by
      rw [List.length_cons] at room
      omega
    have unfolded : cowLevels k above a (i :: idx) =
        match cowStep k above a (k.next above a) i with
        | .error k => .error k
        | .ok (level, k) => cowLevels k level i idx := rfl
    rw [unfolded]
    rcases rule.step k pos above q a i idx site upper holds with
      ⟨k', pos', stepped, aborted, done⟩ | ⟨k₁, pos₁, level, stepped, first, site₁, holds₁⟩
    · exact .inl ⟨k', pos', by rw [stepped], aborted, done⟩
    · rw [stepped]
      rcases ih k₁ pos₁ level (q ++ [a]) i site₁ (by omega) holds₁ with
        ⟨k', pos', result, rest, done⟩ | ⟨k', pos', level', j, q', result, rest, site', size, done⟩
      · exact .inl ⟨k', pos', result, first.trans rest, done⟩
      · exact .inr ⟨k', pos', level', j, q', result, first.trans rest, site', by rw [size, deeper],
          done⟩

theorem CowRule.abort (k : Kernel) (pos : Pos) (table vaddr : Word) (here : t = physToVirt table)
    (wf : KernelWf k) (layout : TaskLayout k pos) (root : pos t = some [])
    (holds : inv k pos t [] (mmuGetTableIdx vaddr)) :
    ∃ done k' pos', mmuHandleDataAbort k table vaddr =
        (if done then vaddr &&& vaddrMask else 0, k') ∧
      Aborted k k' pos pos' ∧ post done k' pos' := by
  subst here
  unfold mmuHandleDataAbort
  cases valid : mmuIsValid (k.mem (physToVirt table) (tableIdx vaddr 39)) with
  | false =>
    exact ⟨false, k, pos, by simp [valid], .refl wf layout,
      rule.absent k pos (tableIdx vaddr 39) _ holds valid⟩
  | true =>
    have site : Site k pos (physToVirt table) (physToVirt table) [] (tableIdx vaddr 39) :=
      ⟨wf, layout, root, rfl, by simp, valid⟩
    rcases rule.levels [tableIdx vaddr 30, tableIdx vaddr 21, leafIdx vaddr] k pos _ [] _ site
      (by simp) holds with ⟨k', pos', result, aborted, done⟩ |
        ⟨k', pos', level3, i, q, result, aborted, site', deep, holds'⟩
    · exact ⟨false, k', pos', by simp [valid, result], aborted, done⟩
    · have used := site'.layout.inUse level3 q site'.here
      rcases copyData_cases k' site'.wf level3 i used with ⟨dry, copy⟩ | ⟨va, k'', copy, copied⟩
      · exact ⟨false, k', pos', by simp [valid, result, copy], aborted,
          rule.full k' pos' level3 q i site' deep holds' dry⟩
      · refine ⟨true, k'', pos', by simp [valid, result, copy], aborted.trans
          ⟨copied.wf, copied.layout site' deep, fun _ _ position => position, copied.grew⟩,
          rule.copied k' k'' pos' level3 q i va site' deep holds' copied⟩

end CowRule

end Anthill
