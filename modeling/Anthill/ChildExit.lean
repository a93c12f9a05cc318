import Anthill.ForkIsolation
import Anthill.CowAdequacy
import Anthill.Teardown

set_option autoImplicit false

namespace Anthill

open Radix

-- Every path of four indices is that of an address.
theorem exists_vaddr (path : List Idx) (full : path.length = 4) :
    ∃ vaddr, mmuGetTableIdx vaddr = path := by
  obtain ⟨i0, i1, i2, i3, rfl⟩ := List.length_eq_four.mp full
  let n := i0.val * 2 ^ 39 + i1.val * 2 ^ 30 + i2.val * 2 ^ 21 + i3.val * 2 ^ 12
  have small : n < 2 ^ 64 := by omega
  have value : (BitVec.ofNat 64 n).toNat = n := by
    rw [BitVec.toNat_ofNat, Nat.mod_eq_of_lt small]
  have index (shift : Nat) (i : Idx) (same : n / 2 ^ shift % 512 = i.val) :
      tableIdx (BitVec.ofNat 64 n) shift = i := by
    apply Fin.ext
    rw [tableIdx_val, value, same]
  refine ⟨BitVec.ofNat 64 n, ?_⟩
  simp only [mmuGetTableIdx, upperIdx, leafIdx, List.cons_append, List.nil_append]
  rw [index 39 i0 (by omega), index 30 i1 (by omega), index 21 i2 (by omega), index 12 i3 (by omega)]

/-- The tree of `t` translates every address as before, and no page it reaches has gone back to the
pool. -/
def Undamaged (k k' : Kernel) (t : Word) : Prop :=
  Unchanged k.mem k'.mem t ∧
    ∀ r p, r.length ≤ 4 → node nav k.mem t r = some p → Marked k p → Marked k' p

/-- Every entry of the tree of `c` that counts nothing lies in a table that `t` does not walk, and
names no page of the pool in use that `t` reaches. -/
def Spares (k : Kernel) (t c : Word) : Prop :=
  ∀ r p i, r.length ≤ 3 → node nav k.mem c r = some p → mmuIsValid (k.mem p i) = true →
    refCount (k.mem p i) = 0 → node nav k.mem t r ≠ some p ∧
      ∀ r', r'.length ≤ 4 → node nav k.mem t r' = some (mmuGetVaddr (k.mem p i)) →
        ¬ Marked k (mmuGetVaddr (k.mem p i))

theorem TaskLayout.clearable {k : Kernel} {pos : Pos} (layout : TaskLayout k pos) (wf : KernelWf k) :
    Clearable k pos k.rank where
  shaped := layout.shaped
  ranked := wf.ranked
  user p q position := (rank_none k p).mpr (layout.inUse p q position).2

section Torn

variable {k k' : Kernel} {pos : Pos} {rank : Word → Option Nat} {gone : List (Word × Idx)} {t c : Word}
  (clearable : Clearable k pos rank) (torn : Torn k k' rank gone) (rootT : pos t = some [])
  (rootC : pos c = some [])
  (inside : ∀ p i, (p, i) ∈ gone → ∃ r, r.length ≤ 3 ∧ node nav k.mem c r = some p ∧
    mmuIsValid (k.mem p i) = true)

include clearable torn rootT rootC inside

theorem Spares.undamaged (spares : Spares k t c) : Undamaged k k' t := by
  have entry (r : List Idx) (p : Word) (i : Idx) (short : r.length ≤ 3)
      (found : node nav k.mem t r = some p) : nav (k'.mem p i) = nav (k.mem p i) := by
    have position := clearable.shaped.typed.node_pos t p r rootT short found
    by_cases member : (p, i) ∈ gone
    · obtain ⟨r', short', found', valid⟩ := inside p i member
      have path := clearable.shaped.typed.path_unique t c p r r' rootT rootC short short' found found'
      subst path
      have counted : refCount (k.mem p i) ≠ 0 := fun zero =>
        (spares r p i short found' valid zero).1 found
      rw [torn.inside p i member, tornEntry, if_neg counted, nav_congr _ _ (mmuMarkFreed_nav _)]
    · rw [torn.outside p i (clearable.user p r position) member]
  have walks (r : List Idx) (short : r.length ≤ 4) : node nav k'.mem t r = node nav k.mem t r :=
    node_congr_reached nav k.mem k'.mem t 3 entry r (by omega)
  have after := clearable.torn torn
  refine ⟨fun v => ?_, fun r p short found marks => ?_⟩
  · rw [getKaddr_node clearable.shaped.typed clearable.shaped.table t rootT,
      getKaddr_node after.shaped.typed after.shaped.table t rootT, walks _ (by simp)]
  · obtain ⟨n, low, rfl, set⟩ := marks
    refine ⟨n, low, rfl, (torn.marks n low).mpr ⟨set, ?_⟩⟩
    rintro ⟨a, i, member, zero, names⟩
    obtain ⟨s, short', found', valid⟩ := inside a i member
    refine (spares s a i short' found' valid zero).2 r short ?_ ?_
    · rw [names]
      exact found
    · rw [names]
      exact ⟨n, low, rfl, set⟩

omit rootC inside in
theorem Undamaged.spares (undamaged : Undamaged k k' t)
    (inUse : ∀ p q, pos p = some q → Marked k p)
    (whole : ∀ r p i, r.length ≤ 3 → node nav k.mem c r = some p → mmuIsValid (k.mem p i) = true →
      (p, i) ∈ gone) : Spares k t c := by
  intro r p i short found valid zero
  have member := whole r p i short found valid
  have taken : ¬ Marked k' (mmuGetVaddr (k.mem p i)) := by
    rintro ⟨n, low, names, set⟩
    exact ((torn.marks n low).mp set).2 ⟨p, i, member, zero, names⟩
  have kept (r' : List Idx) (short' : r'.length ≤ 4)
      (reached : node nav k.mem t r' = some (mmuGetVaddr (k.mem p i))) :
      ¬ Marked k (mmuGetVaddr (k.mem p i)) :=
    fun marks => taken (undamaged.2 r' _ short' reached marks)
  refine ⟨fun walked => ?_, kept⟩
  have next : node nav k.mem t (r ++ [i]) = some (mmuGetVaddr (k.mem p i)) := by
    rw [node_concat_some nav k.mem t p r i walked]
    exact nav_of_valid _ valid
  have size : (r ++ [i]).length = r.length + 1 := by simp
  by_cases upper : r.length < 3
  · -- A table page is in use, so it was marked.
    have position := clearable.shaped.typed.node_pos t _ _ rootT (by omega) next
    exact kept _ (by omega) next (inUse _ _ position)
  · -- A leaf is cleared, so the address it translated is no longer translated.
    obtain ⟨v, path⟩ := exists_vaddr (r ++ [i]) (by omega)
    have after := clearable.torn torn
    have same := undamaged.1 v
    rw [getKaddr_node clearable.shaped.typed clearable.shaped.table t rootT,
      getKaddr_node after.shaped.typed after.shaped.table t rootT, path, next] at same
    have cleared : k'.mem p i = 0 := by
      rw [torn.inside p i member, tornEntry, if_pos zero]
    have lost : node nav k'.mem t (r ++ [i]) = none := by
      rw [node_concat]
      cases walk : node nav k'.mem t r with
      | none => rfl
      | some p' =>
        rw [Option.bind_some]
        -- The walk may only have lost entries, so it comes to the same table or to none.
        have kept (s : List Idx) (a : Word) (low : s.length ≤ 3)
            (there : node nav k'.mem t s = some a) : node nav k.mem t s = some a := by
          induction s using List.reverseRecOn generalizing a with
          | nil => exact there
          | append_singleton s j ih =>
            rw [List.length_append, List.length_singleton] at low
            obtain ⟨b, before⟩ := node_prefix_some nav _ t a s [j] there
            have earlier := ih b (by omega) before
            have position := clearable.shaped.typed.node_pos t b s rootT (by omega) earlier
            rw [node_concat_some nav _ t b s j before] at there
            rw [node_concat_some nav _ t b s j earlier]
            rcases torn.entry b j (clearable.user b s position) with gone | nav'
            · rw [gone, nav_of_invalid _ isValid_zero] at there
              cases there
            · rw [← nav_congr _ _ nav']
              exact there
        have samePage := kept r p' short walk
        rw [walked] at samePage
        obtain rfl := Option.some.inj samePage
        rw [cleared, nav_of_invalid _ isValid_zero]
    rw [lost] at same
    exact getVaddr_ne_zero _ same.symm

end Torn

/-- A fault that the handler deals with, so that the task goes on. -/
def Sys.Handled (s : Sys) (ptr vaddr : Word) : Prop := ((s.switchTo ptr).dataAbort vaddr).1 ≠ 0

theorem abort_layout (k : Kernel) (pos : Pos) (table vaddr : Word) (wf : KernelWf k)
    (layout : TaskLayout k pos) (root : pos (physToVirt table) = some []) :
    ∃ k' pos' r, mmuHandleDataAbort k table vaddr = (r, k') ∧ Aborted k k' pos pos' := by
  have rule : CowRule (physToVirt table) (fun _ _ _ _ _ => True) (fun _ _ _ => True) := by
    constructor <;> intros <;> trivial
  obtain ⟨done, k', pos', result, aborted, _⟩ := rule.abort k pos table vaddr rfl wf layout root trivial
  exact ⟨k', pos', _, result, aborted⟩

/-- After a fork and any handled faults of parent and child, a teardown of the child's tables leaves
the parent undamaged if, and when it succeeds only if, the child's entries that count nothing spare
what the parent reaches. -/
theorem child_teardown (s₀ s₁ s : Sys) (pos : Pos) (pid : Int) (child : Word) (err : KernErr)
    (k' : Kernel) (system : SysLayout s₀ pos) (forked : taskFork s₀ = ((pid, .ok), s₁))
    (new : forkedChild s₀ = some child)
    (faults : Run CowCall.Step (fun s call => ∃ ptr vaddr, call = .abort ptr vaddr ∧
      (ptr = s₀.current ∨ ptr = child) ∧ s.Handled ptr vaddr) s₁ s)
    (done : memTableTeardown s.kernel (s.table child) = .ok (err, k')) :
    (Spares s.kernel (s.table s₀.current) (s.table child) →
        Undamaged s.kernel k' (s.table s₀.current)) ∧
      (err = .ok → Undamaged s.kernel k' (s.table s₀.current) →
        Spares s.kernel (s.table s₀.current) (s.table child)) := by
  rcases taskFork_spec s₀ pos system with ⟨c, _, new', _, result⟩ | ⟨_, failed, _⟩
  · obtain rfl : child = c := Option.some.inj (new.symm.trans new')
    have fork : ForkedSys s₀ s₁ pos child := by
      rw [forked] at result
      exact result
    have first := fork.system system
    obtain ⟨pos', wf, layout, rootT, rootC⟩ : ∃ pos', KernelWf s.kernel ∧ TaskLayout s.kernel pos' ∧
        pos' (s.table s₀.current) = some [] ∧ pos' (s.table child) = some [] := by
      obtain ⟨parentRoot, childRoot⟩ := fork.positions system
      rw [← fork.parentTable system] at parentRoot
      refine faults.invariant (fun s => ∃ pos', KernelWf s.kernel ∧ TaskLayout s.kernel pos' ∧
        pos' (s.table s₀.current) = some [] ∧ pos' (s.table child) = some []) ?_ ?_
      · exact ⟨_, first.wf, first.layout, parentRoot, childRoot⟩
      · rintro s call s' ⟨pos', wf, layout, rootT, rootC⟩ ⟨ptr, vaddr, rfl, who, _⟩ taken
        unfold CowCall.Step at taken
        subst taken
        have root : pos' (s.table ptr) = some [] := by
          rcases who with rfl | rfl
          · exact rootT
          · exact rootC
        obtain ⟨k', pos'', r, fault, aborted⟩ :=
          abort_layout s.kernel pos' (s.task ptr).tranTable vaddr wf layout root
        have kernel : ((CowCall.abort ptr vaddr).run s).kernel = k' := by
          show (mmuHandleDataAbort s.kernel (s.task ptr).tranTable vaddr).2 = k'
          rw [fault]
        rw [kernel]
        exact ⟨pos'', aborted.wf, aborted.layout, aborted.keeps _ _ rootT, aborted.keeps _ _ rootC⟩
    have clearable := layout.clearable wf
    obtain ⟨gone, torn, inside, whole⟩ := memTableTeardown_torn s.kernel k' _ err clearable rootC done
    refine ⟨fun spares => spares.undamaged clearable torn rootT rootC inside, fun fine undamaged => ?_⟩
    exact undamaged.spares clearable torn rootT
      (fun p q position => (layout.inUse p q position).1) (whole fine)
  · rw [forked] at failed
    cases failed

section Childless

variable {s s' : Sys} {pos : Pos} {child p : Word} {i : Idx} (system : SysLayout s pos)
  (forked : ForkedSys s s' pos child)
  (names : nav (s.kernel.mem (s.table s.current) i) = some p)
  (zero : refCount (s.kernel.mem (s.table s.current) i) = 0)
  (only : ∀ j, mmuIsValid (s.kernel.mem (s.table s.current) j) = true → j = i)
  (empty : ∀ j, mmuIsValid (s.kernel.mem p j) = false)

include system forked names only empty

-- The child of a task whose one level-1 table is empty has one valid entry.
theorem ForkedSys.visits : Anthill.visits s'.kernel.mem 4 (s'.table child) = [(s'.table child, i)] := by
  have first := forked.system system
  have root := system.roots _ system.running
  have valid := ((nav_some _ _).mp names).1
  have same : s'.kernel.mem (s'.table child) = s.kernel.mem (s.table s.current) := forked.forked.copy
  have table : pos p = some [i] := by
    have child := system.layout.typed.child _ [] i p root (by simp) names
    simpa using child
  have bare (j : Idx) : mmuIsValid (s'.kernel.mem p j) = false := by
    rw [isValid_congr _ _ (forked.shape system p [i] j table)]
    exact empty j
  have entries (q : Word) (j : Idx) : (q, j) ∈ Anthill.visits s'.kernel.mem 4 (s'.table child) ↔
      (q, j) = (s'.table child, i) := by
    rw [mem_visits]
    constructor
    · rintro ⟨path, _, walk, there⟩
      cases path with
      | nil =>
        obtain rfl := Option.some.inj walk
        rw [same] at there
        rw [only j there]
      | cons a path =>
        rw [node_cons, same] at walk
        obtain ⟨b, step, rest⟩ := Option.bind_eq_some_iff.mp walk
        have here := only a ((nav_some _ _).mp step).1
        subst here
        obtain rfl := Option.some.inj (names.symm.trans step)
        cases path with
        | nil =>
          obtain rfl := Option.some.inj rest
          rw [bare j] at there
          cases there
        | cons c path =>
          rw [node_cons, nav_of_invalid _ (bare c)] at rest
          cases rest
    · intro here
      obtain ⟨rfl, rfl⟩ := Prod.mk.inj here
      exact ⟨[], by simp, rfl, by rw [same]; exact valid⟩
  have nodup := visits_nodup first.layout.shaped (forked.positions system).2 4 (by simp)
  have perm := (List.perm_ext_iff_of_nodup nodup (List.nodup_singleton (s'.table child, i))).mpr
    (by rintro ⟨q, j⟩; rw [entries, List.mem_singleton])
  exact List.perm_singleton.mp perm

include zero

-- Its teardown frees that table, which the parent still walks.
theorem ForkedSys.teardown (backed : Backed s'.kernel p) :
    ∃ k', memTableTeardown s'.kernel (s'.table child) = .ok (.ok, k') ∧
      ¬ Undamaged s'.kernel k' (s.table s.current) := by
  have first := forked.system system
  have root := system.roots _ system.running
  have clearable := first.layout.clearable first.wf
  have rootC := (forked.positions system).2
  have same : s'.kernel.mem (s'.table child) = s.kernel.mem (s.table s.current) := forked.forked.copy
  have twin := forked.twins system
  have vaddr : mmuGetVaddr (s'.kernel.mem (s'.table child) i) = p := by
    rw [same]
    exact ((nav_some _ _).mp names).2
  have noRef : refCount (s'.kernel.mem (s'.table child) i) = 0 := by rw [same]; exact zero
  have parent : node nav s'.kernel.mem (s.table s.current) [i] = some p := by
    rw [node_cons, ← twin, same, names]
    rfl
  have position := first.layout.typed.node_pos _ p [i] (forked.positions system).1 (by simp) parent
  obtain ⟨k₁, freed, _⟩ := memKernelFreePage_spec s'.kernel first.wf p backed
    (first.layout.inUse _ _ position).2
  have done : memTableTeardown s'.kernel (s'.table child) =
      .ok (.ok, k₁.write (s'.table child) i 0) := by
    rw [memTableTeardown_visits _ _ clearable rootC, forked.visits system names only empty]
    simp only [runEntries, teardownEntry, mmuMarkFreed_zero _ noRef, Kernel.write_self, vaddr, freed,
      whenOk, mmuMarkFreed_fst, noRef, if_true]
  refine ⟨_, done, fun undamaged => ?_⟩
  obtain ⟨gone, torn, _, whole⟩ := memTableTeardown_torn _ _ _ _ clearable rootC done
  have spares := undamaged.spares clearable torn (forked.positions system).1
    (fun p q position => (first.layout.inUse p q position).1) (whole rfl)
  have valid : mmuIsValid (s'.kernel.mem (s'.table child) i) = true := by
    rw [same]
    exact ((nav_some _ _).mp names).1
  have clash := (spares [] _ i (by simp) rfl valid noRef).2 [i] (by simp)
  rw [vaddr] at clash
  exact clash parent backed.marked

end Childless

-- A task whose one level-1 table is empty.
def emptyTables : Tables := [(4, []), (5, [0])]

def emptyTable : List Cell := [⟨4, 0, tableEntry (poolVa 5)⟩]

theorem fork_emptyTable : ∃ s₀ pos pid child s₁ k', SysLayout s₀ pos ∧
    taskFork s₀ = ((pid, .ok), s₁) ∧ forkedChild s₀ = some child ∧
    memTableTeardown s₁.kernel (s₁.table child) = .ok (.ok, k') ∧
    ¬ Undamaged s₁.kernel k' (s₁.table s₀.current) := by
  have fits : Fits emptyTable [20, 21, 22, 23] emptyTables := by decide +kernel
  have system := oneTask_layout emptyTable [20, 21, 22, 23] emptyTables fits (by decide +kernel)
    (by decide +kernel) (by decide)
  have enough : canAlloc 3 (machine emptyTable [20, 21, 22, 23]) = true := by decide +kernel
  have kernel : (oneTask emptyTable [20, 21, 22, 23]).kernel = machine emptyTable [20, 21, 22, 23] := rfl
  have table : (oneTask emptyTable [20, 21, 22, 23]).table
      (oneTask emptyTable [20, 21, 22, 23]).current = poolVa 4 :=
    crew_table emptyTable [20, 21, 22, 23] [⟨10, 4, 11, 10, 0⟩] 10 emptyTables (by decide +kernel)
      ⟨10, 4, 11, 10, 0⟩ List.mem_cons_self
  have names : nav ((machine emptyTable [20, 21, 22, 23]).mem (poolVa 4) 0) = some (poolVa 5) := by
    decide +kernel
  have zero : refCount ((machine emptyTable [20, 21, 22, 23]).mem (poolVa 4) 0) = 0 := by decide +kernel
  have only (i : Idx) (valid : mmuIsValid ((machine emptyTable [20, 21, 22, 23]).mem (poolVa 4) i) = true) :
      i = 0 := by
    revert i
    decide +kernel
  have empty (i : Idx) : mmuIsValid ((machine emptyTable [20, 21, 22, 23]).mem (poolVa 5) i) = false := by
    revert i
    decide +kernel
  have backed : Backed (machine emptyTable [20, 21, 22, 23]) (poolVa 5) :=
    machine_backed emptyTable [20, 21, 22, 23] fits.1 5 (by omega) (by decide)
  rw [← kernel] at names zero only empty backed
  rw [← table] at names zero only
  rcases taskFork_spec _ _ system with ⟨child, result, new, _, forked⟩ | ⟨_, _, _, dry, _⟩
  · obtain ⟨k', torn, damaged⟩ := forked.teardown system names zero only empty
      (forked.forked.grew.backs _ backed)
    rw [← forked.parentTable system] at damaged
    exact ⟨_, _, _, child, _, k', system, Prod.ext result rfl, new, torn, damaged⟩
  · rw [kernel, enough] at dry
    cases dry

theorem child_teardown_emptyTable : ∃ (s₁ : Sys) (t c : Word) (k' : Kernel),
    memTableTeardown s₁.kernel c = .ok (.ok, k') ∧
      (Spares s₁.kernel t c → Undamaged s₁.kernel k' t) ∧
      (Undamaged s₁.kernel k' t → Spares s₁.kernel t c) := by
  obtain ⟨s₀, pos, pid, child, s₁, k', system, forked, new, torn, _⟩ := fork_emptyTable
  obtain ⟨enough, needed⟩ := child_teardown s₀ s₁ s₁ pos pid child .ok k' system forked new .start torn
  exact ⟨s₁, _, _, k', torn, enough, needed rfl⟩

theorem childTeardown_damages :
    ¬ ∀ (s₀ s₁ s : Sys) (pos : Pos) (pid : Int) (child : Word) (err : KernErr) (k' : Kernel),
      SysLayout s₀ pos → taskFork s₀ = ((pid, .ok), s₁) → forkedChild s₀ = some child →
      Run CowCall.Step (fun s call => ∃ ptr vaddr, call = .abort ptr vaddr ∧
        (ptr = s₀.current ∨ ptr = child) ∧ s.Handled ptr vaddr) s₁ s →
      memTableTeardown s.kernel (s.table child) = .ok (err, k') →
      Undamaged s.kernel k' (s.table s₀.current) := by
  intro claim
  obtain ⟨s₀, pos, pid, child, s₁, k', system, forked, new, torn, damaged⟩ := fork_emptyTable
  exact damaged (claim s₀ s₁ s₁ pos pid child .ok k' system forked new .start torn)

end Anthill
