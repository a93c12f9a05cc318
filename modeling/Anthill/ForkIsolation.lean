import Anthill.PageOwnership
import Anthill.Task

set_option autoImplicit false

namespace Anthill

open Radix

section Twins

variable {k k' : Kernel} {pos : Pos} {t u : Word} (process : Process k pos t)
  (other : pos u = some []) (apart : u ≠ t) (twins : k.mem u = k.mem t)

include process other apart twins

/-- Two tables with one root row share everything below it, so a page mapped in one of them shows in
the other unless the map had to begin at the root. -/
theorem map_twin (v paddr : Word) (perm : MemPerm) (attr : MemAttr)
    (done : memUserMapPage k t v paddr perm attr = .ok (.ok, k')) :
    (∀ w, memUserGetKaddr k'.mem u w = memUserGetKaddr k.mem u w) ↔
      mmuIsValid (k.mem t (tableIdx v 39)) = false := by
  obtain ⟨pattr, pos', a, i, _, mapped⟩ :=
    memUserMapPage_ok k pos t process.wf process.layout process.root v paddr perm attr k' done
  obtain ⟨r, at', walk, onPath, was, _⟩ := mapped.hole a i rfl
  have after (w : Word) : memUserGetKaddr k'.mem u w =
      (node nav k'.mem u (mmuGetTableIdx w)).getD 0 :=
    memUserGetKaddr_eq k' pos' mapped.layout u (mapped.keepsPos u [] other) w
  have before (w : Word) : memUserGetKaddr k.mem u w =
      (node nav k.mem u (mmuGetTableIdx w)).getD 0 :=
    memUserGetKaddr_eq k pos process.layout u other w
  constructor
  · intro same
    by_contra valid
    rw [Bool.not_eq_false] at valid
    have below : r ≠ [] := by
      rintro rfl
      obtain rfl : t = a := by simpa using walk
      obtain rfl : i = tableIdx v 39 := by
        obtain ⟨rest, whole⟩ := onPath
        exact (List.cons.inj whole).1
      rw [valid] at was
      cases was
    have through : node nav k.mem u r = some a := by rw [twin_node twins r below, walk]
    have prefixed : r <+: mmuGetTableIdx v := (List.prefix_append r [i]).trans onPath
    have shown : node nav k'.mem u (mmuGetTableIdx v) =
        some (mmuGetVaddr (userLeaf paddr (pattr ||| memAttr attr))) := by
      rw [mapped.node_shared process.layout process.root u other r at' through _ prefixed,
        mapped.node_here (userLeaf_valid _ _)]
    have hidden : node nav k.mem u (mmuGetTableIdx v) = none := by
      rw [twin_node twins _ (by simp [mmuGetTableIdx, upperIdx])]
      exact mapped.unmapped
    have changed := same v
    rw [after, before, shown, hidden] at changed
    exact getVaddr_ne_zero _ changed
  · intro invalid w
    have top : r = [] := by
      cases r with
      | nil => rfl
      | cons j r =>
        obtain ⟨rest, whole⟩ := onPath
        have first : j = tableIdx v 39 := (List.cons.inj whole).1
        rw [node_cons, first, nav_of_invalid _ invalid] at walk
        cases walk
    subst top
    have elsewhere : node nav k.mem u [] ≠ some a := by
      obtain rfl : t = a := by simpa using walk
      simpa using apart
    rw [after, before, mapped.node_other process.layout [] at' u other _ (by simp)
      (fun both => elsewhere both.2)]

omit apart in
/-- A page that is counted twice is unmapped from both tables at once. -/
theorem unmap_twin (v r : Word) (counted : ∀ level3, node nav k.mem t (upperIdx v) = some level3 →
      mmuIsValid (k.mem level3 (leafIdx v)) = true → refCount (k.mem level3 (leafIdx v)) ≠ 0)
    (done : memUserUnmapPage k t v = (⟨r, .ok⟩, k')) :
    memUserGetKaddr k'.mem u v ≠ memUserGetKaddr k.mem u v := by
  rcases memUserUnmapPage_cases k pos process.layout t process.root v with
    ⟨_, result⟩ | ⟨level3, walk, valid, ⟨zero, _⟩ | ⟨_, result⟩⟩
  · simp [result] at done
  · exact absurd zero (counted level3 walk valid)
  · rw [result] at done
    obtain rfl := (Prod.mk.inj done).2
    have here := layout_node k pos process.layout t process.root _ level3 (by simp) walk
    have cleared := process.clear level3 (leafIdx v) _ here rfl
    have through : node nav k.mem u (upperIdx v) = some level3 := by
      rw [twin_node twins _ (by simp [upperIdx]), walk]
    have reached : node nav (k.write level3 (leafIdx v) 0).mem u (upperIdx v) = some level3 := by
      refine (process.layout.typed.node_frame u level3 _ (leafIdx v) (fun p q j _ away => ?_) here
        other _ (by simp) ?_).trans through
      · rw [Kernel.write_mem, put_other _ _ _ _ _ _ away]
      · rintro ⟨longer, _⟩
        have bound := longer.length_le
        simp at bound
    rw [memUserGetKaddr_eq _ pos cleared.layout u other, memUserGetKaddr_eq k pos process.layout u other,
      node_full, node_full, reached, through, Option.bind_some, Option.bind_some, Kernel.write_mem,
      put_same, nav_of_invalid _ isValid_zero, nav_of_valid _ valid]
    exact (getVaddr_ne_zero _).symm

end Twins

inductive TableOp where
  | map (vaddr paddr : Word) (perm : MemPerm) (attr : MemAttr)
  | unmap (vaddr : Word)
deriving DecidableEq, Repr

-- The operation on table `t` succeeds and leaves `k'`.
def TableOp.Done (k : Kernel) (t : Word) (k' : Kernel) : TableOp → Prop
  | .map vaddr paddr perm attr => memUserMapPage k t vaddr paddr perm attr = .ok (.ok, k')
  | .unmap vaddr => ∃ r, memUserUnmapPage k t vaddr = (⟨r, .ok⟩, k')

-- The operation is a map, and the level-0 entry for its address is not valid.
def TableOp.StartsAtRoot (m : Mem) (t : Word) : TableOp → Prop
  | .map vaddr _ _ _ => mmuIsValid (m t (tableIdx vaddr 39)) = false
  | .unmap _ => False

/-- The table's translation of every address is the same in both states. -/
def Unchanged (m m' : Mem) (t : Word) : Prop := ∀ w, memUserGetKaddr m' t w = memUserGetKaddr m t w

/-- Right after task_fork, a successful operation on the table of the parent or of the child leaves
the translations of the other's table alone exactly when it is a map of an address whose level-0
entry is not valid. -/
theorem fork_isolated_iff (s s' : Sys) (pos : Pos) (pid : Int) (child acting other : Word)
    (op : TableOp) (k' : Kernel) (system : SysLayout s pos) (forked : taskFork s = ((pid, .ok), s'))
    (new : forkedChild s = some child)
    (pair : (acting = s.current ∧ other = child) ∨ (acting = child ∧ other = s.current))
    (done : op.Done s'.kernel (s'.table acting) k') :
    Unchanged s'.kernel.mem k'.mem (s'.table other) ↔
      op.StartsAtRoot s'.kernel.mem (s'.table acting) := by
  rcases taskFork_spec s pos system with ⟨c, _, new', _, result⟩ | ⟨_, failed, _⟩
  · obtain rfl : child = c := Option.some.inj (new.symm.trans new')
    rw [forked] at result
    obtain ⟨rootT, rootC⟩ := result.positions system
    have layout := result.forked.layout.toUserLayout
    have twins := result.twins system
    have away := result.childAway system
    have parent := result.parentTable system
    rw [← parent] at rootT twins away
    obtain ⟨root, root', apart, rows, which⟩ :
        Function.update pos (s'.table child) (some []) (s'.table acting) = some [] ∧
        Function.update pos (s'.table child) (some []) (s'.table other) = some [] ∧
        s'.table other ≠ s'.table acting ∧
        s'.kernel.mem (s'.table other) = s'.kernel.mem (s'.table acting) ∧
        (s'.table acting = s.table s.current ∨ s'.table acting = s'.table child) := by
      rcases pair with ⟨first, second⟩ | ⟨first, second⟩
      · rw [first, second]
        exact ⟨rootT, rootC, away, twins, .inl parent⟩
      · rw [first, second]
        exact ⟨rootC, rootT, away.symm, twins.symm, .inr rfl⟩
    have process : Process s'.kernel _ (s'.table acting) := ⟨result.forked.wf, layout, root⟩
    cases op with
    | map v paddr perm attr =>
      simp only [TableOp.Done] at done
      simpa only [Unchanged, TableOp.StartsAtRoot] using
        map_twin process root' apart rows v paddr perm attr done
    | unmap v =>
      simp only [TableOp.Done] at done
      obtain ⟨r, done⟩ := done
      have changed := unmap_twin process root' rows v r (result.counted system _ which v) done
      exact iff_of_false (fun same => changed (same v)) id
  · rw [forked] at failed
    cases failed

-- The child of a task that maps one page can unmap it.
theorem fork_onePage : ∃ s' pid child r k',
    SysLayout (oneTask (onePage 0) [20, 21, 22, 23]) (posOf onePageTables) ∧
      taskFork (oneTask (onePage 0) [20, 21, 22, 23]) = ((pid, .ok), s') ∧
      forkedChild (oneTask (onePage 0) [20, 21, 22, 23]) = some child ∧
      ForkedSys (oneTask (onePage 0) [20, 21, 22, 23]) s' (posOf onePageTables) child ∧
      memUserUnmapPage s'.kernel (s'.table child) 0x200000 = (⟨r, .ok⟩, k') := by
  have fits : Fits (onePage 0) [20, 21, 22, 23] onePageTables := by decide +kernel
  have system := oneTask_layout (onePage 0) [20, 21, 22, 23] onePageTables fits (by decide +kernel)
    (by decide +kernel) (by decide)
  have enough : canAlloc 3 (machine (onePage 0) [20, 21, 22, 23]) = true := by decide +kernel
  rcases taskFork_spec _ _ system with ⟨child, result, new, _, forked⟩ | ⟨_, _, _, dry, _⟩
  · have layout := forked.forked.layout.toUserLayout
    have root := (forked.positions system).2
    rcases memUserUnmapPage_cases _ _ layout _ root 0x200000 with
      ⟨missing, _⟩ | ⟨level3, _, _, ⟨_, result'⟩ | ⟨_, result'⟩⟩
    · rw [twin_node (forked.twins system) _ (by decide), forked.walks system _
        (system.roots _ system.running) _ (by simp)] at missing
      have mapped : node nav (machine (onePage 0) [20, 21, 22, 23]).mem (poolVa 4)
          (mmuGetTableIdx 0x200000) = some (poolVa 8) := by decide +kernel
      exact absurd (missing.symm.trans mapped) (by simp)
    · exact ⟨_, _, child, _, _, system, Prod.ext result rfl, new, forked, result'⟩
    · exact ⟨_, _, child, _, _, system, Prod.ext result rfl, new, forked, result'⟩
  · exact absurd enough (by rw [show machine (onePage 0) [20, 21, 22, 23] =
      (oneTask (onePage 0) [20, 21, 22, 23]).kernel from rfl, dry]; exact Bool.false_ne_true)

theorem fork_unmap_leaks : ¬ ∀ (s s' : Sys) (pos : Pos) (pid : Int) (child acting other : Word)
    (op : TableOp) (k' : Kernel), SysLayout s pos → taskFork s = ((pid, .ok), s') →
    forkedChild s = some child →
    (acting = s.current ∧ other = child) ∨ (acting = child ∧ other = s.current) →
    op.Done s'.kernel (s'.table acting) k' →
    Unchanged s'.kernel.mem k'.mem (s'.table other) := by
  intro claim
  obtain ⟨s', pid, child, r, k', system, result, new, forked, done⟩ := fork_onePage
  have same := claim _ s' _ pid child child _ (.unmap 0x200000) k' system result new
    (.inr ⟨rfl, rfl⟩) ⟨r, done⟩
  have process : Process s'.kernel _ (s'.table child) :=
    ⟨forked.forked.wf, forked.forked.layout.toUserLayout, (forked.positions system).2⟩
  refine unmap_twin (u := s'.table (oneTask (onePage 0) [20, 21, 22, 23]).current) process ?_ ?_ _ r
    (forked.counted system _ (.inr rfl) 0x200000) done (same 0x200000)
  · rw [forked.parentTable system]
    exact (forked.positions system).1
  · rw [forked.parentTable system]
    exact (forked.twins system).symm

theorem fork_isolated_iff_onePage : ∃ (s s' : Sys) (pos : Pos) (pid : Int) (child : Word)
    (op : TableOp) (k' : Kernel), SysLayout s pos ∧ taskFork s = ((pid, .ok), s') ∧
    op.Done s'.kernel (s'.table child) k' ∧
    (Unchanged s'.kernel.mem k'.mem (s'.table s.current) ↔
      op.StartsAtRoot s'.kernel.mem (s'.table child)) := by
  obtain ⟨s', pid, child, r, k', system, result, new, _, done⟩ := fork_onePage
  exact ⟨_, s', _, pid, child, .unmap 0x200000, k', system, result, ⟨r, done⟩,
    fork_isolated_iff _ s' _ pid child child _ (.unmap 0x200000) k' system result new
      (.inr ⟨rfl, rfl⟩) ⟨r, done⟩⟩

end Anthill
