import Anthill.CowAdequacy
import Anthill.Lockstep
import Anthill.MapInsert

set_option autoImplicit false

namespace Anthill

open Radix

/-- A page that is neither a table of a task or of the kernel nor free to be handed out. -/
structure Bystander (k : Kernel) (pos : Pos) (p : Word) : Prop where
  untyped : pos p = none
  busy : ¬ Free k p
  ours : ¬ KernelTable k p

-- The pages that the leaves of a process map.
def DataPages (k : Kernel) (pos : Pos) (t : Word) : Prop :=
  ∀ v, memUserGetKaddr k.mem t v ≠ 0 → Bystander k pos (memUserGetKaddr k.mem t v)

-- How many tables below `above` a fault on the path has to copy.
def cowTables (m : Mem) (above : Word) : List Idx → Nat
  | a :: i :: idx =>
    let level := mmuGetVaddr (m above a)
    (if refCount (m level i) = 0 then 0 else 1) + cowTables m level (i :: idx)
  | _ => 0

-- Every table on the path of `v` in the tree of `t` that the tree of `u` has too counts in the entry used.
def SharedCounted (m : Mem) (t u v : Word) : Prop :=
  ∀ r i rest p, mmuGetTableIdx v = r ++ i :: rest → 1 ≤ r.length → node nav m t r = some p → Reaches m u p →
    refCount (m p i) ≠ 0

/-- The address `w` of `u` has the page, the attributes and the contents that it had. -/
structure SeesSame (m m' : Mem) (u w : Word) : Prop where
  page : memUserGetKaddr m' u w = memUserGetKaddr m u w
  attributes : entryBody (userEntry m' u w) = entryBody (userEntry m u w)
  contents : memUserGetKaddr m u w ≠ 0 → m' (memUserGetKaddr m u w) = m (memUserGetKaddr m u w)

section Rows

variable {k : Kernel} {pos : Pos}

/-- An allocation leaves such a page alone, and it is not the page handed out. -/
theorem Bystander.alloc {k₁ : Kernel} {va p : Word} (bystander : Bystander k pos p) (wf : KernelWf k)
    (taken : memKernelAllocPage k .rw = (⟨va, .ok⟩, k₁)) (allocated : Allocated k k₁ va) :
    k₁.mem p = k.mem p ∧ ¬ Free k₁ p ∧ ¬ KernelTable k₁ p ∧ p ≠ va := by
  have ours : ¬ KernelTable k₁ p := fun table =>
    (alloc_kernelTable wf taken p table).elim bystander.ours bystander.busy
  refine ⟨alloc_rows wf taken p ours, fun free => bystander.busy (allocated.shrinks p free), ours, ?_⟩
  rintro rfl
  exact bystander.busy allocated.wasFree

theorem Bystander.same {k₁ : Kernel} {p : Word} (bystander : Bystander k pos p) (same : SameKernel k k₁) :
    Bystander k₁ pos p :=
  ⟨bystander.untyped, fun free => bystander.busy ((same.free p).mp free),
    fun table => bystander.ours ((same.kernelTable p).mp table)⟩

variable {t above : Word} {q : List Idx} {a : Idx} (site : Site k pos t above q a)

include site

theorem Bystander.step {p : Word} (bystander : Bystander k pos p) (upper : q.length < 3) (i : Idx) (level : Word)
    (k' : Kernel) (stepped : cowStep k above a (k.next above a) i = .ok (level, k')) :
    k'.mem p = k.mem p ∧ ¬ Free k' p ∧ ¬ KernelTable k' p := by
  have away (x : Word) (r : List Idx) (here : pos x = some r) : p ≠ x := by
    rintro rfl
    rw [bystander.untyped] at here
    cases here
  have notAbove := away above q site.here
  have notNext := away _ _ (site.nextHere upper)
  have same := site.countDown_same upper i
  have counted : (k.countDown (k.next above a) i).mem p = k.mem p := put_page_other _ _ _ _ _ notNext
  have bystander₁ := bystander.same same
  unfold cowStep at stepped
  simp only [← show k.countDown (k.next above a) i = k.write (k.next above a) i _ from rfl] at stepped
  split_ifs at stepped
  · rcases memKernelAllocPage_rw _ (same.wf site.wf) with oom | ⟨va, k₂, taken, allocated⟩
    · rw [oom] at stepped
      cases stepped
    · rw [taken] at stepped
      obtain ⟨-, rfl⟩ := Prod.mk.inj (Except.ok.inj stepped)
      obtain ⟨row, busy, ours, notVa⟩ := bystander₁.alloc (same.wf site.wf) taken allocated
      have copied := sameKernel_putPage k₂ va (k₂.mem (k.next above a)) allocated.inUse.2
      have used := (same.inUse above).mpr (site.layout.inUse above q site.here)
      have linked := sameKernel_put (k₂.writePage va (k₂.mem (k.next above a))) above a (tableEntry va)
        ((copied.inUse above).mpr (allocated.keeps above used).1).2
      have after := copied.trans linked
      refine ⟨?_, fun free => busy ((after.free p).mp free), fun table => ours ((after.kernelTable p).mp table)⟩
      rw [Kernel.write_mem, put_page_other _ _ _ _ _ notAbove, Kernel.writePage_mem, putPage_other _ _ _ _ notVa, row,
        counted]
  · obtain ⟨-, rfl⟩ := Prod.mk.inj (Except.ok.inj stepped)
    exact ⟨counted, bystander₁.busy, bystander₁.ours⟩

end Rows

/-- The leaf of a process at a path of three tables and an index, up to its counter. -/
def leafBody (m : Mem) (w : Word) (s : List Idx) (i : Idx) : Option Word :=
  (node nav m w s).map fun level3 => entryBody (m level3 i)

section Leaves

variable {k k' : Kernel} {pos : Pos} {t above va : Word} {q : List Idx} {a i : Idx}
  (site : Site k pos t above q a)

include site

/-- The copy of a table shows every process the leaves that it had. -/
theorem Replaced.leafBody (upper : q.length < 3) (replaced : Replaced k k' above a (k.next above a) i va) (w : Word)
    (root : pos w = some []) (s : List Idx) (deep : s.length = 3) (j : Idx) :
    leafBody k'.mem w s j = leafBody k.mem w s j := by
  have walks := replaced.walks site upper w root s (by omega)
  -- Only counters change in the tables that the leaves are in.
  have body (p : Word) (r : List Idx) (position : pos p = some r) (long : r.length = 3) :
      entryBody (k'.mem p j) = entryBody (k.mem p j) := by
    have notAbove : p ≠ above := by
      rintro rfl
      obtain rfl := Option.some.inj (site.here.symm.trans position)
      omega
    rcases replaced.changes site p r j position (.inl notAbove) with ⟨rfl, rfl⟩ | same
    · rw [replaced.freed, entryBody_mmuMarkFreed]
    · rw [same]
  unfold Anthill.leafBody
  rw [walks]
  split_ifs with moved
  · obtain ⟨rfl, through⟩ := moved
    have next : node nav k.mem w (q ++ [a]) = some (k.next above a) := by
      rw [node_concat_some nav k.mem w above q a through]
      exact site.goes
    rw [next, Option.map_some, Option.map_some, replaced.row, body _ _ (site.nextHere upper) deep]
  · cases found : node nav k.mem w s with
    | none => rfl
    | some p =>
      have position := site.layout.typed.node_pos w p s root (by omega) found
      rw [Option.map_some, Option.map_some, body p s position deep]

/-- The copy of a page changes one leaf, in the tables that have it. -/
theorem DataCopied.leafBody (deep : q.length = 3) (copied : DataCopied k k' above a va) (w : Word)
    (root : pos w = some []) (s : List Idx) (size : s.length = 3) (j : Idx)
    (other : j ≠ a ∨ node nav k.mem w s ≠ some above) : leafBody k'.mem w s j = leafBody k.mem w s j := by
  have walks := copied.walks site deep w root s (by omega)
  rw [if_neg fun moved => by
    have long := congrArg List.length moved.1
    rw [List.length_append, List.length_singleton] at long
    omega] at walks
  unfold Anthill.leafBody
  rw [walks]
  cases found : node nav k.mem w s with
  | none => rfl
  | some p =>
    have position := site.layout.typed.node_pos w p s root (by omega) found
    have away : p ≠ above ∨ j ≠ a := by
      rcases other with different | elsewhere
      · exact .inr different
      · exact .inl fun same => elsewhere (by rw [found, same])
    rw [Option.map_some, Option.map_some, copied.others p j (site.layout.inUse p s position) away]

end Leaves

-- Only the tables below the entry matter to the count.
theorem cowTables_congr {m m' : Mem} {level level' : Word} {i : Idx} (idx : List Idx)
    (entry : m' level' i &&& navMask = m level i &&& navMask)
    (below : ∀ r p, r.length < idx.length → node nav m level (i :: r) = some p → m' p = m p)
    (mapped : node nav m level (i :: idx) ≠ none) :
    cowTables m' level' (i :: idx) = cowTables m level (i :: idx) := by
  induction idx generalizing level level' i with
  | nil => rfl
  | cons j idx ih =>
    rw [node_cons] at mapped
    cases valid : mmuIsValid (m level i) with
    | false =>
      rw [nav_of_invalid _ valid] at mapped
      exact absurd rfl mapped
    | true =>
      rw [nav_of_valid _ valid, Option.bind_some] at mapped
      have step (r : List Idx) : node nav m level (i :: r) = node nav m (mmuGetVaddr (m level i)) r := by
        rw [node_cons, nav_of_valid _ valid, Option.bind_some]
      have row := below [] _ (by simp) (step [])
      simp only [cowTables, getVaddr_congr _ _ entry]
      generalize mmuGetVaddr (m level i) = next at *
      rw [row, ih (by rw [row]) (fun r p short found => below (j :: r) p (by simpa using short) (by rw [step, found]))
        mapped]

/-- A fault of `t` at `v` that has come to entry `a` of `above`, which `u` does not reach, with the path `idx` left.
Up to here the processes of the start see what they saw. -/
structure Faulting (k₀ : Kernel) (pos₀ : Pos) (t u v : Word) (k : Kernel) (pos : Pos) (above : Word) (q : List Idx)
    (a : Idx) (idx : List Idx) : Prop where
  site : Site k pos t above q a
  path : q ++ a :: idx = mmuGetTableIdx v
  mapped : node nav k.mem t (mmuGetTableIdx v) ≠ none
  rootU : pos u = some []
  alone : ∀ r, r.length ≤ 3 → node nav k.mem u r ≠ some above
  counted : ∀ r i rest p, mmuGetTableIdx v = r ++ i :: rest → q.length < r.length → node nav k.mem t r = some p →
    Reaches k.mem u p → refCount (k.mem p i) ≠ 0
  roots : ∀ w, pos₀ w = some [] → pos w = some []
  leaves : ∀ w, pos₀ w = some [] → ∀ s i, s.length = 3 → leafBody k.mem w s i = leafBody k₀.mem w s i
  rows : ∀ p, Bystander k₀ pos₀ p → Bystander k pos p ∧ k.mem p = k₀.mem p
  shrinks : ∀ p, Free k p → Free k₀ p
  room : canAlloc (cowTables k.mem above (a :: idx) + 1) k = true

section Fault

variable {k₀ k : Kernel} {pos₀ pos : Pos} {t u v above : Word} {q : List Idx} {a : Idx} {idx : List Idx}

theorem Faulting.left (fault : Faulting k₀ pos₀ t u v k pos above q a idx) :
    node nav k.mem above (a :: idx) ≠ none := by
  have mapped := fault.mapped
  rw [← fault.path, node_append, fault.site.walk] at mapped
  exact mapped

variable {i : Idx} (fault : Faulting k₀ pos₀ t u v k pos above q a (i :: idx)) (upper : q.length < 3)

include fault upper

omit upper in
theorem Faulting.nextLeft : node nav k.mem (k.next above a) (i :: idx) ≠ none := by
  have left := fault.left
  rw [node_cons, fault.site.goes] at left
  exact left

omit upper in
theorem Faulting.deeper : (q ++ [a]) ++ i :: idx = mmuGetTableIdx v := by
  rw [← fault.path, List.append_assoc]
  rfl

-- A table that counts nothing is not one of `u`.
theorem Faulting.kept (valid : mmuIsValid (k.mem (k.next above a) i) = true)
    (zero : refCount (k.mem (k.next above a) i) = 0) :
    Faulting k₀ pos₀ t u v k pos (k.next above a) (q ++ [a]) i idx where
  site := fault.site.entered upper i valid
  path := fault.deeper
  mapped := fault.mapped
  rootU := fault.rootU
  alone r short found := by
    have position := fault.site.layout.typed.node_pos u _ r fault.rootU short found
    obtain rfl := Option.some.inj ((fault.site.nextHere upper).symm.trans position)
    exact fault.counted (q ++ [a]) i idx _ fault.deeper.symm (by simp) fault.site.nextWalk
      ⟨_, by simp, short, found⟩ zero
  counted r j rest p split longer := fault.counted r j rest p split (by
    rw [List.length_append] at longer
    omega)
  roots := fault.roots
  leaves := fault.leaves
  rows := fault.rows
  shrinks := fault.shrinks
  room := by
    have room := fault.room
    have same : refCount (k.mem (mmuGetVaddr (k.mem above a)) i) = 0 := zero
    rw [cowTables] at room
    simp only [same, if_true, Nat.zero_add] at room
    exact room

theorem Faulting.replaced {k' : Kernel} {va : Word} (valid : mmuIsValid (k.mem (k.next above a) i) = true)
    (counts : refCount (k.mem (k.next above a) i) ≠ 0)
    (stepped : cowStep k above a (k.next above a) i = .ok (va, k'))
    (replaced : Replaced k k' above a (k.next above a) i va) :
    Faulting k₀ pos₀ t u v k' (Function.update pos va (some (q ++ [a]))) va (q ++ [a]) i idx := by
  have site := fault.site
  have unused := replaced.unused site
  have walks := replaced.walks site upper
  have through : node nav k.mem u q ≠ some above := fault.alone q (by omega)
  have walksU (s : List Idx) (short : s.length ≤ 4) : node nav k'.mem u s = node nav k.mem u s := by
    rw [walks u fault.rootU s short, if_neg fun moved => through moved.2]
  have walksT (s : List Idx) (short : s.length ≤ 4) (other : s.length ≠ q.length + 1) :
      node nav k'.mem t s = node nav k.mem t s := by
    rw [walks t site.root s short, if_neg fun moved => other (by rw [moved.1]; simp)]
  have kept (w : Word) (root : pos w = some []) : Function.update pos va (some (q ++ [a])) w = some [] :=
    extend_keeps unused root
  constructor
  case site => exact replaced.entered site upper valid
  case path => exact fault.deeper
  case mapped =>
    rw [walksT _ (by simp) (by rw [mmuGetTableIdx_length]; omega)]
    exact fault.mapped
  case rootU => exact kept u fault.rootU
  case alone =>
    intro r short found
    rw [walksU r (by omega)] at found
    rw [site.layout.typed.node_pos u va r fault.rootU short found] at unused
    cases unused
  case counted =>
    intro r j rest p split longer found reached
    rw [List.length_append, List.length_singleton] at longer
    have whole := congrArg List.length split
    rw [mmuGetTableIdx_length, List.length_append, List.length_cons] at whole
    rw [walksT r (by omega) (by omega)] at found
    have position := site.layout.typed.node_pos t p r site.root (by omega) found
    have away (x : Word) (s : List Idx) (there : pos x = some s) (shorter : s.length ≤ q.length + 1) : p ≠ x := by
      rintro rfl
      obtain rfl := Option.some.inj (position.symm.trans there)
      omega
    rw [replaced.others p j (site.layout.inUse p r position) (.inl (away _ _ (site.nextHere upper) (by simp)))
      (.inl (away above q site.here (by omega)))]
    refine fault.counted r j rest p split (by omega) found ?_
    obtain ⟨s, some, short, walk⟩ := reached
    exact ⟨s, some, short, by rw [← walksU s (by omega), walk]⟩
  case roots => exact fun w root => kept w (fault.roots w root)
  case leaves =>
    intro w root s j deep
    rw [replaced.leafBody site upper w (fault.roots w root) s deep j, fault.leaves w root s j deep]
  case rows =>
    intro p before
    obtain ⟨bystander, row⟩ := fault.rows p before
    obtain ⟨same, busy, ours⟩ := bystander.step site upper i va k' stepped
    refine ⟨⟨?_, busy, ours⟩, same.trans row⟩
    have away : p ≠ va := by
      rintro rfl
      exact bystander.busy replaced.fresh
    rw [Function.update_of_ne away]
    exact bystander.untyped
  case shrinks => exact fun p free => fault.shrinks p (replaced.grew.shrinks p free)
  case room =>
    have room := fault.room
    have same : ¬ refCount (k.mem (mmuGetVaddr (k.mem above a)) i) = 0 := counts
    rw [cowTables] at room
    simp only [same, if_false] at room
    have less : cowTables k'.mem va (i :: idx) = cowTables k.mem (k.next above a) (i :: idx) := by
      refine cowTables_congr idx (replaced.goesCopy site upper i) (fun r p short found => ?_)
        fault.nextLeft
      have size := congrArg List.length fault.path
      rw [mmuGetTableIdx_length, List.length_append, List.length_cons, List.length_cons] at size
      have position := site.layout.shaped.node_pos (site.nextHere upper) (i :: r) p (by
        simp only [List.length_append, List.length_cons, List.length_nil]
        omega) found
      have away (x : Word) (s : List Idx) (there : pos x = some s) (shorter : s.length ≤ q.length + 1) : p ≠ x := by
        rintro rfl
        have same := congrArg List.length (Option.some.inj (position.symm.trans there))
        simp only [List.length_append, List.length_cons, List.length_nil] at same
        omega
      funext j
      exact replaced.others p j (site.layout.inUse p _ position)
        (.inl (away _ _ (site.nextHere upper) (by simp))) (.inl (away above q site.here (by omega)))
    rw [less, replaced.room, Nat.add_comm (cowTables _ _ _)]
    exact room

/-- One level of the fault ends in the table to go on with. -/
theorem Faulting.step : ∃ level k' pos', cowStep k above a (k.next above a) i = .ok (level, k') ∧
    Faulting k₀ pos₀ t u v k' pos' level (q ++ [a]) i idx := by
  rcases cowStep_cases k pos t above q a i fault.site upper with
    ⟨invalid, _⟩ | ⟨valid, zero, stepped⟩ | ⟨_, _, dry, _⟩ | ⟨valid, counts, va, k', stepped, replaced⟩
  · have left := fault.nextLeft
    rw [node_cons, nav_of_invalid _ invalid] at left
    exact absurd rfl left
  · exact ⟨_, k, pos, stepped, fault.kept upper valid zero⟩
  · have enough := canAlloc_less k 1 _ (by omega) fault.room
    rw [dry] at enough
    cases enough
  · exact ⟨va, k', _, stepped, fault.replaced upper valid counts stepped replaced⟩

end Fault

/-- The fault comes to the leaf of its path. -/
theorem Faulting.levels {k₀ : Kernel} {pos₀ : Pos} {t u v : Word} (idx : List Idx) :
    ∀ (k : Kernel) (pos : Pos) (above : Word) (q : List Idx) (a : Idx), Faulting k₀ pos₀ t u v k pos above q a idx →
      ∃ level3 i k' pos' q', cowLevels k above a idx = .ok (level3, i, k') ∧
        Faulting k₀ pos₀ t u v k' pos' level3 q' i [] := by
  induction idx with
  | nil => exact fun k pos above q a fault => ⟨above, a, k, pos, q, rfl, fault⟩
  | cons i idx ih =>
    intro k pos above q a fault
    have size := congrArg List.length fault.path
    rw [mmuGetTableIdx_length, List.length_append, List.length_cons, List.length_cons] at size
    obtain ⟨level, k₁, pos₁, stepped, next⟩ := fault.step (by omega)
    obtain ⟨level3, j, k', pos', q', result, fault'⟩ := ih k₁ pos₁ level (q ++ [a]) i next
    have first : cowStep k above a (mmuGetVaddr (k.mem above a)) i = .ok (level, k₁) := stepped
    refine ⟨level3, j, k', pos', q', ?_, fault'⟩
    rw [cowLevels, first]
    exact result

/-- What a page holds is what the page that it replaces held, and other data pages keep what they hold. -/
theorem copyData_rows {k k' : Kernel} {pos : Pos} {level3 va : Word} {q : List Idx} {i : Idx} (wf : KernelWf k)
    (here : pos level3 = some q) (used : InUse k level3) (done : copyData k level3 i = .ok k')
    (leads : mmuGetVaddr (k'.mem level3 i) = va) (data : Bystander k pos (k.next level3 i)) :
    k'.mem va = k.mem (k.next level3 i) ∧ ∀ p, Bystander k pos p → k'.mem p = k.mem p := by
  unfold copyData at done
  rcases memKernelAllocPage_rw k wf with oom | ⟨page, k₁, taken, allocated⟩
  · rw [oom] at done
    cases done
  · rw [taken] at done
    obtain rfl := Except.ok.inj done
    have row3 := (allocated.keeps level3 used).2
    have notPage : page ≠ level3 := by
      rintro rfl
      exact not_free_of_marked k _ used.1 allocated.wasFree
    have isPage : IsPage page := by
      obtain ⟨n, inside, rfl, _⟩ := allocated.wasFree
      exact isPage_poolVa n inside
    have away (p : Word) (bystander : Bystander k pos p) : p ≠ level3 := by
      rintro rfl
      rw [bystander.untyped] at here
      cases here
    rw [Kernel.write_mem, put_same, copiedLeaf_vaddr _ _ isPage] at leads
    subst leads
    have dataRow := (data.alloc wf taken allocated).1
    refine ⟨?_, fun p bystander => ?_⟩
    · rw [Kernel.write_mem, put_page_other _ _ _ _ _ notPage, Kernel.writePage_mem, putPage_same, row3]
      exact dataRow
    · obtain ⟨row, _, _, other⟩ := bystander.alloc wf taken allocated
      rw [Kernel.write_mem, put_page_other _ _ _ _ _ (away p bystander), Kernel.writePage_mem,
        putPage_other _ _ _ _ other, row]

theorem entryBody_nav (entry : Word) : entryBody entry &&& navMask = entry &&& navMask := by
  rw [entryBody, BitVec.and_assoc, show ~~~((0xf : Word) <<< attRefOff) &&& navMask = navMask by decide]

section Seen

variable {k : Kernel} {pos : Pos} {u : Word} (layout : UserLayout k pos) (root : pos u = some [])

include layout root

-- What a process sees at an address is in the leaf.
theorem seen_leaf (w : Word) :
    memUserGetKaddr k.mem u w = ((leafBody k.mem u (upperIdx w) (leafIdx w)).bind nav).getD 0 ∧
      entryBody (userEntry k.mem u w) =
        ((leafBody k.mem u (upperIdx w) (leafIdx w)).filter mmuIsValid).getD 0 := by
  have zero : entryBody 0 = 0 := by decide
  rw [memUserGetKaddr, userEntry, userWalk_eq k pos layout u root, userWalk_eq k pos layout u root, leafBody]
  cases node nav k.mem u (upperIdx w) with
  | none => exact ⟨rfl, zero⟩
  | some level3 =>
    have same := entryBody_nav (k.mem level3 (leafIdx w))
    have valid := isValid_congr _ _ same
    have leads := nav_congr _ _ same
    simp only [Option.map_some, Option.bind_some, leads]
    cases mapped : mmuIsValid (k.mem level3 (leafIdx w)) with
    | false =>
      rw [mapped] at valid
      refine ⟨by simp [nav, mapped], ?_⟩
      simp only [Option.filter, valid]
      exact zero
    | true =>
      rw [mapped] at valid
      exact ⟨by simp [nav, mapped], by simp [Option.filter, valid]⟩

theorem seesSame_of_leaf {k' : Kernel} {pos' : Pos} (layout' : UserLayout k' pos') (root' : pos' u = some []) (w : Word)
    (leaf : leafBody k'.mem u (upperIdx w) (leafIdx w) = leafBody k.mem u (upperIdx w) (leafIdx w))
    (contents : memUserGetKaddr k.mem u w ≠ 0 →
      k'.mem (memUserGetKaddr k.mem u w) = k.mem (memUserGetKaddr k.mem u w)) : SeesSame k.mem k'.mem u w where
  page := by rw [(seen_leaf layout' root' w).1, (seen_leaf layout root w).1, leaf]
  attributes := by rw [(seen_leaf layout' root' w).2, (seen_leaf layout root w).2, leaf]
  contents := contents

end Seen

-- The rounding that the handler does to the address that it returns.
theorem and_vaddrMask_page (v : Word) (canonical : v.toNat < 2 ^ 48) :
    (v &&& vaddrMask).toNat = v.toNat - v.toNat % 4096 := by
  have base : v >>> 12 <<< 12 &&& vaddrMask = v >>> 12 <<< 12 := by
    refine and_vaddrMask _ ?_ ?_
    all_goals
      rw [BitVec.toNat_shiftLeft, BitVec.toNat_ushiftRight, Nat.shiftRight_eq_div_pow, Nat.shiftLeft_eq]
      omega
  have low : v &&& vaddrMask = v >>> 12 <<< 12 &&& vaddrMask := by
    have clear : ∀ i : Fin 12, vaddrMask.getLsbD i = false := by decide
    apply BitVec.eq_of_getLsbD_eq
    intro i inside
    by_cases under : i < 12
    · simp [clear ⟨i, under⟩]
    · simp [under, inside, Nat.add_sub_cancel' (Nat.not_lt.mp under)]
  rw [low, base, BitVec.toNat_shiftLeft, BitVec.toNat_ushiftRight, Nat.shiftRight_eq_div_pow, Nat.shiftLeft_eq]
  omega

-- The leaf at the end of a walk gives the page.
theorem Site.leads {k : Kernel} {pos : Pos} {t level3 v : Word} (site : Site k pos t level3 (upperIdx v) (leafIdx v)) :
    memUserGetKaddr k.mem t v = k.next level3 (leafIdx v) := by
  rw [memUserGetKaddr, userWalk_eq k pos site.layout.toUserLayout t site.root, site.walk]
  exact if_pos site.valid

section Copies

variable {k : Kernel} {pos : Pos} {table v u : Word}

/-- The fault of a process that has `v` mapped begins at its top table. -/
theorem faulting_start (wf : KernelWf k) (layout : TaskLayout k pos) (root : pos (physToVirt table) = some [])
    (rootU : pos u = some []) (other : u ≠ physToVirt table)
    (mapped : memUserGetKaddr k.mem (physToVirt table) v ≠ 0)
    (counted : SharedCounted k.mem (physToVirt table) u v)
    (room : canAlloc (cowTables k.mem (physToVirt table) (mmuGetTableIdx v) + 1) k = true) :
    Faulting k pos (physToVirt table) u v k pos (physToVirt table) [] (tableIdx v 39)
      [tableIdx v 30, tableIdx v 21, leafIdx v] := by
  have walks : node nav k.mem (physToVirt table) (mmuGetTableIdx v) ≠ none := by
    intro missing
    rw [memUserGetKaddr_eq k pos layout.toUserLayout _ root, missing] at mapped
    exact mapped rfl
  have valid : mmuIsValid (k.mem (physToVirt table) (tableIdx v 39)) = true := by
    cases invalid : mmuIsValid (k.mem (physToVirt table) (tableIdx v 39)) with
    | true => rfl
    | false =>
      rw [mmuGetTableIdx_eq, node_cons, nav_of_invalid _ invalid] at walks
      exact absurd rfl walks
  constructor
  case site => exact ⟨wf, layout, root, rfl, by simp, valid⟩
  case path => rfl
  case mapped => exact walks
  case rootU => exact rootU
  case alone =>
    intro r short found
    obtain rfl := Option.some.inj (root.symm.trans (layout.typed.node_pos u _ r rootU short found))
    exact other (Option.some.inj found)
  case counted => exact fun r i rest p split deep found reached => counted r i rest p split deep found reached
  case roots => exact fun _ root => root
  case leaves => exact fun _ _ _ _ _ => rfl
  case rows => exact fun p bystander => ⟨bystander, rfl⟩
  case shrinks => exact fun _ free => free
  case room => exact room

/-- A write to a page that a process has mapped copies the page and the tables on its path that count
other uses. No other process that counts itself in those tables sees a difference. -/
theorem fault_copies (k : Kernel) (pos : Pos) (table v u : Word) (wf : KernelWf k) (layout : TaskLayout k pos)
    (root : pos (physToVirt table) = some []) (rootU : pos u = some []) (other : u ≠ physToVirt table)
    (pages : DataPages k pos (physToVirt table)) (pagesU : DataPages k pos u)
    (mapped : memUserGetKaddr k.mem (physToVirt table) v ≠ 0)
    (counted : SharedCounted k.mem (physToVirt table) u v)
    (room : canAlloc (cowTables k.mem (physToVirt table) (mmuGetTableIdx v) + 1) k = true) :
    ∃ k', mmuHandleDataAbort k table v = (v &&& vaddrMask, k') ∧
      (v.toNat < 2 ^ 48 → (v &&& vaddrMask).toNat = v.toNat - v.toNat % 4096) ∧
      (∃ page, Free k page ∧ memUserGetKaddr k'.mem (physToVirt table) v = page ∧
        k'.mem page = k.mem (memUserGetKaddr k.mem (physToVirt table) v) ∧
        apBits (userEntry k'.mem (physToVirt table) v) = attApRwRw) ∧
      (∀ w, mmuGetTableIdx w ≠ mmuGetTableIdx v → SeesSame k.mem k'.mem (physToVirt table) w) ∧
      ∀ w, SeesSame k.mem k'.mem u w := by
  have start := faulting_start wf layout root rootU other mapped counted room
  have valid := start.site.valid
  obtain ⟨level3, i, k₁, pos₁, q, walked, fault⟩ := start.levels _ _ _ _ _ _
  obtain ⟨rfl, path⟩ : q = upperIdx v ∧ [i] = [leafIdx v] := List.append_inj' fault.path rfl
  obtain rfl : i = leafIdx v := List.head_eq_of_cons_eq path
  have site := fault.site
  have deep : (upperIdx v).length = 3 := rfl
  have used := site.layout.inUse level3 _ site.here
  have same : k₁.next level3 (leafIdx v) = memUserGetKaddr k.mem (physToVirt table) v := by
    rw [← site.leads, (seen_leaf site.layout.toUserLayout site.root v).1, (seen_leaf layout.toUserLayout root v).1,
      fault.leaves _ root _ _ deep]
  have data := (fault.rows _ (pages v mapped)).1
  rw [← same] at data
  rcases copyData_cases k₁ site.wf level3 (leafIdx v) used with ⟨dry, _⟩ | ⟨page, k', done, copied⟩
  · have enough := fault.room
    change canAlloc 1 k₁ = true at enough
    rw [dry] at enough
    cases enough
  · have layout' := copied.layout site deep
    have isPage : IsPage page := by
      obtain ⟨n, inside, rfl, _⟩ := copied.fresh
      exact isPage_poolVa n inside
    have leads : mmuGetVaddr (k'.mem level3 (leafIdx v)) = page := by
      rw [copied.leaf, copiedLeaf_vaddr _ _ isPage]
    have walk : node nav k'.mem (physToVirt table) (upperIdx v) = some level3 := by
      rw [copied.walks site deep _ site.root _ (by simp), if_neg fun moved => by
        have long := congrArg List.length moved.1
        simp at long, site.walk]
    have valid' : mmuIsValid (k'.mem level3 (leafIdx v)) = true := by
      rw [copied.leaf, copiedLeaf_valid _ _ isPage, site.valid]
    have site' : Site k' pos₁ (physToVirt table) level3 (upperIdx v) (leafIdx v) :=
      ⟨copied.wf, layout', site.root, walk, site.short, valid'⟩
    obtain ⟨row, kept⟩ := copyData_rows site.wf site.here used done leads data
    -- Where the leaf of the fault is not, a process sees what it saw.
    have sees (w z : Word) (rootW : pos w = some []) (pagesW : DataPages k pos w)
        (elsewhere : leafIdx z ≠ leafIdx v ∨ node nav k₁.mem w (upperIdx z) ≠ some level3) :
        SeesSame k.mem k'.mem w z := by
      refine seesSame_of_leaf layout.toUserLayout rootW layout'.toUserLayout (fault.roots w rootW) z ?_ fun seen => ?_
      · rw [copied.leafBody site deep w (fault.roots w rootW) _ rfl _ elsewhere, fault.leaves w rootW _ _ rfl]
      · obtain ⟨bystander, before⟩ := fault.rows _ (pagesW z seen)
        rw [kept _ bystander, before]
    refine ⟨k', ?_, and_vaddrMask_page v, ⟨page, fault.shrinks page copied.fresh, ?_, ?_, ?_⟩,
      fun w different => ?_, fun w => ?_⟩
    · simp [mmuHandleDataAbort, valid, walked, done]
    · rw [site'.leads, Kernel.next, leads]
    · rw [row, same, (fault.rows _ (pages v mapped)).2]
    · rw [userEntry_leaf layout'.toUserLayout site.root v level3 walk valid', copied.leaf,
        copiedLeaf_ap _ _ isPage]
    · refine sees _ w root pages ?_
      by_contra both
      push Not at both
      have position := site.layout.typed.node_pos _ _ _ site.root (by simp) both.2
      have upper := Option.some.inj (position.symm.trans site.here)
      exact different (by rw [mmuGetTableIdx, mmuGetTableIdx, upper, both.1])
    · exact sees u w rootU pagesU (.inr (fault.alone _ (by simp)))

end Copies

-- The page of `onePage` after a fork: a second top table in pool page 9 shares the tables and the page.
def forkedPage : List Cell :=
  [⟨4, 0, tableEntry (poolVa 5)⟩, ⟨9, 0, tableEntry (poolVa 5)⟩, ⟨5, 0, setRef (tableEntry (poolVa 6)) 1⟩,
    ⟨6, 1, setRef (tableEntry (poolVa 7)) 1⟩,
    ⟨7, 0, setRef (userLeaf (poolPage 8) (attApNaRo ||| attPxnNoexec ||| attUxnNoexec)) 1⟩]

def forkedPageTables : Tables := (9, []) :: onePageTables

theorem fault_copies_forked : ∃ k', mmuHandleDataAbort (machine forkedPage [20, 21, 22, 23]) (poolPage 4) 0x200000 =
      (0x200000, k') ∧ ∀ w, SeesSame (machine forkedPage [20, 21, 22, 23]).mem k'.mem (poolVa 9) w := by
  have fits : Fits forkedPage [20, 21, 22, 23] forkedPageTables := by decide +kernel
  have taskFits : TaskFits forkedPage forkedPageTables := by decide +kernel
  have table : physToVirt (poolPage 4) = poolVa 4 := by decide
  have root : posOf forkedPageTables (physToVirt (poolPage 4)) = some [] := by decide +kernel
  have rootU : posOf forkedPageTables (poolVa 9) = some [] := by decide +kernel
  have process := machine_process _ _ _ fits _ root
  have onlyPage (t : Word) (top : posOf forkedPageTables t = some []) :
      DataPages (machine forkedPage [20, 21, 22, 23]) (posOf forkedPageTables) t := by
    intro v mapped
    have page : memUserGetKaddr (machine forkedPage [20, 21, 22, 23]).mem t v = poolVa 8 := by
      rw [memUserGetKaddr_eq _ _ process.layout t top] at mapped ⊢
      cases found : node nav (machine forkedPage [20, 21, 22, 23]).mem t (mmuGetTableIdx v) with
      | none =>
        rw [found] at mapped
        exact absurd rfl mapped
      | some p =>
        have listed := machine_maps _ _ _ fits t top _ p ⟨rfl, found⟩
        have all : ∀ leaf, leaf ∈ leaves forkedPage forkedPageTables → leaf.2 = poolVa 8 := by decide +kernel
        exact all _ listed
    rw [page]
    refine ⟨by decide +kernel, fun free => ?_, fun kernelTable => ?_⟩
    · obtain ⟨n, member, same⟩ := (machine_free _ _ fits.1 _).mp free
      have none : ∀ n, n ∈ [20, 21, 22, 23] → poolVa 8 ≠ poolVa n := by decide +kernel
      exact none n member same
    · rw [machine_kernelTable] at kernelTable
      exact absurd kernelTable (by decide +kernel)
  have counted : SharedCounted (machine forkedPage [20, 21, 22, 23]).mem (physToVirt (poolPage 4)) (poolVa 9)
      0x200000 := by
    intro r i rest p split deep found _
    have path : mmuGetTableIdx 0x200000 = [0, 0, 1, 0] := by decide +kernel
    rw [path] at split
    have here (q : List Idx) (n : Nat) (walk : node nav (machine forkedPage [20, 21, 22, 23]).mem
        (physToVirt (poolPage 4)) q = some (poolVa n)) (same : r = q) : p = poolVa n :=
      Option.some.inj (found.symm.trans (same ▸ walk))
    rcases r with _ | ⟨a, _ | ⟨b, _ | ⟨c, _ | ⟨d, r⟩⟩⟩⟩
    · simp at deep
    · obtain ⟨rfl, rfl, -⟩ : 0 = a ∧ 0 = i ∧ _ := by simpa using split
      rw [here [0] 5 (by decide +kernel) rfl]
      decide +kernel
    · obtain ⟨rfl, rfl, rfl, -⟩ : 0 = a ∧ 0 = b ∧ 1 = i ∧ _ := by simpa using split
      rw [here [0, 0] 6 (by decide +kernel) rfl]
      decide +kernel
    · obtain ⟨rfl, rfl, rfl, rfl, -⟩ : 0 = a ∧ 0 = b ∧ 1 = c ∧ 0 = i ∧ _ := by simpa using split
      rw [here [0, 0, 1] 7 (by decide +kernel) rfl]
      decide +kernel
    · simp at split
  obtain ⟨k', result, -, -, -, other⟩ := fault_copies _ _ (poolPage 4) 0x200000 (poolVa 9) process.wf
    (machine_taskLayout _ _ _ fits taskFits) root rootU (by decide +kernel) (onlyPage _ root) (onlyPage _ rootU)
    (by decide +kernel) counted (by decide +kernel)
  exact ⟨k', result, other⟩

end Anthill
