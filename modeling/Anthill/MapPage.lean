import Anthill.UserPages

set_option autoImplicit false

namespace Anthill

open Radix

-- The entry where a process's walk first found nothing, once the map has filled it in.
abbrev Gap := Option (Word × Idx)

-- An entry that the map wrote. Above the leaf it links a table page that was free.
def Linked (k : Kernel) (pos₀ : Pos) (depth : Nat) (p : Word) (i : Idx) : Prop :=
  mmuIsValid (k.mem p i) = true ∧
    (depth < 3 → refCount (k.mem p i) = 0 ∧ pos₀ (mmuGetVaddr (k.mem p i)) = none)

theorem Linked.weaken {k : Kernel} {pos pos₀ : Pos} {depth : Nat} {p : Word} {i : Idx}
    (linked : Linked k pos depth p i) (keeps : ∀ p r, pos₀ p = some r → pos p = some r) :
    Linked k pos₀ depth p i := by
  refine ⟨linked.1, fun short => ⟨(linked.2 short).1, ?_⟩⟩
  cases position : pos₀ (mmuGetVaddr (k.mem p i)) with
  | none => rfl
  | some r =>
    have known := keeps _ r position
    rw [(linked.2 short).2] at known
    cases known

/-- What a map has done so far. `k₀` and `pos₀` are the tables it found, `q` is the filled path
and `gap` the one old entry that it wrote. -/
structure Filled (k₀ k : Kernel) (pos₀ pos : Pos) (gap : Gap) (t : Word) (q : List Idx) : Prop where
  wf : KernelWf k
  layout : UserLayout k pos
  keepsPos : ∀ p r, pos₀ p = some r → pos p = some r
  grew : Grew k₀ k
  frame : ∀ p i, InUse k₀ p → gap ≠ some (p, i) → k.mem p i = k₀.mem p i
  hole : ∀ a i, gap = some (a, i) → ∃ r, pos₀ a = some r ∧ node nav k₀.mem t r = some a ∧
    (r ++ [i]) <+: q ∧ mmuIsValid (k₀.mem a i) = false ∧ Linked k pos₀ r.length a i
  only : ∀ p s, pos p = some s → pos₀ p = none → Free k₀ p ∧ Backed k p ∧ s <+: q ∧ s ≠ [] ∧
    ∀ j, k.mem p j = 0 ∨ (s ++ [j] <+: q ∧ Linked k pos₀ s.length p j)

/-- A map part of the way down, at the table page `level` that the path `q` leads to. -/
structure Filling (k₀ k : Kernel) (pos₀ pos : Pos) (gap : Gap) (t : Word) (q : List Idx)
    (level : Word) : Prop extends Filled k₀ k pos₀ pos gap t q where
  here : pos level = some q
  walk : node nav k.mem t q = some level
  intact : gap = none → k = k₀ ∧ pos = pos₀
  fresh : gap ≠ none → Free k₀ level ∧ k.mem level = fun _ => 0

/-- One invalid entry of `level` is filled in, maybe with a table page that is new. -/
structure Wrote (k k' : Kernel) (pos pos' : Pos) (level : Word) (q : List Idx) (i : Idx) :
    Prop where
  wf : KernelWf k'
  layout : UserLayout k' pos'
  keepsPos : ∀ p r, pos p = some r → pos' p = some r
  grew : Grew k k'
  others : ∀ p j, InUse k p → p ≠ level ∨ j ≠ i → k'.mem p j = k.mem p j
  was : mmuIsValid (k.mem level i) = false
  links : Linked k' pos q.length level i
  only : ∀ p s, pos' p = some s → pos p = none → Free k p ∧ Backed k' p ∧ s = q ++ [i] ∧
    ∀ j, k'.mem p j = 0

theorem Filling.start (k : Kernel) (pos : Pos) (t : Word) (wf : KernelWf k)
    (layout : UserLayout k pos) (root : pos t = some []) : Filling k k pos pos none t [] t where
  wf := wf
  layout := layout
  here := root
  walk := rfl
  keepsPos _ _ position := position
  grew := .refl k
  intact _ := ⟨rfl, rfl⟩
  frame _ _ _ _ := rfl
  hole _ _ none := by cases none
  fresh none := absurd rfl none
  only _ _ position fresh := by rw [fresh] at position; cases position

def Gap.fill (gap : Gap) (level : Word) (i : Idx) : Gap := gap.or (some (level, i))

section Step

variable {k₀ k k' : Kernel} {pos₀ pos pos' : Pos} {gap : Gap} {t : Word} {q : List Idx}
  {level : Word} (filling : Filling k₀ k pos₀ pos gap t q level)

include filling

-- Following an entry that is already there.
theorem Filling.follow (short : q.length < 3) (i : Idx)
    (valid : mmuIsValid (k.mem level i) = true) :
    Filling k₀ k pos₀ pos gap t (q ++ [i]) (mmuGetVaddr (k.mem level i)) := by
  have found := nav_of_valid _ valid
  have notNew : gap = none := by
    by_contra new
    rw [(filling.fresh new).2, isValid_zero] at valid
    cases valid
  exact { filling with
    here := filling.layout.typed.child level q i _ filling.here short found
    walk := by rw [node_concat_some nav k.mem t level q i filling.walk, found]
    hole := fun a j new => by rw [notNew] at new; cases new
    fresh := fun new => absurd notNew new
    only := fun p s position fresh => by
      rw [(filling.intact notNew).2, fresh] at position
      cases position }

theorem Filling.wrote (i : Idx) (wrote : Wrote k k' pos pos' level q i) :
    Filled k₀ k' pos₀ pos' (gap.fill level i) t (q ++ [i]) := by
  have levelUsed := filling.layout.inUse level q filling.here
  have longer := List.prefix_append q [i]
  constructor
  case wf => exact wrote.wf
  case layout => exact wrote.layout
  case keepsPos => exact fun p r position => wrote.keepsPos p r (filling.keepsPos p r position)
  case grew => exact filling.grew.trans wrote.grew
  case frame =>
    intro p j used other
    cases at0 : gap with
    | none =>
      obtain ⟨rfl, rfl⟩ := filling.intact at0
      refine wrote.others p j used ?_
      by_contra both
      push Not at both
      exact other (by rw [at0, both.1, both.2]; rfl)
    | some filled =>
      have new : gap ≠ none := by rw [at0]; exact fun impossible => by cases impossible
      have away : p ≠ level := by
        rintro rfl
        exact not_free_of_marked k₀ p used.1 (filling.fresh new).1
      rw [wrote.others p j (filling.grew.keepsUse p used) (.inl away)]
      refine filling.frame p j used fun same => other ?_
      rw [same]
      rfl
  case hole =>
    intro a j filled
    cases at0 : gap with
    | none =>
      obtain ⟨rfl, rfl⟩ := filling.intact at0
      rw [at0] at filled
      obtain ⟨rfl, rfl⟩ := Prod.mk.inj (Option.some.inj filled)
      exact ⟨q, filling.here, filling.walk, List.prefix_refl _, wrote.was, wrote.links⟩
    | some old =>
      rw [at0] at filled
      have same : gap = some (a, j) := at0.trans filled
      obtain ⟨r, position, walk, before, was, links⟩ := filling.hole a j same
      have used := filling.layout.inUse a r (filling.keepsPos a r position)
      have away : a ≠ level ∨ j ≠ i := by
        by_contra both
        push Not at both
        obtain ⟨rfl, rfl⟩ := both
        exact absurd links.1 (by rw [wrote.was]; exact Bool.false_ne_true)
      refine ⟨r, position, walk, before.trans longer, was, ?_⟩
      rw [Linked, wrote.others a j used away]
      exact links
  case only =>
    intro p s position new
    cases known : pos p with
    | none =>
      obtain ⟨free, backed, rfl, zero⟩ := wrote.only p s position known
      exact ⟨filling.grew.shrinks p free, backed, List.prefix_refl _, by simp, fun j => .inl (zero j)⟩
    | some r =>
      have same : r = s := Option.some.inj ((wrote.keepsPos p r known).symm.trans position)
      subst same
      obtain ⟨free, backed, before, nonempty, row⟩ := filling.only p r known new
      refine ⟨free, wrote.grew.backs p backed, before.trans longer, nonempty, fun j => ?_⟩
      by_cases written : p = level ∧ j = i
      · obtain ⟨rfl, rfl⟩ := written
        have path : q = r := Option.some.inj (filling.here.symm.trans known)
        subst path
        exact .inr ⟨List.prefix_refl _, wrote.links.weaken filling.keepsPos⟩
      · have away : p ≠ level ∨ j ≠ i := not_and_or.mp written
        rw [Linked, wrote.others p j (filling.layout.inUse p r known) away]
        exact (row j).imp_right fun ⟨onPath, rest⟩ => ⟨onPath.trans longer, rest⟩

end Step

theorem Allocated.outside {k k' : Kernel} {va : Word} (allocated : Allocated k k' va) (p : Word)
    (used : InUse k p) : p ≠ va := by
  rintro rfl
  exact not_free_of_marked k p used.1 allocated.wasFree

theorem Allocated.isPage {k k' : Kernel} {va : Word} (allocated : Allocated k k' va) :
    IsPage va := by
  obtain ⟨n, inside, rfl, _⟩ := allocated.wasFree
  exact isPage_poolVa n inside

-- The table page that mem_user_map_page allocates, clears and links.
def linkTable (k : Kernel) (va level : Word) (i : Idx) : Kernel :=
  (k.writePage va (fun _ => 0)).write level i (tableEntry va)

theorem linkTable_mem (k : Kernel) (va level : Word) (i : Idx) :
    (linkTable k va level i).mem = put (putPage k.mem va (fun _ => 0)) level i (tableEntry va) := rfl

section Link

variable {k k₁ : Kernel} {pos : Pos} {level va : Word} {q : List Idx} {i : Idx}
  (layout : UserLayout k pos) (here : pos level = some q)
  (allocated : Allocated k k₁ va)

include layout here allocated

theorem linkTable_same : SameKernel k₁ (linkTable k₁ va level i) := by
  have ours := allocated.inUse.2
  have level' := (allocated.keeps level (layout.inUse level q here)).1.2
  have first := sameKernel_putPage k₁ va (fun _ => 0) ours
  exact first.trans (sameKernel_put _ level i (tableEntry va)
    (fun table => level' ((first.kernelTable level).mp table)))

theorem linkTable_layout (short : q.length < 3) :
    UserLayout (linkTable k₁ va level i) (Function.update pos va (some (q ++ [i]))) := by
  have away := allocated.outside level (layout.inUse level q here)
  have outside := layout.fresh va allocated.wasFree
  have grown := (layout.allocated allocated).grow va (q ++ [i]) outside allocated.inUse
    (by rw [List.length_append, List.length_singleton]; omega)
  refine grown.put level q i (tableEntry va) ?_ ?_ ?_
  · rw [Function.update_of_ne away]
    exact here
  · intro c _ found
    rw [tableEntry_nav va allocated.isPage] at found
    obtain rfl := Option.some.inj found
    exact Function.update_self ..
  · exact fun _ _ => tableEntry_block va allocated.isPage

theorem linkTable_wrote (short : q.length < 3) (was : mmuIsValid (k.mem level i) = false) :
    Wrote k (linkTable k₁ va level i) pos (Function.update pos va (some (q ++ [i]))) level q i := by
  have same := linkTable_same (i := i) layout here allocated
  have outside := layout.fresh va allocated.wasFree
  have away := allocated.outside level (layout.inUse level q here)
  have written : (linkTable k₁ va level i).mem level i = tableEntry va := put_same _ _ _ _
  constructor
  case wf => exact same.wf allocated.wf
  case layout => exact linkTable_layout layout here allocated short
  case keepsPos => exact fun _ _ position => extend_keeps outside position
  case grew => exact allocated.grew.trans same.grew
  case others =>
    intro p j used different
    have other := allocated.outside p used
    have row : (linkTable k₁ va level i).mem p j = k₁.mem p j := by
      rw [linkTable_mem, put_other _ _ _ _ _ _ different, putPage_other _ _ _ _ other]
    rw [row, (allocated.keeps p used).2]
  case was => exact was
  case links =>
    rw [Linked, written, tableEntry_vaddr va allocated.isPage]
    exact ⟨tableEntry_valid va allocated.isPage, fun _ =>
      ⟨tableEntry_ref va allocated.isPage, outside⟩⟩
  case only =>
    intro p s position new
    rcases extend_cases position with ⟨rfl, path⟩ | ⟨_, before⟩
    · refine ⟨allocated.wasFree, same.backs allocated.backed, path, ?_⟩
      intro j
      rw [linkTable_mem, put_other _ _ _ _ _ _ (.inl away.symm), putPage_same]
    · rw [new] at before
      cases before

end Link

theorem leaf_wrote (k : Kernel) (pos : Pos) (level : Word) (q : List Idx) (i : Idx) (e : Word)
    (wf : KernelWf k) (layout : UserLayout k pos) (here : pos level = some q) (deep : q.length = 3)
    (was : mmuIsValid (k.mem level i) = false) (valid : mmuIsValid e = true) :
    Wrote k (k.write level i e) pos pos level q i := by
  have same := sameKernel_put k level i e (layout.inUse level q here).2
  constructor
  case wf => exact same.wf wf
  case layout =>
    refine layout.put level q i e here (fun c short _ => ?_) (fun upper _ => ?_)
    · omega
    · omega
  case keepsPos => exact fun _ _ position => position
  case grew => exact same.grew
  case others => exact fun p j _ away => put_other _ _ _ _ _ _ away
  case was => exact was
  case links => exact ⟨by simpa using valid, fun short => absurd deep (by omega)⟩
  case only =>
    intro p s position new
    rw [new] at position
    cases position

-- How many tables the map has to allocate before it reaches the level-3 entry.
def missingTables (m : Mem) : Word → List Idx → Nat
  | _, [] => 0
  | level, i :: idx =>
    if mmuIsValid (m level i) then missingTables m (mmuGetVaddr (m level i)) idx else idx.length + 1

theorem missingTables_blank (m : Mem) (level : Word) (idx : List Idx)
    (blank : m level = fun _ => 0) : missingTables m level idx = idx.length := by
  cases idx with
  | nil => rfl
  | cons i idx =>
    rw [missingTables, blank, isValid_zero]
    rfl

-- A table can be allocated, but not all that the walk for `vaddr` lacks.
def RunsDry (k : Kernel) (tranTable vaddr : Word) : Prop :=
  canAlloc 1 k = true ∧ canAlloc (missingTables k.mem tranTable (upperIdx vaddr)) k = false

section Levels

variable {k₀ : Kernel} {pos₀ : Pos} {t : Word}

theorem mapStep_valid (k : Kernel) (level : Word) (pages : List Word) (i : Idx)
    (valid : mmuIsValid (k.mem level i) = true) :
    mapStep k level pages i = .ok (mmuGetVaddr (k.mem level i), pages, k) := by
  simp [mapStep, valid]

theorem mapStep_oom (k : Kernel) (level : Word) (pages : List Word) (i : Idx)
    (missing : mmuIsValid (k.mem level i) = false)
    (oom : memKernelAllocPage k .rw = (⟨0, .memOom⟩, k)) :
    mapStep k level pages i = .error (mapRollback k pages .memOom) := by
  simp [mapStep, missing, oom]

theorem mapStep_link (k k₁ : Kernel) (level va : Word) (pages : List Word) (i : Idx)
    (missing : mmuIsValid (k.mem level i) = false) (page : IsPage va)
    (taken : memKernelAllocPage k .rw = (⟨va, .ok⟩, k₁)) :
    mapStep k level pages i = .ok (va, pages ++ [va], linkTable k₁ va level i) := by
  simp [mapStep, missing, taken, tableEntry_vaddr va page, linkTable]

theorem Filling.link {k k₁ : Kernel} {pos : Pos} {gap : Gap} {q : List Idx} {level va : Word}
    (filling : Filling k₀ k pos₀ pos gap t q level) (rootT : pos₀ t = some [])
    (short : q.length < 3) (i : Idx)
    (was : mmuIsValid (k.mem level i) = false) (allocated : Allocated k k₁ va) :
    Filling k₀ (linkTable k₁ va level i) pos₀ (Function.update pos va (some (q ++ [i])))
      (gap.fill level i) t (q ++ [i]) va := by
  have wrote := linkTable_wrote filling.layout filling.here allocated short was
  have away := allocated.outside level (filling.layout.inUse level q filling.here)
  have kept : node nav (linkTable k₁ va level i).mem t q = some level := by
    refine filling.layout.typed.node_kept t level ?_ (filling.keepsPos t [] rootT) q (by omega) filling.walk
    intro p r j a position found
    have different : p ≠ level ∨ j ≠ i := by
      by_contra both
      push Not at both
      obtain ⟨rfl, rfl⟩ := both
      rw [nav_of_invalid _ was] at found
      cases found
    rw [wrote.others p j (filling.layout.inUse p r position) different]
    exact found
  exact { filling.wrote i wrote with
    here := Function.update_self ..
    walk := by
      rw [node_concat_some nav _ t level q i kept, linkTable_mem, put_same]
      exact tableEntry_nav va allocated.isPage
    intact := fun none => by cases gap <;> cases none
    fresh := fun _ => ⟨filling.grew.shrinks va allocated.wasFree, by
      rw [linkTable_mem, put_page_other _ _ _ _ _ away.symm, putPage_same]⟩ }

-- Either the walk is filled all the way, or the allocator ran out on the way down.
theorem mapLevels_spec (rootT : pos₀ t = some []) (idx : List Idx) :
    ∀ (k : Kernel) (pos : Pos) (gap : Gap) (q : List Idx) (level : Word) (pages : List Word),
      Filling k₀ k pos₀ pos gap t q level → q.length + idx.length = 3 → (gap = none ↔ pages = []) →
        (∃ level3 pages' k' pos' gap', mapLevels k level pages idx = .ok (level3, pages', k') ∧
          Filling k₀ k' pos₀ pos' gap' t (q ++ idx) level3 ∧ (gap' = none ↔ pages' = []) ∧
          ∀ more, canAlloc (missingTables k.mem level idx + more) k = canAlloc more k') ∨
        ∃ k' pages', mapLevels k level pages idx = .error (mapRollback k' pages' .memOom) ∧
          ((pages = [] ∧ pages' = [] ∧ k' = k₀) ∨
            ((pages = [] → canAlloc 1 k = true) ∧
              canAlloc (missingTables k.mem level idx) k = false)) := by
  induction idx with
  | nil =>
    intro k pos gap q level pages filling _ ghost
    exact .inl ⟨level, pages, k, pos, gap, rfl, by rwa [List.append_nil], ghost, fun more => by
      rw [missingTables, Nat.zero_add]⟩
  | cons i idx ih =>
    intro k pos gap q level pages filling depth ghost
    have short : q.length < 3 := by
      rw [List.length_cons] at depth
      omega
    have deeper : (q ++ [i]).length + idx.length = 3 := by
      rw [List.length_cons] at depth
      rw [List.length_append, List.length_singleton]
      omega
    have path : (q ++ [i]) ++ idx = q ++ i :: idx := by simp
    cases valid : mmuIsValid (k.mem level i) with
    | true =>
      have next := ih k pos gap (q ++ [i]) _ pages (filling.follow short i valid) deeper ghost
      rw [path] at next
      simpa only [mapLevels, mapStep_valid k level pages i valid, missingTables, valid, if_true]
        using next
    | false =>
      have count : missingTables k.mem level (i :: idx) = idx.length + 1 := by
        rw [missingTables, valid]
        rfl
      rcases memKernelAllocPage_rw k filling.wf with oom | ⟨va, k₁, taken, allocated⟩
      · refine .inr ⟨k, pages, by rw [mapLevels, mapStep_oom k level pages i valid oom], ?_⟩
        by_cases none : pages = []
        · exact .inl ⟨none, none, (filling.intact (ghost.mpr none)).1⟩
        · exact .inr ⟨fun impossible => absurd impossible none, by
            rw [count]; exact canAlloc_oom k _ oom⟩
      · have linked := filling.link rootT short i valid allocated
        have ghost' : gap.fill level i = none ↔ pages ++ [va] = [] := by
          cases gap <;> simp [Gap.fill]
        have blank : (linkTable k₁ va level i).mem va = fun _ => 0 :=
          (linked.fresh (by cases gap <;> simp [Gap.fill])).2
        have same := linkTable_same (i := i) filling.layout filling.here allocated
        rw [mapLevels, mapStep_link k k₁ level va pages i valid allocated.isPage taken]
        rcases ih _ _ _ _ va (pages ++ [va]) linked deeper ghost' with
          ⟨level3, pages', k', pos', gap', result, filled, last, left⟩ |
            ⟨k', pages', result, ⟨impossible, _⟩ | ⟨_, dry⟩⟩
        · rw [path] at filled
          refine .inl ⟨level3, pages', k', pos', gap', result, filled, last, fun more => ?_⟩
          have step := left more
          rw [missingTables_blank _ _ _ blank, same.allocs allocated.wf] at step
          rw [count, Nat.add_right_comm, canAlloc_next k k₁ va _ taken, step]
        · simp at impossible
        · refine .inr ⟨k', pages', result, .inr ⟨fun _ => ?_, ?_⟩⟩
          · rw [canAlloc_next k k₁ va 0 taken]
            rfl
          · rw [missingTables_blank _ _ _ blank, same.allocs allocated.wf] at dry
            rw [count, canAlloc_next k k₁ va _ taken]
            exact dry

end Levels

/-- What a successful mem_user_map_page has done: it filled in the one old entry `i` of `a`, and
everything else it wrote lies in pages that were free. -/
structure Mapped (k k' : Kernel) (pos pos' : Pos) (a : Word) (i : Idx) (t v e : Word) : Prop
    extends Filled k k' pos pos' (some (a, i)) t (mmuGetTableIdx v) where
  unmapped : node nav k.mem t (mmuGetTableIdx v) = none
  leaf : ∃ level3, pos' level3 = some (upperIdx v) ∧ node nav k'.mem t (upperIdx v) = some level3 ∧
    k'.mem level3 (leafIdx v) = e

section MapPage

variable (k : Kernel) (pos : Pos) (t : Word) (wf : KernelWf k) (layout : UserLayout k pos)
  (root : pos t = some [])

include wf layout root

omit wf layout in
theorem Filling.mapped {k' : Kernel} {pos' : Pos} {gap : Gap} {level3 v : Word}
    (filling : Filling k k' pos pos' gap t (upperIdx v) level3) (e : Word)
    (was : mmuIsValid (k'.mem level3 (leafIdx v)) = false) (valid : mmuIsValid e = true) :
    ∃ a i, Mapped k (k'.write level3 (leafIdx v) e) pos pos' a i t v e := by
  have wrote := leaf_wrote k' pos' level3 (upperIdx v) (leafIdx v) e filling.wf filling.layout
    filling.here rfl was valid
  have filled := filling.wrote (leafIdx v) wrote
  obtain ⟨⟨a, i⟩, new⟩ : ∃ found, gap.fill level3 (leafIdx v) = some found := by
    cases gap <;> exact ⟨_, rfl⟩
  rw [new] at filled
  obtain ⟨r, position, walk, before, invalid, _⟩ := filled.hole a i rfl
  have empty : node nav k.mem t (mmuGetTableIdx v) = none := by
    obtain ⟨rest, whole⟩ := before
    have step : node nav k.mem t (r ++ [i]) = none := by
      rw [node_concat_some nav k.mem t a r i walk, nav_of_invalid _ invalid]
    rw [show mmuGetTableIdx v = r ++ [i] ++ rest from whole.symm, node_append, step]
    rfl
  refine ⟨a, i, { filled with unmapped := empty, leaf := ⟨level3, filling.here, ?_, by simp⟩ }⟩
  refine filling.layout.typed.node_kept t level3 ?_ (filling.keepsPos t [] root) _ (by simp)
    filling.walk
  intro p s j c place found
  have away : p ≠ level3 ∨ j ≠ leafIdx v := by
    by_contra both
    push Not at both
    obtain ⟨rfl, rfl⟩ := both
    rw [nav_of_invalid _ was] at found
    cases found
  rw [Kernel.write_mem, put_other _ _ _ _ _ _ away]
  exact found

/-- mem_user_map_page maps the page, or fails and leaves the tables as they were, unless memory
runs out between two of the tables it needs. -/
theorem memUserMapPage_spec (v paddr : Word) (perm : MemPerm) (attr : MemAttr) (pattr : Word)
    (known : userAttr perm = some pattr) :
    (∃ k' pos' a i, memUserMapPage k t v paddr perm attr = .ok (.ok, k') ∧
      Mapped k k' pos pos' a i t v (userLeaf paddr (pattr ||| memAttr attr)) ∧
      ∀ more, canAlloc (missingTables k.mem t (upperIdx v) + more) k = canAlloc more k') ∨
    (memUserMapPage k t v paddr perm attr = .ok (.memExs, k) ∧
      node nav k.mem t (mmuGetTableIdx v) ≠ none) ∨
    memUserMapPage k t v paddr perm attr = .ok (.memOom, k) ∨
    (RunsDry k t v ∧ ∀ k', memUserMapPage k t v paddr perm attr ≠ .ok (.ok, k')) := by
  have start := Filling.start k pos t wf layout root
  unfold memUserMapPage
  rw [known]
  rcases mapLevels_spec root (upperIdx v) k pos none [] t [] start rfl (by simp) with
    ⟨level3, pages, k', pos', gap, result, filling, ghost, left⟩ |
      ⟨k', pages, result, ⟨_, rfl, rfl⟩ | ⟨one, dry⟩⟩
  · simp only [result]
    cases taken : mmuIsValid (k'.mem level3 (leafIdx v)) with
    | false =>
      have filling' : Filling k k' pos pos' gap t (upperIdx v) level3 := filling
      obtain ⟨a, i, mapped⟩ := filling'.mapped k pos t root _ taken
        (userLeaf_valid paddr (pattr ||| memAttr attr))
      have same := sameKernel_put k' level3 (leafIdx v) (userLeaf paddr (pattr ||| memAttr attr))
        (filling.layout.inUse _ _ filling.here).2
      refine .inl ⟨_, pos', a, i, rfl, mapped, fun more => ?_⟩
      rw [left more]
      exact (same.allocs filling.wf more).symm
    | true =>
      have old : gap = none := by
        by_contra new
        rw [(filling.fresh new).2, isValid_zero] at taken
        cases taken
      obtain ⟨rfl, rfl⟩ := filling.intact old
      obtain rfl := ghost.mp old
      refine .inr (.inl ⟨rfl, ?_⟩)
      have walk : node nav k'.mem t (upperIdx v) = some level3 := filling.walk
      rw [node_full, walk, Option.bind_some, nav_of_valid _ taken]
      exact Option.some_ne_none _
  · simp only [result]
    exact .inr (.inr (.inl rfl))
  · refine .inr (.inr (.inr ⟨⟨one rfl, dry⟩, fun k'' => ?_⟩))
    simp only [result, mapRollback]
    cases freeKernelPages pages k' <;> simp [Except.map]

theorem memUserMapPage_ok (v paddr : Word) (perm : MemPerm) (attr : MemAttr) (k' : Kernel)
    (result : memUserMapPage k t v paddr perm attr = .ok (.ok, k')) :
    ∃ pattr pos' a i, userAttr perm = some pattr ∧
      Mapped k k' pos pos' a i t v (userLeaf paddr (pattr ||| memAttr attr)) := by
  cases known : userAttr perm with
  | none => simp [memUserMapPage, known] at result
  | some pattr =>
    rcases memUserMapPage_spec k pos t wf layout root v paddr perm attr pattr known with
      ⟨k'', pos', a, i, same, mapped, _⟩ | ⟨same, _⟩ | same | ⟨_, never⟩
    · rw [result] at same
      simp only [Except.ok.injEq, Prod.mk.injEq, true_and] at same
      exact ⟨pattr, pos', a, i, rfl, same ▸ mapped⟩
    · simp [result] at same
    · simp [result] at same
    · exact absurd result (never k')

end MapPage

section AfterFill

variable {k k' : Kernel} {pos pos' : Pos} {a : Word} {i : Idx} {t : Word} {q : List Idx}
  (filled : Filled k k' pos pos' (some (a, i)) t q) (layout : UserLayout k pos) (root : pos t = some [])

include filled layout

theorem Filled.entry_other (p : Word) (s : List Idx) (j : Idx) (position : pos p = some s)
    (away : p ≠ a ∨ j ≠ i) : k'.mem p j = k.mem p j := by
  refine filled.frame p j (layout.inUse p s position) fun same => ?_
  obtain ⟨rfl, rfl⟩ := Prod.mk.inj (Option.some.inj same)
  exact away.elim (fun different => different rfl) (fun different => different rfl)

-- Only walks through the entry that was filled in can change.
theorem Filled.node_other (r : List Idx) (at' : pos a = some r) (u : Word) (rootU : pos u = some [])
    (path : List Idx) (short : path.length ≤ 4)
    (away : ¬ (r ++ [i] <+: path ∧ node nav k.mem u r = some a)) :
    node nav k'.mem u path = node nav k.mem u path :=
  layout.typed.node_frame u a r i
    (fun p s j position other => by rw [filled.entry_other layout p s j position other])
    at' rootU path short away

theorem Filled.node_before (r : List Idx) (at' : pos a = some r) (u : Word)
    (rootU : pos u = some []) : node nav k'.mem u r = node nav k.mem u r := by
  refine filled.node_other layout r at' u rootU r ?_ ?_
  · have short := layout.typed.bound a r at'
    omega
  · rintro ⟨before, _⟩
    have longer := before.length_le
    rw [List.length_append, List.length_singleton] at longer
    omega

theorem Filled.node_through (r : List Idx) (at' : pos a = some r) (u : Word)
    (rootU : pos u = some []) (through : node nav k.mem u r = some a) (rest : List Idx) :
    node nav k'.mem u (r ++ rest) = node nav k'.mem a rest := by
  rw [node_append, filled.node_before layout r at' u rootU, through]
  rfl

include root

-- Past the filled entry every table page is one that was free.
theorem Filled.node_new (r : List Idx) (at' : pos a = some r) (walk : node nav k.mem t r = some a)
    (s : List Idx) (short : s.length ≤ 3) (c : Word) (past : r ++ [i] <+: s)
    (found : node nav k'.mem t s = some c) : pos c = none := by
  obtain ⟨r', at'', _, _, _, linked⟩ := filled.hole a i rfl
  obtain rfl : r = r' := Option.some.inj (at'.symm.trans at'')
  induction s using List.reverseRecOn generalizing c with
  | nil => simp at past
  | append_singleton s j ih =>
    have shorter : s.length < 3 := by
      rw [List.length_append, List.length_singleton] at short
      omega
    obtain ⟨b, before⟩ := node_prefix_some nav k'.mem t c s [j] found
    rw [node_concat_some nav k'.mem t b s j before, nav_some] at found
    obtain ⟨valid, rfl⟩ := found
    rcases List.prefix_concat_iff.mp past with whole | earlier
    · obtain ⟨rfl, same⟩ := List.append_inj' whole rfl
      obtain rfl := List.singleton_inj.mp same
      rw [filled.node_before layout r at' t root, walk] at before
      obtain rfl := Option.some.inj before
      exact (linked.2 shorter).2
    · have fresh := ih (by omega) b earlier before
      have position := filled.layout.typed.node_pos t b s (filled.keepsPos t [] root) (by omega) before
      obtain ⟨_, _, _, _, row⟩ := filled.only b s position fresh
      rcases row j with zero | ⟨_, link⟩
      · rw [zero, isValid_zero] at valid
        cases valid
      · exact (link.2 shorter).2

theorem Filled.node_path (r : List Idx) (at' : pos a = some r) (walk : node nav k.mem t r = some a)
    (path : List Idx) (short : path.length ≤ 4) (c : Word) (past : r ++ [i] <+: path)
    (found : node nav k'.mem t path = some c) : path <+: q := by
  obtain ⟨r', at'', _, whole, _, _⟩ := filled.hole a i rfl
  obtain rfl : r = r' := Option.some.inj (at'.symm.trans at'')
  induction path using List.reverseRecOn with
  | nil => exact List.nil_prefix
  | append_singleton s j _ =>
    have shorter : s.length ≤ 3 := by
      rw [List.length_append, List.length_singleton] at short
      omega
    rcases List.prefix_concat_iff.mp past with here | earlier
    · exact here ▸ whole
    · obtain ⟨b, before⟩ := node_prefix_some nav k'.mem t c s [j] found
      have fresh := filled.node_new layout root r at' walk s shorter b earlier before
      have position := filled.layout.typed.node_pos t b s (filled.keepsPos t [] root) shorter before
      obtain ⟨_, _, _, _, row⟩ := filled.only b s position fresh
      rw [node_concat_some nav k'.mem t b s j before, nav_some] at found
      rcases row j with zero | ⟨onPath, _⟩
      · rw [zero, isValid_zero] at found
        cases found.1
      · exact onPath

end AfterFill

section AfterMap

variable {k k' : Kernel} {pos pos' : Pos} {a : Word} {i : Idx} {t v e : Word}
  (mapped : Mapped k k' pos pos' a i t v e) (layout : UserLayout k pos) (root : pos t = some [])

include mapped layout root

omit layout root in
theorem Mapped.node_here (valid : mmuIsValid e = true) :
    node nav k'.mem t (mmuGetTableIdx v) = some (mmuGetVaddr e) := by
  obtain ⟨level3, _, walk, leaf⟩ := mapped.leaf
  rw [node_full, walk, Option.bind_some, leaf, nav_of_valid _ valid]

/-- The process that maps a page sees that page and nothing else new. -/
theorem Mapped.node_own (valid : mmuIsValid e = true) (path : List Idx) (deep : path.length = 4) :
    node nav k'.mem t path =
      if path = mmuGetTableIdx v then some (mmuGetVaddr e) else node nav k.mem t path := by
  obtain ⟨r, at', walk, _, was, _⟩ := mapped.hole a i rfl
  split_ifs with here
  · rw [here, mapped.node_here valid]
  · by_cases past : r ++ [i] <+: path
    · have before : node nav k.mem t path = none := by
        obtain ⟨rest, rfl⟩ := past
        rw [node_append, node_concat_some nav k.mem t a r i walk, nav_of_invalid _ was]
        rfl
      rw [before]
      cases found : node nav k'.mem t path with
      | none => rfl
      | some c =>
        have onPath := mapped.node_path layout root r at' walk path (by omega) c past found
        exact absurd (onPath.eq_of_length (by rw [deep]; rfl)) here
    · exact mapped.node_other layout r at' t root path (by omega) (fun both => past both.1)

/-- Another process sees the page too exactly where it shares the table that was written. -/
theorem Mapped.node_shared (u : Word) (rootU : pos u = some []) (r : List Idx)
    (at' : pos a = some r) (through : node nav k.mem u r = some a) (path : List Idx) :
    r <+: path → node nav k'.mem u path = node nav k'.mem t path := by
  obtain ⟨r', at'', walk, _⟩ := mapped.hole a i rfl
  obtain rfl : r = r' := Option.some.inj (at'.symm.trans at'')
  rintro ⟨rest, rfl⟩
  rw [mapped.node_through layout r at' u rootU through,
    mapped.node_through layout r at' t root walk]

end AfterMap

end Anthill
