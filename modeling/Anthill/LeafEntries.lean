import Anthill.MapInsert
import Anthill.RecycledPages

set_option autoImplicit false

namespace Anthill

open Radix

/-- `m'` maps the pages at the addresses `addr`, none of which `m` maps, and has the entries of `m` for all others. -/
structure Gains {A : Type} (addr : A → Word) (Leaf : A → Word → Prop) (m m' : Mem) (t : Word) (pages : List A) :
    Prop where
  lacked : ∀ page, page ∈ pages → userEntry m t (addr page) = 0
  entry : ∀ page, page ∈ pages → Leaf page (userEntry m' t (addr page))
  others : ∀ u, (∀ page, page ∈ pages → mmuGetTableIdx (addr page) ≠ mmuGetTableIdx u) →
    userEntry m' t u = userEntry m t u

-- A page entry that holds the address of a page, a permission and a type of memory, and nothing else.
def LeafOf (perm : MemPerm) (attr : MemAttr) (paddr e : Word) : Prop :=
  ∃ pattr, userAttr perm = some pattr ∧ paddr &&& vaddrMask = paddr ∧ e = userLeaf paddr (pattr ||| memAttr attr)

theorem LeafOf.valid {perm : MemPerm} {attr : MemAttr} {paddr e : Word} (leaf : LeafOf perm attr paddr e) :
    mmuIsValid e = true := by
  obtain ⟨pattr, _, _, rfl⟩ := leaf
  exact userLeaf_valid _ _

theorem LeafOf.bits {perm : MemPerm} {attr : MemAttr} {paddr e : Word} (leaf : LeafOf perm attr paddr e) :
    userAttr perm = some (e &&& leafPermMask) ∧ e &&& memTypeMask = memAttr attr := by
  obtain ⟨pattr, known, page, rfl⟩ := leaf
  obtain ⟨permBits, attrBits⟩ := userLeaf_bits paddr page perm pattr known attr
  exact ⟨by rw [permBits, known], attrBits⟩

theorem valid_ne_zero {e : Word} (valid : mmuIsValid e = true) : e ≠ 0 := by
  rintro rfl
  rw [isValid_zero] at valid
  cases valid

-- The walk looks at an address only through its table indices.
theorem userEntry_congr (m : Mem) (t u v : Word) (same : mmuGetTableIdx u = mmuGetTableIdx v) :
    userEntry m t u = userEntry m t v := by
  simp only [mmuGetTableIdx_eq, List.cons.injEq, and_true] at same
  obtain ⟨level0, level1, level2, level3⟩ := same
  simp only [userEntry, userWalk, level0, level1, level2, level3]

section Gains

variable {A : Type} {addr : A → Word} {Leaf : A → Word → Prop} {m m' m'' : Mem} {t : Word} {pages more : List A}

theorem Gains.nil (same : ∀ u, userEntry m' t u = userEntry m t u) : Gains addr Leaf m m' t [] :=
  ⟨fun _ listed => absurd listed List.not_mem_nil, fun _ listed => absurd listed List.not_mem_nil, fun u _ => same u⟩

theorem Gains.append (used : ∀ page e, Leaf page e → e ≠ 0) (first : Gains addr Leaf m m' t pages)
    (second : Gains addr Leaf m' m'' t more) : Gains addr Leaf m m'' t (pages ++ more) := by
  have apart (page next : A) (old : page ∈ pages) (new : next ∈ more) :
      mmuGetTableIdx (addr page) ≠ mmuGetTableIdx (addr next) := fun same =>
    used page _ (first.entry page old) ((userEntry_congr m' t _ _ same).trans (second.lacked next new))
  refine ⟨fun page member => ?_, fun page member => ?_, fun u away => ?_⟩
  · rcases List.mem_append.mp member with old | new
    · exact first.lacked page old
    · rw [← first.others _ fun page' old => apart page' page old new]
      exact second.lacked page new
  · rcases List.mem_append.mp member with old | new
    · rw [second.others _ fun next new => (apart page next old new).symm]
      exact first.entry page old
    · exact second.entry page new
  · rw [second.others u fun page new => away page (List.mem_append_right _ new),
      first.others u fun page old => away page (List.mem_append_left _ old)]

end Gains

section Entries

variable {k k' : Kernel} {pos pos' : Pos} {t : Word} (process : Process k pos t)

include process

theorem Process.entry_eq (u : Word) : userEntry k.mem t u =
    match node nav k.mem t (upperIdx u) with
    | none => 0
    | some level3 => if mmuIsValid (k.mem level3 (leafIdx u)) then k.mem level3 (leafIdx u) else 0 :=
  userWalk_eq k pos process.layout t process.root u 0 fun level i => k.mem level i

theorem Process.walk_entry (u : Word) : node nav k.mem t (mmuGetTableIdx u) =
    if userEntry k.mem t u = 0 then none else some (mmuGetVaddr (userEntry k.mem t u)) := by
  rw [process.entry_eq, node_full]
  cases node nav k.mem t (upperIdx u) with
  | none => rfl
  | some level3 =>
    cases valid : mmuIsValid (k.mem level3 (leafIdx u)) with
    | false => simp [nav, valid]
    | true =>
      simp only [Option.bind_some, nav, valid, if_true, if_neg (valid_ne_zero valid)]

theorem Process.lacks_entry (u : Word) : node nav k.mem t (mmuGetTableIdx u) = none ↔ userEntry k.mem t u = 0 := by
  rw [process.walk_entry]
  by_cases empty : userEntry k.mem t u = 0
  · exact iff_of_true (if_pos empty) empty
  · rw [if_neg empty]
    exact iff_of_false (Option.some_ne_none _) empty

theorem Process.busy_entry (u : Word) : pageBusy k.mem t u = true ↔ userEntry k.mem t u ≠ 0 := by
  rw [pageBusy_eq k pos process.layout t process.root, Option.isSome_iff_ne_none, ne_eq, process.lacks_entry]

/-- A walk over the same tables comes to the same place. -/
theorem Process.walk_keeps {A : Type} (agree : ∀ p r, pos p = some r → k'.mem p = k.mem p) (u : Word) (miss : A)
    (hit hit' : Word → Idx → A) (same : ∀ p r i, pos p = some r → hit' p i = hit p i) :
    userWalk k'.mem t u miss hit' = userWalk k.mem t u miss hit := by
  have typed : Typed nav 3 k'.mem pos := process.layout.typed.congr fun p q i position => by rw [agree p q position]
  have table (p : Word) (q : List Idx) (i : Idx) (position : pos p = some q) := by
    have row := process.layout.table p q i position
    rwa [← agree p q position] at row
  rw [userWalk_node typed table t process.root, userWalk_eq k pos process.layout t process.root,
    process.twin_walk agree _ (by simp [upperIdx])]
  cases walk : node nav k.mem t (upperIdx u) with
  | none => rfl
  | some level3 =>
    have position := process.layout.typed.node_pos t level3 _ process.root (by simp [upperIdx]) walk
    simp only [agree level3 _ position, same level3 _ _ position]

theorem Process.entries_keep (agree : ∀ p r, pos p = some r → k'.mem p = k.mem p) (u : Word) :
    userEntry k'.mem t u = userEntry k.mem t u :=
  process.walk_keeps agree u 0 _ _ fun p r i position => by rw [agree p r position]

-- A walk that comes to an entry does not pass through the one that was not valid.
theorem Filled.entry_old {a : Word} {i : Idx} {q : List Idx} (filled : Filled k k' pos pos' (some (a, i)) t q) (u : Word)
    (used : userEntry k.mem t u ≠ 0) : userEntry k'.mem t u = userEntry k.mem t u := by
  have process' : Process k' pos' t := ⟨filled.wf, filled.layout, filled.keepsPos t [] process.root⟩
  obtain ⟨r, at', walk, _, was, _⟩ := filled.hole a i rfl
  have off : ¬ r ++ [i] <+: mmuGetTableIdx u := by
    rintro ⟨rest, whole⟩
    refine used ((process.lacks_entry u).mp ?_)
    rw [← whole, node_append, node_concat_some nav k.mem t a r i walk, nav_of_invalid _ was]
    rfl
  have upper : node nav k'.mem t (upperIdx u) = node nav k.mem t (upperIdx u) :=
    filled.node_other process.layout r at' t process.root _ (by simp [upperIdx]) fun both =>
      off (both.1.trans (List.prefix_append _ _))
  rw [process'.entry_eq, process.entry_eq, upper]
  cases found : node nav k.mem t (upperIdx u) with
  | none => rfl
  | some level3 =>
    have position := process.layout.typed.node_pos t level3 _ process.root (by simp [upperIdx]) found
    have kept : k'.mem level3 (leafIdx u) = k.mem level3 (leafIdx u) := by
      refine filled.entry_other process.layout level3 _ _ position ?_
      by_contra both
      push Not at both
      obtain ⟨rfl, rfl⟩ := both
      rw [at'] at position
      obtain rfl := Option.some.inj position
      exact off (List.prefix_refl _)
    simp only [kept]

theorem Mapped.entry {a : Word} {i : Idx} {v e : Word} (mapped : Mapped k k' pos pos' a i t v e)
    (valid : mmuIsValid e = true) (u : Word) :
    userEntry k'.mem t u = if mmuGetTableIdx u = mmuGetTableIdx v then e else userEntry k.mem t u := by
  have process' := mapped.process process
  split_ifs with here
  · obtain ⟨level3, _, walk, leaf⟩ := mapped.leaf
    rw [userEntry_congr _ _ _ _ here, userEntry_leaf mapped.layout process'.root v level3 walk (leaf ▸ valid), leaf]
  · by_cases none : userEntry k.mem t u = 0
    · have path := mapped.node_own process.layout process.root valid (mmuGetTableIdx u) rfl
      rw [if_neg here] at path
      rw [none, ← process'.lacks_entry, path, process.lacks_entry]
      exact none
    · exact mapped.entry_old process u none

end Entries

-- The page that a process gets is in its table, with the page's permission.
def NewPage.Leaf (page : NewPage) (e : Word) : Prop := ∃ va, IsPage va ∧ LeafOf page.perm .norm (virtToPhys va) e

theorem NewPage.Leaf.ne_zero (page : NewPage) (e : Word) (leaf : page.Leaf e) : e ≠ 0 := by
  obtain ⟨va, _, leaf⟩ := leaf
  exact valid_ne_zero leaf.valid

section Memory

variable {k₀ : Kernel} {pos₀ : Pos} {t : Word}

theorem mapLevels_lasts (rootT : pos₀ t = some []) (idx : List Idx) :
    ∀ (k : Kernel) (pos : Pos) (gap : Gap) (q : List Idx) (level : Word) (pages : List Word),
      Filling k₀ k pos₀ pos gap t q level → q.length + idx.length = 3 →
        canAlloc (missingTables k.mem level idx) k = true → ∃ reached, mapLevels k level pages idx = .ok reached := by
  induction idx with
  | nil => exact fun k _ _ _ level pages _ _ _ => ⟨(level, pages, k), rfl⟩
  | cons i idx ih =>
    intro k pos gap q level pages filling depth enough
    rw [List.length_cons] at depth
    have short : q.length < 3 := by omega
    have deeper : (q ++ [i]).length + idx.length = 3 := by
      rw [List.length_append, List.length_singleton]
      omega
    rw [mapLevels]
    rw [missingTables] at enough
    cases valid : mmuIsValid (k.mem level i) with
    | true =>
      rw [mapStep_valid k level pages i valid]
      rw [if_pos valid] at enough
      exact ih k pos gap (q ++ [i]) _ pages (filling.follow short i valid) deeper enough
    | false =>
      rw [if_neg (by rw [valid]; exact Bool.false_ne_true)] at enough
      rcases memKernelAllocPage_rw k filling.wf with oom | ⟨va, k₁, taken, allocated⟩
      · rw [canAlloc_oom k _ oom] at enough
        cases enough
      · have linked := filling.link rootT short i valid allocated
        have same := linkTable_same (i := i) filling.layout filling.here allocated
        have blank : (linkTable k₁ va level i).mem va = fun _ => 0 :=
          (linked.fresh (by cases gap <;> simp [Gap.fill])).2
        rw [mapStep_link k k₁ level va pages i valid allocated.isPage taken]
        refine ih _ _ _ _ va (pages ++ [va]) linked deeper ?_
        rw [missingTables_blank _ _ _ blank, same.allocs allocated.wf, ← canAlloc_next k k₁ va _ taken]
        exact enough

theorem memUserMapPage_lasts {k : Kernel} {pos : Pos} (process : Process k pos t) (v paddr : Word) (perm : MemPerm)
    (attr : MemAttr) (pattr : Word) (known : userAttr perm = some pattr)
    (lacked : node nav k.mem t (mmuGetTableIdx v) = none)
    (enough : canAlloc (missingTables k.mem t (upperIdx v)) k = true) :
    ∃ k' pos' a i, memUserMapPage k t v paddr perm attr = .ok (.ok, k') ∧
      Mapped k k' pos pos' a i t v (userLeaf paddr (pattr ||| memAttr attr)) ∧
      ∀ more, canAlloc (missingTables k.mem t (upperIdx v) + more) k = canAlloc more k' := by
  rcases memUserMapPage_spec k pos t process.wf process.layout process.root v paddr perm attr pattr known with
    mapped | ⟨_, there⟩ | oom | ⟨dry, _⟩
  · exact mapped
  · exact absurd lacked there
  · -- With memory for its tables the walk is filled all the way, and then the call does not run out.
    obtain ⟨⟨level3, pages, k'⟩, levels⟩ := mapLevels_lasts process.root (upperIdx v) k pos none [] t []
      (.start k pos t process.wf process.layout process.root) rfl enough
    rw [memUserMapPage, known] at oom
    simp only [levels, mapRollback] at oom
    split_ifs at oom
    · cases freed : freeKernelPages pages k' <;> rw [freed] at oom <;> cases oom
    · cases oom
  · rw [dry.2] at enough
    cases enough

/-- The tables that a list of pages lacks, one page after the other. -/
theorem tablesLackedBy_cons (m m' : Mem) (v : Word) (vaddrs : List Word)
    (lacks : ∀ s, s.length ≤ 3 → (node nav m' t s = none ↔ node nav m t s = none ∧ ¬ s <+: upperIdx v)) :
    tablesLackedBy m t (v :: vaddrs) = missingTables m t (upperIdx v) + tablesLackedBy m' t vaddrs := by
  have new (u : Word) : lackedTables m' t u = lackedTables m t u \ lackedTables m t v := by
    ext s
    simp only [Finset.mem_sdiff, mem_lackedTables, not_and]
    constructor
    · rintro ⟨onPath, nonempty, missing⟩
      rw [lacks s onPath.length_le] at missing
      exact ⟨⟨onPath, nonempty, missing.1⟩, fun here => absurd here missing.2⟩
    · rintro ⟨⟨onPath, nonempty, missing⟩, fresh⟩
      refine ⟨onPath, nonempty, ?_⟩
      rw [lacks s onPath.length_le]
      exact ⟨missing, fun here => fresh here nonempty missing⟩
  have rest : vaddrs.toFinset.biUnion (fun u => lackedTables m' t u) =
      vaddrs.toFinset.biUnion (fun u => lackedTables m t u) \ lackedTables m t v := by
    ext s
    simp only [new, Finset.mem_biUnion, Finset.mem_sdiff]
    exact ⟨fun ⟨u, listed, here, fresh⟩ => ⟨⟨u, listed, here⟩, fresh⟩,
      fun ⟨⟨u, listed, here⟩, fresh⟩ => ⟨u, listed, here, fresh⟩⟩
  rw [tablesLackedBy, tablesLackedBy, rest, List.toFinset_cons, Finset.biUnion_insert, ← card_lackedTables,
    Finset.union_comm, Nat.add_comm, Finset.card_sdiff_add_card]

end Memory

theorem Allocated.missing {k k' : Kernel} {pos : Pos} {va t : Word} (allocated : Allocated k k' va)
    (process : Process k pos t) (v : Word) :
    missingTables k'.mem t (upperIdx v) = missingTables k.mem t (upperIdx v) := by
  rw [← card_lackedTables, ← card_lackedTables]
  congr 1
  ext s
  simp only [mem_lackedTables]
  refine and_congr_right fun onPath => ?_
  rw [allocated.walks process s (Nat.le_succ_of_le onPath.length_le)]

theorem Mapped.gains {A : Type} {addr : A → Word} {Leaf : A → Word → Prop} {k k' : Kernel} {pos pos' : Pos} {t a : Word}
    {i : Idx} {v e : Word} (mapped : Mapped k k' pos pos' a i t v e) (process : Process k pos t)
    (valid : mmuIsValid e = true) (page : A) (here : addr page = v) (leaf : Leaf page e) :
    Gains addr Leaf k.mem k'.mem t [page] := by
  have entry (u : Word) := mapped.entry process valid u
  subst here
  refine ⟨?_, ?_, fun u away => ?_⟩
  · simp only [List.mem_singleton, forall_eq]
    exact (process.lacks_entry _).mp mapped.unmapped
  · simp only [List.mem_singleton, forall_eq]
    rw [entry, if_pos rfl]
    exact leaf
  · rw [entry, if_neg fun same => away page List.mem_cons_self same.symm]

theorem Gains.congr {A : Type} {addr : A → Word} {Leaf : A → Word → Prop} {m m₁ m₂ m₃ : Mem} {t : Word} {pages : List A}
    (before : ∀ u, userEntry m₁ t u = userEntry m t u) (after : ∀ u, userEntry m₃ t u = userEntry m₂ t u)
    (gains : Gains addr Leaf m₁ m₂ t pages) : Gains addr Leaf m m₃ t pages := by
  refine ⟨fun page listed => ?_, fun page listed => ?_, fun u away => ?_⟩
  · rw [← before]
    exact gains.lacked page listed
  · rw [after]
    exact gains.entry page listed
  · rw [after, gains.others u away, before]

/-- A page that a process has got: `va` was taken from the pool, mapped, and written. -/
structure Got (k k₂ k₃ k₁ : Kernel) (pos pos₁ : Pos) (t va : Word) (page : NewPage) (pattr : Word) : Prop where
  taken : memKernelAllocPage k .rw = (⟨va, .ok⟩, k₂)
  allocated : Allocated k k₂ va
  known : userAttr page.perm = some pattr
  mapped : ∃ a i, Mapped k₂ k₃ pos pos₁ a i t page.vaddr (userLeaf (virtToPhys va) (pattr ||| memAttr .norm))
  left : ∀ more, canAlloc (missingTables k₂.mem t (upperIdx page.vaddr) + more) k₂ = canAlloc more k₃
  same : SameKernel k₃ k₁
  keep : ∀ p r, pos₁ p = some r → k₁.mem p = k₃.mem p

theorem placePage_got {k k₁ : Kernel} {pos : Pos} {t : Word} (process : Process k pos t) (page : NewPage)
    (result : placePage t k page = some k₁) : ∃ k₂ k₃ pos₁ va pattr, Got k k₂ k₃ k₁ pos pos₁ t va page pattr := by
  unfold placePage at result
  rcases memKernelAllocPage_rw k process.wf with oom | ⟨va, k₂, taken, allocated⟩
  · rw [oom] at result
    cases result
  rw [taken] at result
  simp only at result
  split at result
  case h_2 => cases result
  next k₃ mapping =>
  obtain rfl := Option.some.inj result
  have process₂ := allocated.process process
  obtain ⟨pattr, _, _, _, known, _⟩ :=
    memUserMapPage_ok k₂ pos t process₂.wf process₂.layout process₂.root _ _ _ _ _ mapping
  rcases memUserMapPage_spec k₂ pos t process₂.wf process₂.layout process₂.root page.vaddr (virtToPhys va) page.perm
    .norm pattr known with ⟨_, pos₁, a, i, same, mapped, left⟩ | ⟨same, _⟩ | same | ⟨_, never⟩
  · rw [mapping] at same
    obtain ⟨-, rfl⟩ := Prod.mk.inj (Except.ok.inj same)
    have used := mapped.grew.keepsUse va allocated.inUse
    have outside : pos va = none := process.layout.fresh va allocated.wasFree
    refine ⟨k₂, k₃, pos₁, va, pattr, taken, allocated, known, ⟨a, i, mapped⟩, left, sameKernel_putPage k₃ va _ used.2,
      fun p r position => putPage_other _ _ _ _ ?_⟩
    rintro rfl
    exact not_free_of_marked k₂ p allocated.inUse.1 (mapped.only p r position outside).1
  · rw [mapping] at same
    cases same
  · rw [mapping] at same
    cases same
  · exact absurd mapping (never k₃)

section Got

variable {k k₂ k₃ k₁ : Kernel} {pos pos₁ : Pos} {t va : Word} {page : NewPage} {pattr : Word}
  (got : Got k k₂ k₃ k₁ pos pos₁ t va page pattr) (process : Process k pos t)

include got process

theorem Got.stays : Process k₁ pos₁ t := by
  obtain ⟨a, i, mapped⟩ := got.mapped
  exact (mapped.process (got.allocated.process process)).twin got.same got.keep

theorem Got.gains : Gains NewPage.vaddr NewPage.Leaf k.mem k₁.mem t [page] := by
  obtain ⟨a, i, mapped⟩ := got.mapped
  have process₂ := got.allocated.process process
  have gains : Gains NewPage.vaddr NewPage.Leaf k₂.mem k₃.mem t [page] := mapped.gains process₂ (userLeaf_valid _ _) page
    rfl ⟨va, got.allocated.isPage, pattr, got.known, got.allocated.isPage, rfl⟩
  exact gains.congr (process.entries_keep fun p r position => (got.allocated.keeps p (process.layout.inUse p r position)).2)
    ((mapped.process process₂).entries_keep got.keep)

theorem Got.lacks (s : List Idx) (short : s.length ≤ 3) :
    node nav k₁.mem t s = none ↔ node nav k.mem t s = none ∧ ¬ s <+: upperIdx page.vaddr := by
  obtain ⟨a, i, mapped⟩ := got.mapped
  have process₂ := got.allocated.process process
  rw [(mapped.process process₂).twin_walk got.keep s (Nat.le_succ_of_le short),
    mapped.node_none process₂.layout process.root s short, got.allocated.walks process s (Nat.le_succ_of_le short)]

-- What is left in the pool for the pages at `vaddrs` and their tables.
theorem Got.leaves (vaddrs : List Word) (count : Nat) :
    canAlloc (count + 1 + tablesLackedBy k.mem t (page.vaddr :: vaddrs)) k =
      canAlloc (count + tablesLackedBy k₁.mem t vaddrs) k₁ := by
  obtain ⟨a, i, mapped⟩ := got.mapped
  have wf₃ := mapped.wf
  rw [tablesLackedBy_cons k.mem k₁.mem page.vaddr vaddrs (got.lacks process), got.same.allocs wf₃, ← got.left,
    ← canAlloc_next k k₂ va _ got.taken, got.allocated.missing process page.vaddr]
  congr 1
  omega

end Got

theorem placePages_gains {t : Word} (pages : List NewPage) : ∀ {k k₁ : Kernel} {pos : Pos}, Process k pos t →
    placePages t k pages = some k₁ →
      ∃ pos₁, Process k₁ pos₁ t ∧ Gains NewPage.vaddr NewPage.Leaf k.mem k₁.mem t pages := by
  induction pages with
  | nil =>
    intro k k₁ pos process result
    cases result
    exact ⟨pos, process, .nil fun _ => rfl⟩
  | cons page pages ih =>
    intro k k₁ pos process result
    obtain ⟨k₂, first, rest⟩ := Option.bind_eq_some_iff.mp result
    obtain ⟨_, _, _, _, _, got⟩ := placePage_got process page first
    obtain ⟨pos₁, process₁, others⟩ := ih (got.stays process) rest
    exact ⟨pos₁, process₁, (got.gains process).append NewPage.Leaf.ne_zero others⟩

theorem placePage_lasts {k : Kernel} {pos : Pos} {t : Word} (process : Process k pos t) (page : NewPage) (pattr : Word)
    (known : userAttr page.perm = some pattr) (lacked : userEntry k.mem t page.vaddr = 0)
    (enough : canAlloc (1 + missingTables k.mem t (upperIdx page.vaddr)) k = true) :
    ∃ k₁, placePage t k page = some k₁ := by
  rw [Nat.add_comm] at enough
  rcases memKernelAllocPage_rw k process.wf with oom | ⟨va, k₂, taken, allocated⟩
  · rw [canAlloc_oom k _ oom] at enough
    cases enough
  have process₂ := allocated.process process
  have lacked₂ : node nav k₂.mem t (mmuGetTableIdx page.vaddr) = none := by
    rw [allocated.walks process _ (by simp), process.lacks_entry]
    exact lacked
  have enough₂ : canAlloc (missingTables k₂.mem t (upperIdx page.vaddr)) k₂ = true := by
    rw [allocated.missing process, ← canAlloc_next k k₂ va _ taken]
    exact enough
  obtain ⟨k₃, _, _, _, mapping, _⟩ :=
    memUserMapPage_lasts process₂ page.vaddr (virtToPhys va) page.perm .norm pattr known lacked₂ enough₂
  refine ⟨k₃.writePage va (copyBytes (k₃.mem va) page.start page.bytes), ?_⟩
  rw [placePage, taken]
  simp only [mapping]

theorem placePages_lasts {t : Word} (pages : List NewPage) : ∀ {k : Kernel} {pos : Pos}, Process k pos t →
    (∀ page, page ∈ pages → (userAttr page.perm).isSome ∧ userEntry k.mem t page.vaddr = 0) →
    pages.Pairwise (fun page page' => mmuGetTableIdx page.vaddr ≠ mmuGetTableIdx page'.vaddr) →
    canAlloc (pages.length + tablesLackedBy k.mem t (pages.map NewPage.vaddr)) k = true →
    ∃ k₁, placePages t k pages = some k₁ := by
  induction pages with
  | nil => exact fun {k _} _ _ _ _ => ⟨k, rfl⟩
  | cons page pages ih =>
    intro k pos process ready apart enough
    obtain ⟨away, apart⟩ := List.pairwise_cons.mp apart
    obtain ⟨known, lacked⟩ := ready page List.mem_cons_self
    obtain ⟨pattr, known⟩ := Option.isSome_iff_exists.mp known
    rw [List.length_cons, List.map_cons] at enough
    have part : missingTables k.mem t (upperIdx page.vaddr) ≤
        tablesLackedBy k.mem t (page.vaddr :: pages.map NewPage.vaddr) := by
      rw [← card_lackedTables]
      refine Finset.card_le_card ?_
      rw [List.toFinset_cons, Finset.biUnion_insert]
      exact Finset.subset_union_left
    obtain ⟨k₂, first⟩ := placePage_lasts process page pattr known lacked
      (canAlloc_less k _ _ (by omega) enough)
    obtain ⟨_, _, pos₂, _, _, got⟩ := placePage_got process page first
    rw [got.leaves process] at enough
    have ready' (next : NewPage) (listed : next ∈ pages) :
        (userAttr next.perm).isSome ∧ userEntry k₂.mem t next.vaddr = 0 := by
      obtain ⟨known, lacked⟩ := ready next (List.mem_cons_of_mem page listed)
      have same := (got.gains process).others next.vaddr fun other only => by
        rw [List.mem_singleton.mp only]
        exact away next listed
      exact ⟨known, same.trans lacked⟩
    obtain ⟨k₁, rest⟩ := ih (got.stays process) ready' apart enough
    exact ⟨k₁, by rw [placePages, first]; exact rest⟩

end Anthill
