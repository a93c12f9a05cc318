import Anthill.Machine
import Anthill.MapRange
import Anthill.Mmap

set_option autoImplicit false

namespace Anthill

open Radix

theorem userAttr_low (perm : MemPerm) (attr : MemAttr) (pattr : Word)
    (known : userAttr perm = some pattr) : (pattr ||| memAttr attr) &&& vaddrMask = 0 := by
  cases perm <;> cases attr <;> simp only [userAttr, Option.some.injEq, reduceCtorEq] at known <;>
    subst known <;> decide

theorem Process.map {k : Kernel} {pos : Pos} {t : Word} (process : Process k pos t) (v paddr : Word)
    (perm : MemPerm) (attr : MemAttr) (pattr : Word) (known : userAttr perm = some pattr)
    (lasts : ¬ RunsDry k t v) :
    (∃ k' pos' a i, memUserMapPage k t v paddr perm attr = .ok (.ok, k') ∧
      Mapped k k' pos pos' a i t v (userLeaf paddr (pattr ||| memAttr attr)) ∧
      ∀ more, canAlloc (missingTables k.mem t (upperIdx v) + more) k = canAlloc more k') ∨
    ∃ err, err ≠ .ok ∧ memUserMapPage k t v paddr perm attr = .ok (err, k) := by
  rcases memUserMapPage_spec k pos t process.wf process.layout process.root v paddr perm attr pattr
    known with mapped | ⟨exists', _⟩ | oom | ⟨dry, _⟩
  · exact .inl mapped
  · exact .inr ⟨.memExs, by decide, exists'⟩
  · exact .inr ⟨.memOom, by decide, oom⟩
  · exact absurd dry lasts

theorem Mapped.process {k k' : Kernel} {pos pos' : Pos} {a : Word} {i : Idx} {t v e : Word}
    (mapped : Mapped k k' pos pos' a i t v e) (process : Process k pos t) : Process k' pos' t :=
  ⟨mapped.wf, mapped.layout, mapped.keepsPos t [] process.root⟩

theorem Allocated.process {k k' : Kernel} {pos : Pos} {va t : Word}
    (allocated : Allocated k k' va) (process : Process k pos t) : Process k' pos t :=
  ⟨allocated.wf, process.layout.allocated allocated, process.root⟩

theorem Allocated.walks {k k' : Kernel} {pos : Pos} {va t : Word}
    (allocated : Allocated k k' va) (process : Process k pos t) (s : List Idx)
    (short : s.length ≤ 4) : node nav k'.mem t s = node nav k.mem t s := by
  refine process.layout.typed.node_same t (fun p q i position => ?_) process.root s short
  rw [(allocated.keeps p (process.layout.inUse p q position)).2]

theorem Grew.marks {k k' : Kernel} (grew : Grew k k') (p : Word) (used : Marked k p) :
    Marked k' p := by
  obtain ⟨n, inside, rfl, set⟩ := used
  cases after : marked k'.memoryMap n with
  | true => exact ⟨n, inside, rfl, after⟩
  | false =>
    have free := grew.shrinks _ ⟨n, inside, rfl, after⟩
    exact absurd free (not_free_of_marked k _ ⟨n, inside, rfl, set⟩)

/-- Every page that the process maps is a marked pool page, and it maps none twice. -/
structure Owned (k : Kernel) (t : Word) : Prop where
  marks : ∀ path p, Maps k t path p → Marked k p
  once : ∀ path path' p, Maps k t path p → Maps k t path' p → path = path'

/-- A pool page that the process maps is marked, and no two of its pages are the same. -/
def PagesOwned (k : Kernel) (t : Word) : Prop :=
  (∀ path p n, Maps k t path p → n < managed → p = poolVa n → marked k.memoryMap n = true) ∧
    ∀ path path' p, Maps k t path p → Maps k t path' p → path = path'

/-- The user tables map pages in use, each of them once. -/
def LeavesOwned (cells : List Cell) (free : List Nat) (tables : Tables) : Prop :=
  (∀ leaf, leaf ∈ leaves cells tables → ∃ n, n ∈ List.range 384 ∧ leaf.2 = poolVa n ∧ n ∉ free) ∧
  ∀ leaf, leaf ∈ leaves cells tables → ∀ leaf', leaf' ∈ leaves cells tables → leaf.2 = leaf'.2 →
    leaf.1 = leaf'.1

instance (cells : List Cell) (free : List Nat) (tables : Tables) :
    Decidable (LeavesOwned cells free tables) := by
  unfold LeavesOwned
  infer_instance

theorem machine_owned (cells : List Cell) (free : List Nat) (tables : Tables)
    (fits : Fits cells free tables) (t : Word) (root : posOf tables t = some [])
    (owned : LeavesOwned cells free tables) : Owned (machine cells free) t := by
  have listed := machine_maps cells free tables fits t root
  constructor
  case marks =>
    intro path p maps
    obtain ⟨n, member, same, notFree⟩ := owned.1 _ (listed path p maps)
    have small := List.mem_range.mp member
    exact ⟨n, by rw [managed_eq]; omega, same, by
      rw [machine_marked cells free fits.1, decide_eq_true_eq]
      exact notFree⟩
  case once =>
    intro path path' p maps maps'
    exact owned.2 _ (listed path p maps) _ (listed path' p maps') rfl

theorem Owned.pages {k : Kernel} {t : Word} (owned : Owned k t) : PagesOwned k t := by
  refine ⟨fun path p n maps inside same => ?_, owned.once⟩
  obtain ⟨m, insideM, same', set⟩ := owned.marks path p maps
  rw [poolVa_inj n m inside insideM (same.symm.trans same')]
  exact set

theorem Owned.allocated {k k' : Kernel} {pos : Pos} {t va : Word} (owned : Owned k t)
    (process : Process k pos t) (allocated : Allocated k k' va) : Owned k' t := by
  have back (path : List Idx) (p : Word) (maps : Maps k' t path p) : Maps k t path p :=
    ⟨maps.1, (allocated.walks process path (by rw [maps.1])).symm.trans maps.2⟩
  exact ⟨fun path p maps => allocated.grew.marks p (owned.marks path p (back path p maps)),
    fun path path' p maps maps' => owned.once path path' p (back path p maps) (back path' p maps')⟩

theorem Owned.mapped {k k' : Kernel} {pos pos' : Pos} {a : Word} {i : Idx} {t v e : Word}
    (owned : Owned k t) (process : Process k pos t) (mapped : Mapped k k' pos pos' a i t v e)
    (valid : mmuIsValid e = true) (marks : Marked k (mmuGetVaddr e))
    (new : ∀ path, ¬ Maps k t path (mmuGetVaddr e)) : Owned k' t := by
  have back (path : List Idx) (p : Word) (maps : Maps k' t path p) :
      (path = mmuGetTableIdx v ∧ p = mmuGetVaddr e) ∨ Maps k t path p := by
    have found := maps.2
    rw [mapped.node_own process.layout process.root valid path maps.1] at found
    split_ifs at found with here
    · exact .inl ⟨here, (Option.some.inj found).symm⟩
    · exact .inr ⟨maps.1, found⟩
  constructor
  case marks =>
    intro path p maps
    rcases back path p maps with ⟨_, rfl⟩ | before
    · exact mapped.grew.marks _ marks
    · exact mapped.grew.marks p (owned.marks path p before)
  case once =>
    intro path path' p maps maps'
    rcases back path p maps with ⟨here, page⟩ | before <;>
      rcases back path' p maps' with ⟨here', page'⟩ | before'
    · rw [here, here']
    · exact absurd (page ▸ before') (new path')
    · exact absurd (page' ▸ before) (new path)
    · exact owned.once path path' p before before'

section Anonymous

variable {k₀ k : Kernel} {pos : Pos} {t vaddr : Word} {j n : Nat}

theorem alloc_left {k k' : Kernel} {va : Word} (taken : memKernelAllocPage k .rw = (⟨va, .ok⟩, k'))
    (more : Nat) : canAlloc (1 + more) k = canAlloc more k' := by
  rw [Nat.add_comm]
  exact canAlloc_next k k' va more taken

/-- One round of _map_anonymous maps one more page that was free, or stops without harm. -/
theorem anonymousStep_spec (process : Process k pos t) (owned : Owned k t)
    (round : Round k₀ k t vaddr 1 j) (inside : j < n) (lasts : ¬ RangeRunsDry k₀ t vaddr 1 n)
    (perm : MemPerm) (pattr : Word) (known : userAttr perm = some pattr) :
    (∃ k' pos', anonymousStep k t (pageAt vaddr j) perm = .ok k' ∧ Process k' pos' t ∧ Owned k' t ∧
      Round k₀ k' t vaddr 1 (j + 1)) ∨
    ∃ k' pos', anonymousStep k t (pageAt vaddr j) perm = .error (.ok (enomem, k')) ∧
      Process k' pos' t ∧ Owned k' t := by
  rcases memKernelAllocPage_rw k process.wf with oom | ⟨va, k₁, taken, allocated⟩
  · exact .inr ⟨k, pos, by simp [anonymousStep, oom], process, owned⟩
  · have process₁ := allocated.process process
    have owned₁ := owned.allocated process allocated
    have walks (s : List Idx) (short : s.length ≤ 3) :=
      allocated.walks process s (Nat.le_succ_of_le short)
    have lasts₁ := round.lasts n inside lasts k₁ (alloc_left taken) walks
    rcases process₁.map (pageAt vaddr j) (virtToPhys va) perm .norm pattr known lasts₁ with
      ⟨k', pos', a, i, result, mapped, left⟩ | ⟨err, failed, result⟩
    · have page : mmuGetVaddr (userLeaf (virtToPhys va) (pattr ||| memAttr .norm)) = va :=
        userLeaf_vaddr va _ allocated.isPage (userAttr_low perm .norm pattr known)
      have marks : Marked k₁ va := allocated.inUse.1
      have new (path : List Idx) : ¬ Maps k₁ t path va := by
        rintro ⟨deep, found⟩
        rw [allocated.walks process path (by rw [deep])] at found
        exact not_free_of_marked k va (owned.marks path va ⟨deep, found⟩) allocated.wasFree
      refine .inl ⟨k', pos', by simp [anonymousStep, taken, result], mapped.process process₁, ?_, ?_⟩
      · exact owned₁.mapped process₁ mapped (userLeaf_valid _ _) (by rwa [page]) (by rwa [page])
      · exact round.next k₁ k' (alloc_left taken) walks left
          (fun s short => mapped.node_none process₁.layout process₁.root s short)
    · refine .inr ⟨k₁, pos, ?_, process₁, owned₁⟩
      cases err <;> simp [anonymousStep, taken, result] at failed ⊢

theorem anonymousLoop_owned (lasts : ¬ RangeRunsDry k₀ t vaddr 1 n) (perm : MemPerm) (pattr : Word)
    (known : userAttr perm = some pattr) (count : Nat) :
    ∀ (k : Kernel) (pos : Pos) (j : Nat), Process k pos t → Owned k t → Round k₀ k t vaddr 1 j →
      j + count = n → ∃ ret k' pos', anonymousLoop t vaddr perm k j count = .ok (ret, k') ∧
        Process k' pos' t ∧ Owned k' t := by
  induction count with
  | zero => exact fun k pos j process owned _ _ => ⟨vaddr, k, pos, rfl, process, owned⟩
  | succ count ih =>
    intro k pos j process owned round total
    rcases anonymousStep_spec process owned round (by omega) lasts perm pattr known with
      ⟨k', pos', result, process', owned', round'⟩ | ⟨k', pos', result, process', owned'⟩
    · rw [anonymousLoop, result]
      exact ih k' pos' (j + 1) process' owned' round' (by omega)
    · rw [anonymousLoop, result]
      exact ⟨enomem, k', pos', rfl, process', owned'⟩

end Anonymous

theorem protPerm_attr (prot : Int) (perm : MemPerm) (known : protPerm prot = some perm) :
    ∃ pattr, userAttr perm = some pattr := by
  unfold protPerm at known
  split_ifs at known <;> cases known <;> exact ⟨_, rfl⟩

-- The page at `v` is mapped and nothing else counts it.
def lastRef (m : Mem) (t v : Word) : Bool :=
  userWalk m t v false fun level i => refCount (m level i) == 0

section Unmap

variable {k : Kernel} {pos : Pos} {t : Word} (process : Process k pos t)

include process

theorem lastRef_iff (v : Word) : lastRef k.mem t v = true ↔
    ∃ level3, node nav k.mem t (upperIdx v) = some level3 ∧
      mmuIsValid (k.mem level3 (leafIdx v)) = true ∧ refCount (k.mem level3 (leafIdx v)) = 0 := by
  rw [lastRef, userWalk_eq k pos process.layout t process.root]
  cases node nav k.mem t (upperIdx v) with
  | none => simp
  | some level3 => cases valid : mmuIsValid (k.mem level3 (leafIdx v)) <;> simp [valid]

-- Clearing one level-3 entry.
theorem Process.clear (level3 : Word) (i : Idx) (q : List Idx) (here : pos level3 = some q)
    (deep : q.length = 3) : Process (k.write level3 i 0) pos t where
  wf := (sameKernel_put k level3 i 0 (process.layout.inUse level3 q here).2).wf process.wf
  layout := process.layout.put level3 q i 0 here
    (fun c short _ => by omega) (fun upper _ => by omega)
  root := process.root

omit process in
theorem clear_walk (level3 : Word) (i : Idx) (path : List Idx) (p : Word)
    (short : path.length ≤ 4) (found : node nav (k.write level3 i 0).mem t path = some p) :
    node nav k.mem t path = some p := by
  have kept (a : Word) (j : Idx) (c : Word) (old : nav ((k.write level3 i 0).mem a j) = some c) :
      nav (k.mem a j) = some c ∧ (k.write level3 i 0).mem a j = k.mem a j := by
    by_cases here : a = level3 ∧ j = i
    · obtain ⟨rfl, rfl⟩ := here
      rw [Kernel.write_mem, put_same, nav_of_invalid _ isValid_zero] at old
      cases old
    · have away : a ≠ level3 ∨ j ≠ i := not_and_or.mp here
      rw [Kernel.write_mem, put_other _ _ _ _ _ _ away] at old ⊢
      exact ⟨old, rfl⟩
  induction path using List.reverseRecOn generalizing p with
  | nil => exact found
  | append_singleton s j ih =>
    have shorter : s.length ≤ 3 := by
      rw [List.length_append, List.length_singleton] at short
      omega
    obtain ⟨a, before⟩ := node_prefix_some nav _ t p s [j] found
    rw [node_concat_some nav _ t a s j before] at found
    rw [node_concat_some nav k.mem t a s j (ih a (by omega) before)]
    exact (kept a j p found).1

theorem Process.clear_lastRef (level3 : Word) (i : Idx) (q : List Idx) (here : pos level3 = some q)
    (deep : q.length = 3) (v : Word) (more : lastRef k.mem t v = false) :
    lastRef (k.write level3 i 0).mem t v = false := by
  by_contra last
  rw [Bool.not_eq_false, lastRef_iff (process.clear level3 i q here deep)] at last
  obtain ⟨table, walk, valid, zero⟩ := last
  have before := clear_walk level3 i (upperIdx v) table (by simp) walk
  have same : (k.write level3 i 0).mem table (leafIdx v) = k.mem table (leafIdx v) := by
    refine put_other _ _ _ _ _ _ ?_
    by_contra both
    push Not at both
    rw [both.1, both.2, Kernel.write_mem, put_same, isValid_zero] at valid
    cases valid
  rw [same] at valid zero
  have now := (lastRef_iff process v).mpr ⟨table, before, valid, zero⟩
  rw [more] at now
  cases now

theorem Owned.clear (owned : Owned k t) (level3 : Word) (i : Idx) (q : List Idx)
    (here : pos level3 = some q) : Owned (k.write level3 i 0) t := by
  have same := sameKernel_put k level3 i 0 (process.layout.inUse level3 q here).2
  have back (path : List Idx) (p : Word) (maps : Maps (k.write level3 i 0) t path p) :
      Maps k t path p :=
    ⟨maps.1, clear_walk level3 i path p (by rw [maps.1]) maps.2⟩
  exact ⟨fun path p maps => (same.marks p).mpr (owned.marks path p (back path p maps)),
    fun path path' p maps maps' => owned.once path path' p (back path p maps) (back path' p maps')⟩

/-- Unmapping a page that something else still counts clears its entry and frees nothing. -/
theorem munmapStep_shared (v : Word) (more : lastRef k.mem t v = false) :
    munmapStep k t v = .ok k ∨ ∃ level3, pos level3 = some (upperIdx v) ∧
      munmapStep k t v = .ok (k.write level3 (leafIdx v) 0) := by
  rcases memUserUnmapPage_cases k pos process.layout t process.root v with
    ⟨_, result⟩ | ⟨level3, walk, valid, ⟨zero, _⟩ | ⟨_, result⟩⟩
  · exact .inl (by simp [munmapStep, result])
  · have last := (lastRef_iff process v).mpr ⟨level3, walk, valid, zero⟩
    rw [more] at last
    cases last
  · have here := layout_node k pos process.layout t process.root (upperIdx v) level3 (by simp) walk
    exact .inr ⟨level3, here, by simp [munmapStep, result]⟩

end Unmap

theorem munmapLoop_owned (t start : Word) (pos : Pos) (count : Nat) :
    ∀ (k : Kernel) (j : Nat), Process k pos t → Owned k t →
      (∀ i, j ≤ i → i < j + count → lastRef k.mem t (pageAt start i) = false) →
      ∃ k', munmapLoop t start k j count = .ok k' ∧ Process k' pos t ∧ Owned k' t := by
  induction count with
  | zero => exact fun k j process owned _ => ⟨k, rfl, process, owned⟩
  | succ count ih =>
    intro k j process owned more
    rcases munmapStep_shared process (pageAt start j) (more j le_rfl (by omega)) with
      result | ⟨level3, here, result⟩
    · rw [munmapLoop, result]
      exact ih k (j + 1) process owned fun i low high => more i (by omega) (by omega)
    · rw [munmapLoop, result]
      exact ih _ (j + 1) (process.clear level3 _ _ here rfl)
        (owned.clear process level3 _ _ here)
        fun i low high => process.clear_lastRef level3 _ _ here rfl _ (more i (by omega) (by omega))

inductive MemCall where
  | mmap (addr len : Word) (prot flags : Int)
  | munmap (addr len : Word)
deriving DecidableEq, Repr

-- A call that returns to the process.
def memStep (t : Word) (k : Kernel) (call : MemCall) (k' : Kernel) : Prop :=
  match call with
  | .mmap addr len prot flags =>
    ∃ fuel ret, sysMmap fuel k t addr len prot flags = some (.ok (ret, k'))
  | .munmap addr len => ∃ ret, sysMunmap k t addr len = .ok (ret, k')

def MemCall.Anonymous (call : MemCall) : Prop :=
  ∀ addr len prot, call ≠ .mmap addr len prot mapDeviceFlag

/-- The pages that sys_munmap is given are unmapped or counted elsewhere too, and memory does not
give out between two tables of a page that sys_mmap maps. -/
def MemCall.Harmless (k : Kernel) (t : Word) : MemCall → Prop
  | .mmap addr len _ _ => ∀ fuel vaddr,
      memUserFindEmpty k.mem t (memSizeToPages len).toNat fuel (anonymousHint addr) = some vaddr →
        ¬ RangeRunsDry k t vaddr 1 (memSizeToPages len).toNat
  | .munmap addr len => ∀ i, i < munmapCount addr len →
      lastRef k.mem t (pageAt (alignDown addr) i) = false

theorem sysMmap_owned (fuel : Nat) (k k' : Kernel) (pos : Pos) (t addr len ret : Word)
    (prot flags : Int) (process : Process k pos t) (owned : Owned k t)
    (anonymous : flags ≠ mapDeviceFlag) (harmless : MemCall.Harmless k t (.mmap addr len prot flags))
    (taken : sysMmap fuel k t addr len prot flags = some (.ok (ret, k'))) :
    ∃ pos', Process k' pos' t ∧ Owned k' t := by
  have stay (r : Word) (same : some (Except.ok (ε := Halt) (r, k)) = some (.ok (ret, k'))) :
      ∃ pos', Process k' pos' t ∧ Owned k' t := by
    simp only [Option.some.injEq, Except.ok.injEq, Prod.mk.injEq] at same
    exact same.2 ▸ ⟨pos, process, owned⟩
  unfold sysMmap at taken
  split_ifs at taken with empty anon
  · exact stay _ taken
  · cases known : protPerm prot with
    | none => exact stay _ (by simpa [known] using taken)
    | some perm =>
      simp only [known, mapAnonymous] at taken
      cases found : memUserFindEmpty k.mem t (memSizeToPages len).toNat fuel (anonymousHint addr) with
      | none => simp [found] at taken
      | some vaddr =>
        simp only [found] at taken
        split_ifs at taken with null
        · exact stay _ taken
        · obtain ⟨pattr, attr⟩ := protPerm_attr prot perm known
          obtain ⟨ret', k'', pos', result, process', owned'⟩ := anonymousLoop_owned
            (harmless fuel vaddr found) perm pattr attr _ k pos 0 process owned (.start k t vaddr 1)
            (Nat.zero_add _)
          rw [result] at taken
          simp only [Option.some.injEq, Except.ok.injEq, Prod.mk.injEq] at taken
          exact taken.2 ▸ ⟨pos', process', owned'⟩
  · cases known : protPerm prot with
    | none => exact stay _ (by simpa [known] using taken)
    | some perm => exact stay _ (by simpa [known, anonymous] using taken)

theorem sysMunmap_owned (k k' : Kernel) (pos : Pos) (t addr len ret : Word)
    (process : Process k pos t) (owned : Owned k t)
    (harmless : MemCall.Harmless k t (.munmap addr len))
    (taken : sysMunmap k t addr len = .ok (ret, k')) : Process k' pos t ∧ Owned k' t := by
  unfold sysMunmap at taken
  split_ifs at taken with empty
  · simp only [Except.ok.injEq, Prod.mk.injEq] at taken
    exact taken.2 ▸ ⟨process, owned⟩
  · obtain ⟨k'', result, process', owned'⟩ := munmapLoop_owned t (alignDown addr) pos
      (munmapCount addr len) k 0 process owned fun i _ high => harmless i (by omega)
    rw [result] at taken
    simp only [Except.map, Except.ok.injEq, Prod.mk.injEq] at taken
    exact taken.2 ▸ ⟨process', owned'⟩

/-- As long as sys_munmap is only given pages that are counted elsewhere and no sys_mmap runs out of
memory between two tables, a process maps only marked pages, and none of them twice. -/
theorem mmap_munmap_pagesOwned (k k' : Kernel) (pos : Pos) (t : Word) (process : Process k pos t)
    (owned : Owned k t)
    (run : Run (memStep t) (fun k call => call.Anonymous ∧ call.Harmless k t) k k') :
    PagesOwned k' t := by
  have reached : ∃ pos', Process k' pos' t ∧ Owned k' t := by
    refine run.invariant (fun k => ∃ pos', Process k pos' t ∧ Owned k t) ⟨pos, process, owned⟩ ?_
    rintro k call k' ⟨pos, process, owned⟩ ⟨anonymous, harmless⟩ step
    cases call with
    | mmap addr len prot flags =>
      obtain ⟨fuel, ret, taken⟩ := step
      have notDevice : flags ≠ mapDeviceFlag := by
        rintro rfl
        exact anonymous addr len prot rfl
      exact sysMmap_owned fuel k k' pos t addr len ret prot flags process owned notDevice harmless taken
    | munmap addr len =>
      obtain ⟨ret, taken⟩ := step
      exact ⟨pos, sysMunmap_owned k k' pos t addr len ret process owned harmless taken⟩
  obtain ⟨_, _, owned'⟩ := reached
  exact owned'.pages

theorem ok_of_any {α ε : Type} (result : Except ε α) (check : α → Bool)
    (passed : result.toOption.any check = true) : ∃ a, result = .ok a ∧ check a = true := by
  cases result with
  | error _ => cases passed
  | ok a => exact ⟨a, rfl, passed⟩

def onePageTables : Tables := [(4, []), (5, [0]), (6, [0, 0]), (7, [0, 0, 1])]

-- Pool page 8 mapped at 0x200000, with reference field `ref`.
def onePage (ref : Word) : List Cell :=
  [⟨4, 0, tableEntry (poolVa 5)⟩, ⟨5, 0, tableEntry (poolVa 6)⟩, ⟨6, 1, tableEntry (poolVa 7)⟩,
    ⟨7, 0, setRef (userLeaf (poolPage 8) (attApRwRw ||| attPxnNoexec ||| attUxnNoexec)) ref⟩]

theorem mmap_munmap_unmarked : ¬ ∀ (k k' : Kernel) (pos : Pos) (t : Word), Process k pos t →
    Owned k t → Run (memStep t) (fun _ call => call.Anonymous) k k' → PagesOwned k' t := by
  intro claim
  have fits : Fits (onePage 0) [] onePageTables := by decide +kernel
  have root : posOf onePageTables (poolVa 4) = some [] := by decide +kernel
  obtain ⟨⟨ret, k'⟩, taken, check⟩ := ok_of_any
    (sysMunmap (machine (onePage 0) []) (poolVa 4) 0x200000 0x1000)
    (fun r => !marked r.2.memoryMap 8 && node nav r.2.mem (poolVa 4) [0, 0, 1, 0] == some (poolVa 8))
    (by decide +kernel)
  simp only [Bool.and_eq_true, Bool.not_eq_true', beq_iff_eq] at check
  have owned := claim _ k' _ (poolVa 4) (machine_process _ _ _ fits _ root)
    (machine_owned _ _ _ fits _ root (by decide +kernel))
    (.next _ _ (.munmap 0x200000 0x1000) .start (fun _ _ _ impossible => by cases impossible)
      ⟨ret, taken⟩)
  have set := owned.1 [0, 0, 1, 0] (poolVa 8) 8 ⟨rfl, check.2⟩ (by decide) rfl
  rw [check.1] at set
  cases set

theorem mmap_munmap_pagesOwned_shared :
    ∃ k', Run (memStep (poolVa 4))
      (fun k call => call.Anonymous ∧ call.Harmless k (poolVa 4)) (machine (onePage 1) []) k' ∧
      node nav k'.mem (poolVa 4) [0, 0, 1, 0] = none ∧ PagesOwned k' (poolVa 4) := by
  have fits : Fits (onePage 1) [] onePageTables := by decide +kernel
  have root : posOf onePageTables (poolVa 4) = some [] := by decide +kernel
  obtain ⟨⟨ret, k'⟩, taken, check⟩ := ok_of_any
    (sysMunmap (machine (onePage 1) []) (poolVa 4) 0x200000 0x1000)
    (fun r => node nav r.2.mem (poolVa 4) [0, 0, 1, 0] == none) (by decide +kernel)
  have run : Run (memStep (poolVa 4)) (fun k call => call.Anonymous ∧ call.Harmless k (poolVa 4))
      (machine (onePage 1) []) k' := by
    refine .next _ _ (.munmap 0x200000 0x1000) .start
      ⟨(fun _ _ _ impossible => by cases impossible), ?_⟩
      ⟨ret, taken⟩
    have one : munmapCount 0x200000 0x1000 = 1 := by decide +kernel
    intro i low
    rw [one] at low
    obtain rfl : i = 0 := by omega
    decide +kernel
  exact ⟨k', run, by simpa using check, mmap_munmap_pagesOwned _ k' _ _
    (machine_process _ _ _ fits _ root)
    (machine_owned _ _ _ fits _ root (by decide +kernel)) run⟩

end Anthill
