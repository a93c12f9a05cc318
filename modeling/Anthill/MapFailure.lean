import Anthill.Lockstep
import Anthill.MapInsert

set_option autoImplicit false

namespace Anthill

open Radix

-- The call has given this page back to the pool.
def Returned (k k' : Kernel) (page : Word) : Prop := .freed page ∈ k'.trace.drop k.trace.length

/-- A call has changed no table above level 3, no valid entry of the tables names a page that it gave back,
and the pool is as it was. -/
structure NoTrace (k k' : Kernel) (t : Word) : Prop where
  entries : ∀ q p i, q.length < 3 → node nav k.mem t q = some p → k'.mem p i = k.mem p i
  links : ∀ q p i, q.length ≤ 3 → node nav k'.mem t q = some p → mmuIsValid (k'.mem p i) = true →
    ¬ Returned k k' (k'.mem p i &&& vaddrMask)
  pool : ∀ n, n < managed → marked k'.memoryMap n = marked k.memoryMap n

theorem NoTrace.refl (k : Kernel) (t : Word) : NoTrace k k t where
  entries _ _ _ _ _ := rfl
  links _ p i _ _ _ returned := by
    unfold Returned at returned
    rw [List.drop_length] at returned
    cases returned
  pool _ _ := rfl

-- The pages that the call has taken so far: all different, and each can be given back.
def Held (k : Kernel) (pages : List Word) : Prop := pages.Nodup ∧ ∀ page, page ∈ pages → InUse k page ∧ Backed k page

theorem Held.nil (k : Kernel) : Held k [] := ⟨List.nodup_nil, fun _ listed => by cases listed⟩

theorem Held.link {k k₁ : Kernel} {pages : List Word} {va level : Word} {i : Idx} (held : Held k pages)
    (allocated : Allocated k k₁ va) (same : SameKernel k₁ (linkTable k₁ va level i)) :
    Held (linkTable k₁ va level i) (pages ++ [va]) := by
  constructor
  · rw [List.nodup_append]
    refine ⟨held.1, List.nodup_singleton va, fun page listed other single => ?_⟩
    rw [List.mem_singleton.mp single]
    rintro rfl
    exact not_free_of_marked k page (held.2 page listed).1.1 allocated.wasFree
  · intro page listed
    rw [same.inUse]
    rcases List.mem_append.mp listed with old | new
    · obtain ⟨used, backed⟩ := held.2 page old
      exact ⟨(allocated.keeps page used).1, same.backs (allocated.backs page backed)⟩
    · rw [List.mem_singleton.mp new]
      exact ⟨allocated.inUse, same.backs allocated.backed⟩

theorem Held.rest {k k₁ : Kernel} {page : Word} {pages : List Word} (held : Held k (page :: pages))
    (freed : Freed k k₁ page) : Held k₁ pages := by
  obtain ⟨apart, distinct⟩ := List.nodup_cons.mp held.1
  refine ⟨distinct, fun other listed => ?_⟩
  obtain ⟨used, backed⟩ := held.2 other (List.mem_cons_of_mem page listed)
  have away : other ≠ page := by
    rintro rfl
    exact apart listed
  exact ⟨(freed.inUse other).mpr ⟨used, away⟩, freed.backed other backed away⟩

/-- Giving the pages back works, and leaves what the user tables hold. -/
theorem freeKernelPages_held (pages : List Word) (k : Kernel) (wf : KernelWf k) (held : Held k pages) :
    ∃ k', freeKernelPages pages k = .ok k' ∧ ∀ p, ¬ KernelTable k p → k'.mem p = k.mem p := by
  induction pages generalizing k with
  | nil => exact ⟨k, rfl, fun _ _ => rfl⟩
  | cons page pages ih =>
    obtain ⟨used, backed⟩ := held.2 page List.mem_cons_self
    obtain ⟨k₁, done, freed⟩ := memKernelFreePage_spec k wf page backed used.2
    obtain ⟨k', result, kept⟩ := ih k₁ freed.wf (held.rest freed)
    refine ⟨k', by rw [freeKernelPages, done]; exact result, fun p ours => ?_⟩
    rw [kept p (fun table => ours ((freed.tables p).mp table)), freed.content p ours]

section Levels

variable {k₀ : Kernel} {pos₀ : Pos} {t : Word}

/-- Where the loop of mem_user_map_page stops: the pool is empty, and every table linked so far is held. -/
structure Stuck (k₀ k : Kernel) (pos₀ : Pos) (t : Word) (pages : List Word) : Prop where
  wf : KernelWf k
  held : Held k pages
  empty : memKernelAllocPage k .rw = (⟨0, .memOom⟩, k)
  unchanged : pages = [] → k = k₀
  linked : pages ≠ [] → ∃ r a i, r.length < 3 ∧ node nav k₀.mem t r = some a ∧ mmuIsValid (k₀.mem a i) = false ∧
    mmuIsValid (k.mem a i) = true ∧ ¬ KernelTable k a

/-- The pages that a map has taken for tables so far, told by what it started from. -/
structure Tracked (k₀ k : Kernel) (pages : List Word) : Prop where
  wf : KernelWf k₀
  taken : SameKernel (skipPages pages.length k₀) k
  new : ∀ page, page ∈ pages → Free k₀ page
  grows : ∀ p, Marked k p → Marked k₀ p ∨ p ∈ pages ∨ (KernelTable k p ∧ ¬ KernelTable k₀ p)

theorem Tracked.start (k : Kernel) (wf : KernelWf k) : Tracked k k [] :=
  ⟨wf, .refl k, fun _ listed => absurd listed List.not_mem_nil, fun _ => .inl⟩

theorem Tracked.link {k k₁ : Kernel} {pages : List Word} {va level : Word} {i : Idx} (tracked : Tracked k₀ k pages)
    (grew : Grew k₀ k) (taken : memKernelAllocPage k .rw = (⟨va, .ok⟩, k₁)) (allocated : Allocated k k₁ va)
    (same : SameKernel k₁ (linkTable k₁ va level i)) : Tracked k₀ (linkTable k₁ va level i) (pages ++ [va]) where
  wf := tracked.wf
  taken := by
    have next := (tracked.taken.alloc (skipPages_wf _ k₀ tracked.wf) .rw).2
    rw [taken] at next
    rw [List.length_append, List.length_singleton, skipPages_add]
    exact next.trans same
  new page listed := by
    rcases List.mem_append.mp listed with old | new
    · exact tracked.new page old
    · rw [List.mem_singleton.mp new]
      exact grew.shrinks va allocated.wasFree
  grows p marked := by
    rw [List.mem_append, List.mem_singleton, same.kernelTable]
    rcases allocated.grows p ((same.marks p).mp marked) with old | here | ⟨table, new⟩
    · rcases tracked.grows p old with old | listed | ⟨table, new⟩
      · exact .inl old
      · exact .inr (.inl (.inl listed))
      · exact .inr (.inr ⟨allocated.tables p table, new⟩)
    · exact .inr (.inl (.inr here))
    · exact .inr (.inr ⟨table, fun old => new (grew.tables p old)⟩)

theorem Filling.stuck {k : Kernel} {pos : Pos} {gap : Gap} {q : List Idx} {level : Word} {pages : List Word}
    (filling : Filling k₀ k pos₀ pos gap t q level) (short : q.length ≤ 3) (held : Held k pages)
    (ghost : gap = none ↔ pages = []) (empty : memKernelAllocPage k .rw = (⟨0, .memOom⟩, k)) :
    Stuck k₀ k pos₀ t pages where
  wf := filling.wf
  held := held
  empty := empty
  unchanged none := (filling.intact (ghost.mpr none)).1
  linked some := by
    cases new : gap with
    | none => exact absurd (ghost.mp new) some
    | some found =>
      obtain ⟨a, i⟩ := found
      obtain ⟨r, here, walk, before, invalid, links⟩ := filling.hole a i new
      have longer := before.length_le
      rw [List.length_append, List.length_singleton] at longer
      exact ⟨r, a, i, by omega, walk, invalid, links.1, (filling.layout.inUse a r (filling.keepsPos a r here)).2⟩

-- Where the loop stops it has filled part of the path, and the pool gives it no page for the next table.
theorem mapLevels_stops (rootT : pos₀ t = some []) (idx : List Idx) (early : Except Halt (KernErr × Kernel)) :
    ∀ (k : Kernel) (pos : Pos) (gap : Gap) (q : List Idx) (level : Word) (pages : List Word),
      Filling k₀ k pos₀ pos gap t q level → q.length + idx.length = 3 → Held k pages → (gap = none ↔ pages = []) →
      Tracked k₀ k pages → mapLevels k level pages idx = .error early →
      ∃ k' pos' gap' q' level' pages', early = mapRollback k' pages' .memOom ∧
        Filling k₀ k' pos₀ pos' gap' t q' level' ∧ q'.length < 3 ∧ Held k' pages' ∧ (gap' = none ↔ pages' = []) ∧
        Tracked k₀ k' pages' ∧ memKernelAllocPage k' .rw = (⟨0, .memOom⟩, k') := by
  induction idx with
  | nil =>
    intro k pos gap q level pages _ _ _ _ _ result
    cases result
  | cons i idx ih =>
    intro k pos gap q level pages filling depth held ghost tracked result
    rw [List.length_cons] at depth
    have deeper : (q ++ [i]).length + idx.length = 3 := by
      rw [List.length_append, List.length_singleton]
      omega
    rw [mapLevels] at result
    cases valid : mmuIsValid (k.mem level i) with
    | true =>
      rw [mapStep_valid k level pages i valid] at result
      exact ih k pos gap (q ++ [i]) _ pages (filling.follow (by omega) i valid) deeper held ghost tracked result
    | false =>
      rcases memKernelAllocPage_rw k filling.wf with oom | ⟨va, k₁, taken, allocated⟩
      · rw [mapStep_oom k level pages i valid oom] at result
        cases result
        exact ⟨k, pos, gap, q, level, pages, rfl, filling, by omega, held, ghost, tracked, oom⟩
      · rw [mapStep_link k k₁ level va pages i valid allocated.isPage taken] at result
        have same := linkTable_same (i := i) filling.layout filling.here allocated
        have ghost' : gap.fill level i = none ↔ pages ++ [va] = [] := by
          cases gap <;> simp [Gap.fill]
        exact ih _ _ _ _ va (pages ++ [va]) (filling.link rootT (by omega) i valid allocated) deeper
          (held.link allocated same) ghost' (tracked.link filling.grew taken allocated same) result

theorem mapLevels_stuck {k : Kernel} {pos : Pos} (wf : KernelWf k) (layout : UserLayout k pos) (rootT : pos t = some [])
    (idx : List Idx) (three : idx.length = 3) (early : Except Halt (KernErr × Kernel))
    (result : mapLevels k t [] idx = .error early) :
    ∃ k' pages', early = mapRollback k' pages' .memOom ∧ Stuck k k' pos t pages' := by
  obtain ⟨k', _, _, _, _, pages', stops, filling, short, held, ghost, _, empty⟩ := mapLevels_stops rootT idx early k pos none
    [] t [] (.start k pos t wf layout rootT) (by simpa using three) (.nil k) (by simp) (.start k wf) result
  exact ⟨k', pages', stops, filling.stuck (by omega) held ghost empty⟩

end Levels

section Failure

variable {k : Kernel} {pos : Pos} {t v paddr : Word} {perm : MemPerm} {attr : MemAttr} {pattr : Word}
  (wf : KernelWf k) (layout : UserLayout k pos) (root : pos t = some []) (known : userAttr perm = some pattr)

include wf layout root known

/-- When memory runs out between two tables, the entry that links the first of them stays. -/
theorem memUserMapPage_leaves (dry : RunsDry k t v) : ∃ k', memUserMapPage k t v paddr perm attr = .ok (.memOom, k') ∧
    ∃ r a i, r.length < 3 ∧ node nav k.mem t r = some a ∧ k'.mem a i ≠ k.mem a i := by
  have start := Filling.start k pos t wf layout root
  cases levels : mapLevels k t [] (upperIdx v) with
  | ok found =>
    exfalso
    rcases mapLevels_spec root (upperIdx v) k pos none [] t [] start rfl (by simp) with
      ⟨_, _, k', _, _, result, _, _, left⟩ | ⟨k', pages, result, _⟩
    · have all := left 0
      rw [Nat.add_zero, dry.2] at all
      cases all
    · rw [result] at levels
      cases levels
  | error early =>
    obtain ⟨k₁, pages, rfl, stuck⟩ := mapLevels_stuck wf layout root (upperIdx v) rfl early levels
    obtain ⟨k', freed, kept⟩ := freeKernelPages_held pages k₁ stuck.wf stuck.held
    have some : pages ≠ [] := by
      intro none
      have one := canAlloc_oom k₁ 0 stuck.empty
      rw [stuck.unchanged none, dry.1] at one
      cases one
    obtain ⟨r, a, i, upper, walk, invalid, valid, ours⟩ := stuck.linked some
    refine ⟨k', ?_, r, a, i, upper, walk, fun same => ?_⟩
    · rw [memUserMapPage, known]
      simp only [levels, mapRollback, freed, Except.map]
    · rw [← same, kept a ours, valid] at invalid
      cases invalid

end Failure

/-- A mapping that fails leaves no trace exactly when its permission is not one that the code knows, or memory
does not run out between two of the tables it needs. -/
theorem failedMap_traceless (k : Kernel) (t v paddr : Word) (perm : MemPerm) (attr : MemAttr)
    (tree : TableTree k t) :
    (∀ err k', memUserMapPage k t v paddr perm attr = .ok (err, k') → err ≠ .ok → NoTrace k k' t) ↔
      (userAttr perm = none ∨ ¬ RunsDry k t v) := by
  obtain ⟨wf, pos, layout, root⟩ := tree
  cases known : userAttr perm with
  | none =>
    refine iff_of_true (fun err k' result _ => ?_) (.inl rfl)
    rw [memUserMapPage, known] at result
    cases result
    exact .refl k t
  | some pattr =>
    constructor
    · refine fun claim => .inr fun dry => ?_
      obtain ⟨k', result, r, a, i, upper, walk, changed⟩ :=
        @memUserMapPage_leaves k pos t v paddr perm attr pattr wf layout root known dry
      exact changed ((claim .memOom k' result (by decide)).entries r a i upper walk)
    · rintro (impossible | enough) err k' result failed
      · cases impossible
      rcases memUserMapPage_spec k pos t wf layout root v paddr perm attr pattr known with
        ⟨_, _, _, _, same, _⟩ | ⟨same, _⟩ | same | ⟨dry, _⟩
      · rw [same] at result
        cases result
        exact absurd rfl failed
      · rw [same] at result
        cases result
        exact .refl k t
      · rw [same] at result
        cases result
        exact .refl k t
      · exact absurd dry enough

theorem failedMap_traceless_mapped :
    NoTrace (machine (onePage 0) [20]) (machine (onePage 0) [20]) (poolVa 4) ∧
      memUserMapPage (machine (onePage 0) [20]) (poolVa 4) 0x200000 (poolPage 9) .rw .norm =
        .ok (.memExs, machine (onePage 0) [20]) := by
  have tree := onePage_tree 0 [20] (by decide +kernel)
  have exists_ : memUserMapPage (machine (onePage 0) [20]) (poolVa 4) 0x200000 (poolPage 9) .rw .norm =
      .ok (.memExs, machine (onePage 0) [20]) := memUserMapPage_exists tree _ rfl (by decide +kernel)
  refine ⟨(failedMap_traceless _ _ 0x200000 (poolPage 9) .rw .norm tree).mpr (.inr fun dry => ?_) _ _ exists_
    (by decide), exists_⟩
  exact absurd dry.2 (by decide +kernel)

/-- With one page left and two tables missing, the table that was linked stays in place after it was freed. -/
theorem failedMap_links_freed : ¬ ∀ (k k' : Kernel) (t v paddr : Word) (perm : MemPerm) (attr : MemAttr)
    (err : KernErr), TableTree k t → memUserMapPage k t v paddr perm attr = .ok (err, k') → err ≠ .ok →
    NoTrace k k' t := by
  intro claim
  have tree := onePage_tree 0 [20] (by decide +kernel)
  obtain ⟨⟨err, k'⟩, result, check⟩ := ok_of_any
    (memUserMapPage (machine (onePage 0) [20]) (poolVa 4) 0x40000000 (poolPage 9) .rw .norm)
    (fun r => decide (r.1 = .memOom ∧ r.2.mem (poolVa 5) 1 = tableEntry (poolVa 20))) (by decide +kernel)
  obtain ⟨rfl, linked⟩ := of_decide_eq_true check
  have kept := (claim _ k' _ _ _ .rw .norm _ tree result (by decide)).entries [0] (poolVa 5) 1 (by decide)
    (by decide +kernel)
  rw [linked] at kept
  exact absurd kept (by decide +kernel)

end Anthill
