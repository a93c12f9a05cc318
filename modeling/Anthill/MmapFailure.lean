import Anthill.MapFailure
import Anthill.MmapPromise

set_option autoImplicit false

namespace Anthill

open Radix FirstFit

/-- Nothing is mapped, unmapped or mapped anew, and the pool is as it was. -/
structure Untouched (k k' : Kernel) (t : Word) : Prop where
  entries : ∀ u, userEntry k'.mem t u = userEntry k.mem t u
  pool : ∀ n, n < managed → marked k'.memoryMap n = marked k.memoryMap n

theorem Untouched.refl (k : Kernel) (t : Word) : Untouched k k t := ⟨fun _ => rfl, fun _ _ => rfl⟩

/-- No page that the pool can still hand out needs a new table of the kernel's own. -/
def TablesReady (k : Kernel) : Prop := ∀ count p, KernelTable (skipPages count k) p → KernelTable k p

theorem marked_iff (k k' : Kernel) : (∀ n, n < managed → marked k'.memoryMap n = marked k.memoryMap n) ↔
    ∀ p, Marked k' p ↔ Marked k p := by
  constructor
  · intro same p
    constructor
    · rintro ⟨n, inside, rfl, set⟩
      exact ⟨n, inside, rfl, (same n inside).symm.trans set⟩
    · rintro ⟨n, inside, rfl, set⟩
      exact ⟨n, inside, rfl, (same n inside).trans set⟩
  · intro same n inside
    have here (k : Kernel) : Marked k (poolVa n) ↔ marked k.memoryMap n = true := by
      refine ⟨?_, fun set => ⟨n, inside, rfl, set⟩⟩
      rintro ⟨m, insideM, named, set⟩
      rwa [poolVa_inj n m inside insideM named]
    rw [Bool.eq_iff_iff, ← here, ← here]
    exact same (poolVa n)

theorem alloc_newTable (k : Kernel) (wf : KernelWf k) (p : Word) (table : KernelTable (memKernelAllocPage k .rw).2 p) :
    KernelTable k p ∨ Free k p := by
  rcases memKernelAllocPage_rw k wf with oom | ⟨va, k₁, taken, _⟩
  · rw [oom] at table
    exact .inl table
  · rw [taken] at table
    exact alloc_kernelTable wf taken p table

theorem skipPages_tables (count : Nat) (k : Kernel) (wf : KernelWf k) (p : Word) :
    (KernelTable k p → KernelTable (skipPages count k) p) ∧
      (KernelTable (skipPages count k) p → KernelTable k p ∨ Free k p) := by
  induction count generalizing k with
  | zero => exact ⟨id, .inl⟩
  | succ count ih =>
    obtain ⟨keeps, only⟩ := ih _ (alloc_wf k wf)
    have shrinks : Free (memKernelAllocPage k .rw).2 p → Free k p := by
      rcases memKernelAllocPage_rw k wf with oom | ⟨va, k₁, taken, allocated⟩
      · rw [oom]
        exact id
      · rw [taken]
        exact allocated.shrinks p
    have tables : KernelTable k p → KernelTable (memKernelAllocPage k .rw).2 p := by
      rcases memKernelAllocPage_rw k wf with oom | ⟨va, k₁, taken, allocated⟩
      · rw [oom]
        exact id
      · rw [taken]
        exact allocated.tables p
    exact ⟨fun table => keeps (tables table), fun table => (only table).elim (alloc_newTable k wf p) fun free =>
      .inr (shrinks free)⟩

theorem skipPages_empty (count : Nat) (k : Kernel) (empty : memKernelAllocPage k .rw = (⟨0, .memOom⟩, k)) :
    skipPages count k = k := by
  induction count with
  | zero => rfl
  | succ count ih => rw [skipPages, empty, ih]

theorem freeKernelPages_marks (pages : List Word) : ∀ (k k' : Kernel), KernelWf k → Held k pages →
    freeKernelPages pages k = .ok k' → ∀ p, Marked k' p ↔ Marked k p ∧ p ∉ pages := by
  induction pages with
  | nil =>
    intro k k' _ _ freed p
    cases freed
    simp
  | cons page pages ih =>
    intro k k' wf held freed p
    obtain ⟨used, backed⟩ := held.2 page List.mem_cons_self
    obtain ⟨k₁, done, one⟩ := memKernelFreePage_spec k wf page backed used.2
    rw [freeKernelPages, done] at freed
    rw [ih k₁ k' one.wf (held.rest one) freed p, one.marks, List.mem_cons, not_or, and_assoc]

theorem marked_of_shrinks {k k' : Kernel} (shrinks : ∀ p, Free k' p → Free k p) (p : Word) (set : Marked k p) :
    Marked k' p := by
  obtain ⟨n, inside, rfl, taken⟩ := set
  refine ⟨n, inside, rfl, ?_⟩
  by_contra clear
  obtain ⟨m, _, named, free⟩ := shrinks _ ⟨n, inside, rfl, Bool.eq_false_iff.mpr clear⟩
  exact not_free_of_marked k (poolVa n) ⟨n, inside, rfl, taken⟩ ⟨m, ‹_›, named, free⟩

section Tracked

variable {k k₁ : Kernel} {pages : List Word} (tracked : Tracked k k₁ pages)

include tracked

theorem Tracked.tables (p : Word) (table : KernelTable k₁ p) : KernelTable k p ∨ Free k p :=
  (skipPages_tables _ k tracked.wf p).2 ((tracked.taken.kernelTable p).mp table)

-- The pool is empty now, so the tables that the kernel has now are all that it can come to need.
theorem Tracked.ready_iff (empty : memKernelAllocPage k₁ .rw = (⟨0, .memOom⟩, k₁)) :
    TablesReady k ↔ ∀ p, KernelTable k₁ p → KernelTable k p := by
  have wf := skipPages_wf pages.length k tracked.wf
  have last : memKernelAllocPage (skipPages pages.length k) .rw = (⟨0, .memOom⟩, skipPages pages.length k) := by
    have same := (tracked.taken.alloc wf .rw).1
    rw [empty] at same
    rcases memKernelAllocPage_rw _ wf with oom | ⟨_, _, taken, _⟩
    · exact oom
    · rw [taken] at same
      cases same
  constructor
  · exact fun ready p table => ready _ p ((tracked.taken.kernelTable p).mp table)
  · intro only count p table
    refine only p ((tracked.taken.kernelTable p).mpr ?_)
    rcases Nat.le_total count pages.length with early | late
    · obtain ⟨rest, whole⟩ := Nat.exists_eq_add_of_le early
      rw [whole, skipPages_add]
      exact (skipPages_tables rest _ (skipPages_wf count k tracked.wf) p).1 table
    · obtain ⟨rest, rfl⟩ := Nat.exists_eq_add_of_le late
      rwa [skipPages_add, skipPages_empty rest _ last] at table

end Tracked

section Map

variable {k k' : Kernel} {pos : Pos} {t v paddr : Word} {perm : MemPerm} {attr : MemAttr} {err : KernErr} {pattr : Word}
  (process : Process k pos t) (known : userAttr perm = some pattr)
  (result : memUserMapPage k t v paddr perm attr = .ok (err, k')) (failed : err ≠ .ok)

include process

-- New tables are blank, so no walk that ends before the last of them comes to an entry.
theorem Filling.entries {k₁ : Kernel} {pos₁ : Pos} {gap : Gap} {q : List Idx} {level : Word}
    (filling : Filling k k₁ pos pos₁ gap t q level) (short : q.length ≤ 3) (u : Word) :
    userEntry k₁.mem t u = userEntry k.mem t u := by
  cases new : gap with
  | none => rw [(filling.intact new).1]
  | some hole =>
    obtain ⟨a, i⟩ := hole
    have filled : Filled k k₁ pos pos₁ (some (a, i)) t q := new ▸ filling.toFilled
    have process₁ : Process k₁ pos₁ t := ⟨filled.wf, filled.layout, filled.keepsPos t [] process.root⟩
    by_cases used : userEntry k.mem t u = 0
    · obtain ⟨r, at', walk, _, was, _⟩ := filled.hole a i rfl
      rw [used, ← process₁.lacks_entry]
      cases found : node nav k₁.mem t (mmuGetTableIdx u) with
      | none => rfl
      | some c =>
        by_cases past : r ++ [i] <+: mmuGetTableIdx u
        · have onPath := filled.node_path process.layout process.root r at' walk _ (by simp) c past found
          have long := onPath.length_le
          rw [mmuGetTableIdx_length] at long
          omega
        · rw [filled.node_other process.layout r at' t process.root _ (by simp) fun both => past both.1] at found
          rw [(process.lacks_entry u).mpr used] at found
          cases found
    · exact filled.entry_old process u used

include known result failed

/-- A map that fails has done nothing, or it has given back the tables that it linked when the pool was empty. -/
theorem memUserMapPage_fails : (k' = k ∧ canAlloc (missingTables k.mem t (upperIdx v)) k = true) ∨
    ∃ k₁ pos₁ gap q level pages, Filling k k₁ pos pos₁ gap t q level ∧ q.length < 3 ∧ Held k₁ pages ∧
      Tracked k k₁ pages ∧ memKernelAllocPage k₁ .rw = (⟨0, .memOom⟩, k₁) ∧ freeKernelPages pages k₁ = .ok k' := by
  have start := Filling.start k pos t process.wf process.layout process.root
  cases levels : mapLevels k t [] (upperIdx v) with
  | error early =>
    obtain ⟨k₁, pos₁, gap, q, level, pages, rfl, filling, short, held, _, tracked, empty⟩ :=
      mapLevels_stops process.root (upperIdx v) early k pos none [] t [] start rfl (.nil k) (by simp)
        (.start k process.wf) levels
    refine .inr ⟨k₁, pos₁, gap, q, level, pages, filling, short, held, tracked, empty, ?_⟩
    rw [memUserMapPage, known] at result
    simp only [levels, mapRollback] at result
    cases freed : freeKernelPages pages k₁ with
    | error halt =>
      rw [freed] at result
      cases result
    | ok k₂ =>
      rw [freed] at result
      cases result
      rfl
  | ok reached =>
    have enough : canAlloc (missingTables k.mem t (upperIdx v)) k = true := by
      rcases mapLevels_spec process.root (upperIdx v) k pos none [] t [] start rfl (by simp) with
        ⟨_, _, k₂, _, _, _, _, _, left⟩ | ⟨_, _, stops, _⟩
      · rw [← Nat.add_zero (missingTables _ _ _), left 0]
        rfl
      · rw [levels] at stops
        cases stops
    rcases memUserMapPage_spec k pos t process.wf process.layout process.root v paddr perm attr pattr known with
      ⟨_, _, _, _, same, _⟩ | ⟨same, _⟩ | same | ⟨dry, _⟩
    · rw [result] at same
      exact absurd (Prod.mk.inj (Except.ok.inj same)).1 failed
    · rw [result] at same
      exact .inl ⟨(Prod.mk.inj (Except.ok.inj same)).2, enough⟩
    · rw [result] at same
      exact .inl ⟨(Prod.mk.inj (Except.ok.inj same)).2, enough⟩
    · rw [dry.2] at enough
      cases enough

/-- It leaves every entry, and no page of the pool is given back that was taken before. -/
theorem failedMap_keeps : (∀ u, userEntry k'.mem t u = userEntry k.mem t u) ∧ ∀ p, Marked k p → Marked k' p := by
  rcases memUserMapPage_fails process known result failed with
    ⟨rfl, _⟩ | ⟨k₁, pos₁, _, _, _, pages, filling, short, held, tracked, _, freed⟩
  · exact ⟨fun _ => rfl, fun _ => id⟩
  · have process₁ : Process k₁ pos₁ t := ⟨filling.wf, filling.layout, filling.keepsPos t [] process.root⟩
    obtain ⟨_, again, kept⟩ := freeKernelPages_held pages k₁ filling.wf held
    obtain rfl := Except.ok.inj (freed.symm.trans again)
    refine ⟨fun u => ?_, fun p marked => ?_⟩
    · rw [process₁.entries_keep (fun p r position => kept p (filling.layout.inUse p r position).2)]
      exact filling.entries process (by omega) u
    · rw [freeKernelPages_marks pages k₁ _ filling.wf held freed p]
      exact ⟨marked_of_shrinks filling.grew.shrinks p marked,
        fun listed => not_free_of_marked k p marked (tracked.new p listed)⟩

/-- Where memory does not last for the tables, the pool is as it was just if the kernel needed none for itself. -/
theorem failedMap_pool (dry : canAlloc (missingTables k.mem t (upperIdx v)) k = false) :
    (∀ n, n < managed → marked k'.memoryMap n = marked k.memoryMap n) ↔ TablesReady k := by
  have kept := (failedMap_keeps process known result failed).2
  rcases memUserMapPage_fails process known result failed with
    ⟨_, enough⟩ | ⟨k₁, pos₁, _, _, _, pages, filling, short, held, tracked, empty, freed⟩
  · rw [dry] at enough
    cases enough
  have marks := freeKernelPages_marks pages k₁ _ filling.wf held freed
  rw [marked_iff, tracked.ready_iff empty]
  constructor
  · intro same p table
    by_contra new
    have free : Free k p := (tracked.tables p table).resolve_left new
    obtain ⟨n, inside, rfl, clear⟩ := free
    refine not_free_of_marked k (poolVa n) ((same _).mp ((marks _).mpr ⟨?_, ?_⟩)) ⟨n, inside, rfl, clear⟩
    · cases set : marked k₁.memoryMap n with
      | true => exact ⟨n, inside, rfl, set⟩
      | false => exact absurd ⟨n, inside, rfl, set⟩ (filling.wf.busy _ table)
    · exact fun listed => (held.2 _ listed).1.2 table
  · intro ready p
    refine ⟨fun marked => ?_, kept p⟩
    obtain ⟨before, unlisted⟩ := (marks p).mp marked
    rcases tracked.grows p before with old | listed | ⟨table, new⟩
    · exact old
    · exact absurd listed unlisted
    · exact absurd (ready p table) new

end Map

-- What is mapped stays as it is.
def Keeps (k k' : Kernel) (t : Word) : Prop := ∀ u, userEntry k.mem t u ≠ 0 → userEntry k'.mem t u = userEntry k.mem t u

theorem Keeps.trans {k k₁ k₂ : Kernel} {t : Word} (first : Keeps k k₁ t) (second : Keeps k₁ k₂ t) : Keeps k k₂ t :=
  fun u used => (second u (by rw [first u used]; exact used)).trans (first u used)

theorem Gains.keeps {A : Type} {addr : A → Word} {Leaf : A → Word → Prop} {k k' : Kernel} {t : Word} {pages : List A}
    (gains : Gains addr Leaf k.mem k'.mem t pages) : Keeps k k' t :=
  fun u used => gains.others u fun page listed same =>
    used ((userEntry_congr k.mem t u _ same.symm).trans (gains.lacked page listed))

/-- A round of a loop has mapped the page at `v`, and nothing that was mapped has changed. -/
structure MapsNew (k k' : Kernel) (t v : Word) : Prop where
  keeps : Keeps k k' t
  lacked : userEntry k.mem t v = 0
  mapped : userEntry k'.mem t v ≠ 0

theorem Gains.mapsNew {A : Type} {addr : A → Word} {Leaf : A → Word → Prop} {k k' : Kernel} {t : Word} {page : A}
    (used : ∀ page e, Leaf page e → e ≠ 0) (gains : Gains addr Leaf k.mem k'.mem t [page]) :
    MapsNew k k' t (addr page) :=
  ⟨gains.keeps, gains.lacked page List.mem_cons_self, used page _ (gains.entry page List.mem_cons_self)⟩

theorem MapsNew.touched {k k₁ k' : Kernel} {t v : Word} (new : MapsNew k k₁ t v) (keeps : Keeps k₁ k' t) :
    ¬ Untouched k k' t := by
  intro untouched
  have gone := (untouched.entries v).trans new.lacked
  rw [keeps v new.mapped] at gone
  exact new.mapped gone

section Rounds

variable {k : Kernel} {pos : Pos} {t v : Word} {perm : MemPerm} {pattr : Word} (process : Process k pos t)
  (known : userAttr perm = some pattr)

include process

theorem anonymousStep_ok (k₁ : Kernel) (step : anonymousStep k t v perm = .ok k₁) :
    ∃ pos₁, Process k₁ pos₁ t ∧ MapsNew k k₁ t v := by
  obtain ⟨_, _, pos₁, _, _, got⟩ := placePage_got process _ ((anonymousStep_places k k₁ t v perm).mp step)
  exact ⟨pos₁, got.stays process, (got.gains process).mapsNew NewPage.Leaf.ne_zero⟩

include known

theorem deviceStep_ok (k₁ : Kernel) (step : deviceStep k t v perm = .ok k₁) :
    (∃ pos₁, Process k₁ pos₁ t ∧ MapsNew k k₁ t v) ∧ canAlloc (missingTables k.mem t (upperIdx v)) k = true := by
  unfold deviceStep at step
  rcases mapping : memUserMapPage k t v v perm .devc with halt | ⟨err, k₂⟩
  · rw [mapping] at step
    cases step
  · rw [mapping] at step
    cases err <;> cases step
    rcases memUserMapPage_spec k pos t process.wf process.layout process.root v v perm .devc pattr known with
      ⟨_, pos₁, _, _, same, mapped, left⟩ | ⟨same, _⟩ | same | ⟨_, never⟩
    · obtain rfl := (Prod.mk.inj (Except.ok.inj (mapping.symm.trans same))).2
      have gains : Gains id (fun _ e => e ≠ 0) k.mem k₁.mem t [v] :=
        mapped.gains process (userLeaf_valid _ _) v rfl (valid_ne_zero (userLeaf_valid _ _))
      exact ⟨⟨pos₁, mapped.process process, gains.mapsNew fun _ _ => id⟩, left 0⟩
    · rw [mapping] at same
      cases same
    · rw [mapping] at same
      cases same
    · exact absurd mapping (never k₁)

/-- A round of _map_anonymous fails where the pool is empty, or keeps the page that it has taken. -/
theorem anonymousStep_error (ret : Word) (k₁ : Kernel) (step : anonymousStep k t v perm = .error (.ok (ret, k₁))) :
    Keeps k k₁ t ∧ ((canAlloc 1 k = false ∧ k₁ = k) ∨ canAlloc 1 k = true ∧ ¬ Untouched k k₁ t) := by
  unfold anonymousStep at step
  rcases memKernelAllocPage_rw k process.wf with oom | ⟨va, k₂, taken, allocated⟩
  · rw [oom] at step
    cases step
    exact ⟨fun _ _ => rfl, .inl ⟨canAlloc_oom k 0 oom, rfl⟩⟩
  · rw [taken] at step
    have process₂ := allocated.process process
    have before := process.entries_keep (fun p r position => (allocated.keeps p (process.layout.inUse p r position)).2)
    rcases mapping : memUserMapPage k₂ t v (virtToPhys va) perm .norm with halt | ⟨err, k₃⟩
    · simp [mapping] at step
    · have failed : err ≠ .ok := by
        rintro rfl
        simp [mapping] at step
      obtain ⟨entries, marks⟩ := failedMap_keeps process₂ known mapping failed
      have same : k₃ = k₁ := by
        cases err <;> simp [mapping] at step <;> exact step.2
      subst same
      refine ⟨fun u _ => (entries u).trans (before u), .inr ⟨by rw [canAlloc_next k k₂ va 0 taken]; rfl, fun untouched => ?_⟩⟩
      exact not_free_of_marked k va (((marked_iff k k₃).mp untouched.pool va).mp (marks va allocated.inUse.1))
        allocated.wasFree

omit process known in
theorem deviceStep_error (ret : Word) (k₁ : Kernel) (step : deviceStep k t v perm = .error (.ok (ret, k₁))) :
    ∃ err, err ≠ .ok ∧ memUserMapPage k t v v perm .devc = .ok (err, k₁) := by
  unfold deviceStep at step
  rcases mapping : memUserMapPage k t v v perm .devc with halt | ⟨err, k₂⟩
  · simp [mapping] at step
  · have failed : err ≠ .ok := by
      rintro rfl
      simp [mapping] at step
    have same : k₂ = k₁ := by
      cases err <;> simp [mapping] at step <;> exact step.2
    exact ⟨err, failed, by rw [same]⟩

end Rounds

-- A loop whose rounds leave what is mapped leaves it too, however it ends.
theorem loop_keeps (t : Word) (step : Kernel → Nat → Except (Except Halt (Word × Kernel)) Kernel)
    (loop : Kernel → Nat → Nat → Except Halt (Word × Kernel)) (vaddr : Word) (zero : ∀ k i, loop k i 0 = .ok (vaddr, k))
    (early : ∀ k i count result, step k i = .error result → loop k i (count + 1) = result)
    (next : ∀ k i count k₁, step k i = .ok k₁ → loop k i (count + 1) = loop k₁ (i + 1) count)
    (goes : ∀ k pos i k₁, Process k pos t → step k i = .ok k₁ → ∃ pos₁, Process k₁ pos₁ t ∧ Keeps k k₁ t)
    (stops : ∀ k pos i ret k₁, Process k pos t → step k i = .error (.ok (ret, k₁)) → Keeps k k₁ t) (count : Nat) :
    ∀ k pos i ret k', Process k pos t → loop k i count = .ok (ret, k') → Keeps k k' t := by
  induction count with
  | zero =>
    intro k pos i ret k' _ result
    rw [zero] at result
    cases result
    exact fun _ _ => rfl
  | succ count ih =>
    intro k pos i ret k' process result
    cases round : step k i with
    | error stopped =>
      rw [early k i count stopped round] at result
      cases result
      exact stops k pos i ret k' process round
    | ok k₁ =>
      rw [next k i count k₁ round] at result
      obtain ⟨pos₁, process₁, keeps⟩ := goes k pos i k₁ process round
      exact keeps.trans (ih k₁ pos₁ (i + 1) ret k' process₁ result)

section Loops

variable {k k' : Kernel} {pos : Pos} {t vaddr ret : Word} {perm : MemPerm} {pattr : Word} (process : Process k pos t)
  (known : userAttr perm = some pattr)

include process known

theorem anonymousLoop_keeps (count i : Nat) (result : anonymousLoop t vaddr perm k i count = .ok (ret, k')) :
    Keeps k k' t := by
  refine loop_keeps t (fun k i => anonymousStep k t (pageAt vaddr i) perm) (anonymousLoop t vaddr perm) vaddr
    (fun _ _ => rfl) (fun k i count early step => by rw [anonymousLoop, step]) (fun k i count k₁ step => by rw [anonymousLoop, step])
    (fun k pos i k₁ process step => ?_) (fun k pos i ret k₁ process step => ?_) count k pos i ret k' process result
  · obtain ⟨pos₁, process₁, new⟩ := anonymousStep_ok process k₁ step
    exact ⟨pos₁, process₁, new.keeps⟩
  · exact (anonymousStep_error process known ret k₁ step).1

theorem deviceLoop_keeps (count i : Nat) (result : deviceLoop t vaddr perm k i count = .ok (ret, k')) :
    Keeps k k' t := by
  refine loop_keeps t (fun k i => deviceStep k t (pageAt vaddr i) perm) (deviceLoop t vaddr perm) vaddr
    (fun _ _ => rfl) (fun k i count early step => by rw [deviceLoop, step]) (fun k i count k₁ step => by rw [deviceLoop, step])
    (fun k pos i k₁ process step => ?_) (fun k pos i ret k₁ process step => ?_) count k pos i ret k' process result
  · obtain ⟨⟨pos₁, process₁, new⟩, _⟩ := deviceStep_ok process known k₁ step
    exact ⟨pos₁, process₁, new.keeps⟩
  · obtain ⟨err, failed, mapping⟩ := deviceStep_error ret k₁ step
    exact fun u _ => (failedMap_keeps process known mapping failed).1 u

/-- Once a page is taken the loop of _map_anonymous leaves a trace, also where it fails. -/
theorem anonymousLoop_untouched (count : Nat) (result : anonymousLoop t vaddr perm k 0 count = .ok (ret, k')) :
    Untouched k k' t ↔ count = 0 ∨ canAlloc 1 k = false := by
  cases count with
  | zero =>
    cases result
    exact iff_of_true (.refl k t) (.inl rfl)
  | succ count =>
    rw [anonymousLoop] at result
    cases step : anonymousStep k t (pageAt vaddr 0) perm with
    | error early =>
      rw [step] at result
      cases result
      rcases (anonymousStep_error process known ret k' step).2 with ⟨empty, rfl⟩ | ⟨some, touched⟩
      · exact iff_of_true (.refl k' t) (.inr empty)
      · simp [touched, some]
    | ok k₁ =>
      rw [step] at result
      obtain ⟨pos₁, process₁, new⟩ := anonymousStep_ok process k₁ step
      have some : canAlloc 1 k = true := by
        obtain ⟨_, _, _, va, _, got⟩ := placePage_got process _ ((anonymousStep_places k k₁ t _ perm).mp step)
        rw [canAlloc_next k _ va 0 got.taken]
        rfl
      simp [new.touched (anonymousLoop_keeps process₁ known count 1 result), some]

/-- The loop of _map_device leaves none where it fails at the first page, if the kernel needed no table for itself. -/
theorem deviceLoop_untouched (count : Nat) (lacked : 0 < count → userEntry k.mem t vaddr = 0)
    (result : deviceLoop t vaddr perm k 0 count = .ok (ret, k')) : Untouched k k' t ↔
      count = 0 ∨ canAlloc (missingTables k.mem t (upperIdx vaddr)) k = false ∧ TablesReady k := by
  cases count with
  | zero =>
    cases result
    exact iff_of_true (.refl k t) (.inl rfl)
  | succ count =>
    rw [deviceLoop] at result
    cases step : deviceStep k t (pageAt vaddr 0) perm with
    | error early =>
      rw [step] at result
      cases result
      obtain ⟨err, failed, mapping⟩ := deviceStep_error ret k' step
      rw [pageAt_zero] at mapping
      have dry : canAlloc (missingTables k.mem t (upperIdx vaddr)) k = false := by
        refine Bool.eq_false_iff.mpr fun enough => ?_
        obtain ⟨k₁, _, _, _, done, _⟩ := memUserMapPage_lasts process vaddr vaddr perm .devc pattr known
          ((process.lacks_entry vaddr).mpr (lacked (Nat.succ_pos count))) enough
        rw [mapping] at done
        exact failed (Prod.mk.inj (Except.ok.inj done)).1
      have pool := failedMap_pool process known mapping failed dry
      constructor
      · exact fun untouched => .inr ⟨dry, pool.mp untouched.pool⟩
      · rintro (none | ⟨_, ready⟩)
        · cases none
        · exact ⟨(failedMap_keeps process known mapping failed).1, pool.mpr ready⟩
    | ok k₁ =>
      rw [step] at result
      obtain ⟨⟨pos₁, process₁, new⟩, enough⟩ := deviceStep_ok process known k₁ step
      rw [pageAt_zero] at enough
      simp [new.touched (deviceLoop_keeps process₁ known count 1 result), enough]

end Loops

/-- Where a failed sys_mmap leaves no trace: an argument is refused, the search leads to NULL or away from the device,
or there is no memory for the first page, and for a device none of what there was went into a table of the kernel. -/
def MmapStops (k : Kernel) (t addr len : Word) (prot flags : Int) : Prop :=
  let pageCnt := (memSizeToPages len).toNat
  len = 0 ∨ protPerm prot = none ∨
    if flags = mapAnonymousFlag then
      FirstAtNull k.mem t pageCnt (anonymousHint addr) ∨ canAlloc 1 k = false
    else if flags = mapDeviceFlag then
      ¬ Room (takenFrom k.mem t addr) pageCnt 0 ∨
        pageCnt = 0 ∨ canAlloc (missingTables k.mem t (upperIdx addr)) k = false ∧ TablesReady k
    else True

theorem firstRun_null (m : Mem) (t start : Word) (pageCnt n : Nat) (first : FirstRun m t pageCnt start n) :
    FirstAtNull m t pageCnt start ↔ pageAt start n = 0 := by
  constructor
  · rintro ⟨j, null, room, before⟩
    have same : n = j := Least.unique _ _ first ⟨Nat.zero_le j, room, fun i _ => before i⟩
    rwa [same]
  · exact fun null => ⟨n, null, first.fits, fun j less => first.first j (Nat.zero_le j) less⟩

-- The search from a device address comes back to it only where it did not have to leave it.
theorem firstRun_here (m : Mem) (t start : Word) (pageCnt n : Nat) (first : FirstRun m t pageCnt start n) :
    pageAt start n = start ↔ Room (takenFrom m t start) pageCnt 0 := by
  constructor
  · intro here p less
    have free := first.fits p less
    rw [takenFrom, ← pageAt_pageAt, here] at free
    rwa [takenFrom, Nat.zero_add]
  · intro room
    have same : n = 0 := Nat.eq_zero_of_not_pos fun more => first.first 0 (Nat.le_refl 0) more room
    rw [same, pageAt_zero]

section Calls

variable {fuel : Nat} {k k' : Kernel} {pos : Pos} {t addr len ret pattr : Word} {perm : MemPerm}
  (process : Process k pos t) (known : userAttr perm = some pattr)

include process known

theorem mapAnonymous_failed (failed : ret ∈ [einval, enomem, enotsup])
    (given : mapAnonymous fuel k t addr len perm = some (.ok (ret, k'))) : Untouched k k' t ↔
      FirstAtNull k.mem t (memSizeToPages len).toNat (anonymousHint addr) ∨ canAlloc 1 k = false := by
  simp only [mapAnonymous] at given
  cases found : memUserFindEmpty k.mem t (memSizeToPages len).toNat fuel (anonymousHint addr) with
  | none =>
    rw [found] at given
    cases given
  | some vaddr =>
    obtain ⟨n, first, here⟩ := memUserFindEmpty_run _ _ _ _ _ _ found
    rw [firstRun_null _ _ _ _ n first, ← here]
    simp only [found] at given
    by_cases null : vaddr = 0
    · simp only [null, if_true] at given
      cases given
      exact iff_of_true (.refl k t) (.inl null)
    · simp only [null, if_false] at given
      have result := Option.some.inj given
      -- The address of a page is no error code.
      have some : (memSizeToPages len).toNat ≠ 0 := by
        intro none
        rw [none] at result
        cases result
        have aligned := pageAt_aligned (anonymousHint addr) n (anonymousHint_aligned addr)
        rw [← here] at aligned
        simp only [List.mem_cons, List.not_mem_nil, or_false] at failed
        rcases failed with rfl | rfl | rfl <;> exact absurd aligned (by decide)
      rw [anonymousLoop_untouched process known _ result]
      simp only [some, null, false_or]

theorem mapDevice_failed (given : mapDevice fuel k t addr len perm = some (.ok (ret, k'))) : Untouched k k' t ↔
    ¬ Room (takenFrom k.mem t addr) (memSizeToPages len).toNat 0 ∨ (memSizeToPages len).toNat = 0 ∨
      canAlloc (missingTables k.mem t (upperIdx addr)) k = false ∧ TablesReady k := by
  simp only [mapDevice] at given
  cases found : memUserFindEmpty k.mem t (memSizeToPages len).toNat fuel addr with
  | none =>
    rw [found] at given
    cases given
  | some vaddr =>
    obtain ⟨n, first, place⟩ := memUserFindEmpty_run _ _ _ _ _ _ found
    rw [← firstRun_here _ _ _ _ n first, ← place]
    simp only [found] at given
    by_cases here : vaddr = addr
    · simp only [here, ne_eq, not_true_eq_false, if_false] at given
      have room := (firstRun_here _ _ _ _ n first).mp (place.symm.trans here)
      have lacked (some : 0 < (memSizeToPages len).toNat) : userEntry k.mem t addr = 0 := by
        have free := room 0 some
        rw [takenFrom, Nat.zero_add, pageAt_zero] at free
        by_contra used
        rw [(process.busy_entry addr).mpr used] at free
        cases free
      rw [deviceLoop_untouched process known _ lacked (Option.some.inj given)]
      simp only [here, not_true_eq_false, false_or]
    · simp only [here, ne_eq, not_false_eq_true, if_true] at given
      cases given
      exact iff_of_true (.refl k t) (.inl here)

end Calls

/-- A failed sys_mmap changes nothing exactly where it fails before the first page, or for the first page. -/
theorem sysMmap_failed (fuel : Nat) (k k' : Kernel) (t addr len ret : Word) (prot flags : Int) (tree : TableTree k t)
    (failed : ret ∈ [einval, enomem, enotsup]) (given : sysMmap fuel k t addr len prot flags = some (.ok (ret, k'))) :
    Untouched k k' t ↔ MmapStops k t addr len prot flags := by
  obtain ⟨wf, pos, layout, root⟩ := tree
  have process : Process k pos t := ⟨wf, layout, root⟩
  unfold sysMmap at given
  by_cases empty : len = 0
  · rw [if_pos empty] at given
    cases given
    exact iff_of_true (.refl k t) (.inl empty)
  rw [if_neg empty] at given
  cases allowed : protPerm prot with
  | none =>
    rw [allowed] at given
    cases given
    exact iff_of_true (.refl k t) (.inr (.inl allowed))
  | some perm =>
    obtain ⟨pattr, known⟩ := protPerm_attr prot perm allowed
    simp only [MmapStops, empty, allowed, reduceCtorEq, false_or]
    rw [allowed] at given
    by_cases anonymous : flags = mapAnonymousFlag
    · simp only [anonymous, if_true] at given ⊢
      exact mapAnonymous_failed process known failed given
    · by_cases device : flags = mapDeviceFlag
      · simp only [device, show mapDeviceFlag ≠ mapAnonymousFlag by decide, if_true, if_false] at given ⊢
        exact mapDevice_failed process known given
      · simp only [anonymous, device, if_false] at given ⊢
        cases given
        exact iff_of_true (.refl k t) trivial

theorem sysMmap_failed_noPage : ∃ k',
    sysMmap 2 (machine (onePage 0) []) (poolVa 4) 0 0x2000 3 mapAnonymousFlag = some (.ok (enomem, k')) ∧
      Untouched (machine (onePage 0) []) k' (poolVa 4) := by
  obtain ⟨⟨ret, k'⟩, given, check⟩ := returns_of_any
    (sysMmap 2 (machine (onePage 0) []) (poolVa 4) 0 0x2000 3 mapAnonymousFlag) (fun r => r.1 == enomem) (by decide +kernel)
  obtain rfl : ret = enomem := beq_iff_eq.mp check
  refine ⟨k', given, (sysMmap_failed 2 _ k' (poolVa 4) 0 0x2000 enomem 3 mapAnonymousFlag
    (onePage_tree 0 [] (by decide +kernel)) (by decide) given).mpr (.inr (.inr ?_))⟩
  rw [if_pos rfl]
  exact .inr (by decide +kernel)

/-- With memory for one page of two the first stays mapped at 0x201000, and the caller is told of none. -/
theorem failed_mmap_leaves_page : ¬ ∀ (fuel : Nat) (k k' : Kernel) (t addr len ret : Word) (prot flags : Int),
    TableTree k t → ret ∈ [einval, enomem, enotsup] → sysMmap fuel k t addr len prot flags = some (.ok (ret, k')) →
      Untouched k k' t := by
  intro claim
  obtain ⟨⟨ret, k'⟩, given, check⟩ := returns_of_any
    (sysMmap 2 (machine (onePage 0) [20]) (poolVa 4) 0 0x2000 3 mapAnonymousFlag)
    (fun r => r.1 == enomem && mmuIsValid (userEntry r.2.mem (poolVa 4) 0x201000)) (by decide +kernel)
  rw [Bool.and_eq_true] at check
  obtain rfl : ret = enomem := beq_iff_eq.mp check.1
  have before : userEntry (machine (onePage 0) [20]).mem (poolVa 4) 0x201000 = 0 := by decide +kernel
  have same := (claim _ _ k' _ _ _ _ _ _ (onePage_tree 0 [20] (by decide +kernel)) (by decide) given).entries 0x201000
  rw [same, before] at check
  exact absurd check.2 (by decide)

end Anthill
