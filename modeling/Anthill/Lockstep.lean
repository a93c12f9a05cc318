import Anthill.PageOwnership

set_option autoImplicit false

namespace Anthill

open Radix

-- The kernel after `count` pages have been taken from the pool.
def skipPages : Nat → Kernel → Kernel
  | 0, k => k
  | count + 1, k => skipPages count (memKernelAllocPage k .rw).2

-- The page that the pool gives after `count` others.
def nextPage (count : Nat) (k : Kernel) : Word := (memKernelAllocPage (skipPages count k) .rw).1.addr

theorem skipPages_add (m n : Nat) (k : Kernel) : skipPages (m + n) k = skipPages n (skipPages m k) := by
  induction m generalizing k with
  | zero => rw [Nat.zero_add, skipPages]
  | succ m ih => rw [Nat.add_right_comm, skipPages, skipPages, ih]

theorem alloc_wf (k : Kernel) (wf : KernelWf k) : KernelWf (memKernelAllocPage k .rw).2 := by
  rcases memKernelAllocPage_rw k wf with oom | ⟨va, k₁, taken, allocated⟩
  · rw [oom]
    exact wf
  · rw [taken]
    exact allocated.wf

theorem skipPages_wf (count : Nat) (k : Kernel) (wf : KernelWf k) : KernelWf (skipPages count k) := by
  induction count generalizing k with
  | zero => exact wf
  | succ count ih => exact ih _ (alloc_wf k wf)

theorem SameKernel.skip {k k' : Kernel} (same : SameKernel k k') (wf : KernelWf k) (count : Nat) :
    SameKernel (skipPages count k) (skipPages count k') := by
  induction count generalizing k k' with
  | zero => exact same
  | succ count ih => exact ih (same.alloc wf .rw).2 (alloc_wf k wf)

/-- A page is mapped by a kernel table that is there, or by a new one in a page of the pool. -/
theorem taken_cases {k k₁ : Kernel} {va : Word} (wf : KernelWf k) (taken : memKernelAllocPage k .rw = (⟨va, .ok⟩, k₁)) :
    (∃ n attr, k.hasLevel3 (poolIdx2 n) ∧ k₁ = k.handOut n attr) ∨
      ∃ n q attr, q < managed ∧ marked k.memoryMap q = false ∧ ¬ k.hasLevel3 (poolIdx2 n) ∧ k₁ = k.handOutNew n q attr := by
  rw [memKernelAllocPage_eq k wf .rw _ kernelAttr_rw] at taken
  rcases found : k.pick with _ | ⟨n, _ | q⟩
  · rw [found] at taken
    cases taken
  · obtain ⟨_, _, there⟩ := pick_table k wf n found
    rw [found] at taken
    exact .inl ⟨n, _, there, (Prod.mk.inj taken).2.symm⟩
  · obtain ⟨_, insideQ, _, _, clearQ, missing⟩ := pick_noTable k n q found
    rw [found] at taken
    exact .inr ⟨n, q, _, insideQ, clearQ, missing, (Prod.mk.inj taken).2.symm⟩

theorem alloc_rows {k k₁ : Kernel} {va : Word} (wf : KernelWf k) (taken : memKernelAllocPage k .rw = (⟨va, .ok⟩, k₁))
    (p : Word) (other : ¬ KernelTable k₁ p) : k₁.mem p = k.mem p := by
  rcases taken_cases wf taken with ⟨n, attr, there, rfl⟩ | ⟨n, q, attr, insideQ, clearQ, missing, rfl⟩
  · rw [(handOut_upper k wf n attr there).kernelTable] at other
    exact put_page_other _ _ _ _ _ fun same => other (.inr (.inr (.inr ⟨_, there, same⟩)))
  · rw [handOutNew_kernelTable k wf n q attr insideQ clearQ missing] at other
    exact handOutNew_elsewhere k n q attr p (fun same => other (.inr same))
      (fun same => other (.inl (.inr (.inr (.inl same)))))

-- A new table of the kernel lies in a page that was free.
theorem alloc_kernelTable {k k₁ : Kernel} {va : Word} (wf : KernelWf k)
    (taken : memKernelAllocPage k .rw = (⟨va, .ok⟩, k₁)) (p : Word) (table : KernelTable k₁ p) :
    KernelTable k p ∨ Free k p := by
  rcases taken_cases wf taken with ⟨n, attr, there, rfl⟩ | ⟨n, q, attr, insideQ, clearQ, missing, rfl⟩
  · exact .inl (((handOut_upper k wf n attr there).kernelTable p).mp table)
  · rcases (handOutNew_kernelTable k wf n q attr insideQ clearQ missing p).mp table with old | rfl
    · exact .inl old
    · exact .inr ⟨q, insideQ, rfl, clearQ⟩

/-- Two runs, from `k` to `k₁` and from `k'` to `k₁'`, that have each taken the same `count` pages from the pool. A page
that holds the same in both still does, and the pages still in the pool hold what they did. -/
structure Lockstep (count : Nat) (k k' k₁ k₁' : Kernel) : Prop where
  wf : KernelWf k₁
  same : SameKernel k₁ k₁'
  agree : ∀ p, k'.mem p = k.mem p → k₁'.mem p = k₁.mem p
  free : ∀ p, Free k₁ p → Free k p ∧ k₁.mem p = k.mem p ∧ k₁'.mem p = k'.mem p
  taken : SameKernel (skipPages count k) k₁

theorem Lockstep.start {k k' : Kernel} (wf : KernelWf k) (same : SameKernel k k') : Lockstep 0 k k' k k' :=
  ⟨wf, same, fun _ => id, fun _ free => ⟨free, rfl, rfl⟩, .refl k⟩

theorem Lockstep.trans {m n : Nat} {k k' k₁ k₁' k₂ k₂' : Kernel} (first : Lockstep m k k' k₁ k₁') (wf : KernelWf k)
    (second : Lockstep n k₁ k₁' k₂ k₂') : Lockstep (m + n) k k' k₂ k₂' where
  wf := second.wf
  same := second.same
  agree p before := second.agree p (first.agree p before)
  free p free := by
    obtain ⟨free₁, row₂, row₂'⟩ := second.free p free
    obtain ⟨free₀, row₁, row₁'⟩ := first.free p free₁
    exact ⟨free₀, row₂.trans row₁, row₂'.trans row₁'⟩
  taken := by
    rw [skipPages_add]
    exact (first.taken.skip (skipPages_wf m k wf) n).trans second.taken

-- Both runs take the same page.
theorem Lockstep.alloc {k k' k₁ : Kernel} {va : Word} (wf : KernelWf k) (same : SameKernel k k')
    (taken : memKernelAllocPage k .rw = (⟨va, .ok⟩, k₁)) :
    ∃ k₁', memKernelAllocPage k' .rw = (⟨va, .ok⟩, k₁') ∧ Lockstep 1 k k' k₁ k₁' := by
  obtain ⟨result, same₁⟩ := same.alloc wf .rw
  have wf₁ := alloc_wf k wf
  rw [taken] at result same₁ wf₁
  have taken' : memKernelAllocPage k' .rw = (⟨va, .ok⟩, (memKernelAllocPage k' .rw).2) := Prod.ext result rfl
  have allocated : ∀ p, Free k₁ p → Free k p := (taken_allocated wf taken).shrinks
  have rows := alloc_rows wf taken
  have rows' := alloc_rows (same.wf wf) taken'
  refine ⟨_, taken', wf₁, same₁, fun p agree => ?_, fun p free => ?_, ?_⟩
  · by_cases table : KernelTable k₁ p
    · exact same₁.rows p table
    · rw [rows p table, rows' p fun table' => table ((same₁.kernelTable p).mp table'), agree]
  · have table : ¬ KernelTable k₁ p := fun table => wf₁.busy p table free
    exact ⟨allocated p free, rows p table, rows' p fun table' => table ((same₁.kernelTable p).mp table')⟩
  · rw [skipPages, taken]
    exact .refl k₁

-- Both runs change the same page, in the same way.
theorem Lockstep.update {k k' : Kernel} (wf : KernelWf k) (same : SameKernel k k') (p : Word) (used : InUse k p)
    (change : (Idx → Word) → Idx → Word) :
    Lockstep 0 k k' (k.writePage p (change (k.mem p))) (k'.writePage p (change (k'.mem p))) := by
  have mine := sameKernel_putPage k p (change (k.mem p)) used.2
  have theirs := sameKernel_putPage k' p (change (k'.mem p)) fun table => used.2 ((same.kernelTable p).mp table)
  refine ⟨mine.wf wf, (mine.symm.trans same).trans theirs, fun p' agree => ?_, fun p' free => ?_, mine⟩
  · by_cases here : p' = p
    · subst here
      simp only [Kernel.writePage_mem, putPage_same, agree]
    · simp only [Kernel.writePage_mem, putPage_other _ _ _ _ here, agree]
  · have before := (mine.free p').mp free
    have other : p' ≠ p := fun here => not_free_of_marked k p used.1 (here ▸ before)
    exact ⟨before, putPage_other _ _ _ _ other, putPage_other _ _ _ _ other⟩

theorem write_writePage (k : Kernel) (p : Word) (i : Idx) (e : Word) :
    k.write p i e = k.writePage p (Function.update (k.mem p) i e) := by
  refine congrArg (fun mem => { k with mem := mem }) (funext fun p' => funext fun i' => ?_)
  by_cases here : p' = p
  · subst here
    by_cases same : i' = i <;> simp [put, putPage, same]
  · simp [put, putPage, here]

theorem Lockstep.write {k k' : Kernel} (wf : KernelWf k) (same : SameKernel k k') (p : Word) (used : InUse k p)
    (i : Idx) (e : Word) : Lockstep 0 k k' (k.write p i e) (k'.write p i e) := by
  rw [write_writePage, write_writePage]
  exact .update wf same p used fun row => Function.update row i e

theorem Lockstep.link {k k' : Kernel} (wf : KernelWf k) (same : SameKernel k k') (va level : Word) (i : Idx)
    (new : InUse k va) (old : InUse k level) :
    Lockstep 0 k k' (linkTable k va level i) (linkTable k' va level i) := by
  have clear := Lockstep.update wf same va new fun _ _ => 0
  have same₁ := sameKernel_putPage k va (fun _ => 0) new.2
  exact clear.trans wf (.write clear.wf clear.same level ((same₁.inUse level).mpr old) i (tableEntry va))

section Map

variable {k₀ : Kernel} {pos₀ : Pos} {t : Word}

theorem mapLevels_lockstep (rootT : pos₀ t = some []) (idx : List Idx) :
    ∀ (k k' : Kernel) (pos : Pos) (gap : Gap) (q : List Idx) (level level3 : Word) (pages pages' : List Word)
      (k₁ : Kernel), Filling k₀ k pos₀ pos gap t q level → q.length + idx.length = 3 → SameKernel k k' →
        (∀ p r, pos p = some r → k'.mem p = k.mem p) → mapLevels k level pages idx = .ok (level3, pages', k₁) →
          ∃ k₁' pos' gap', mapLevels k' level pages idx = .ok (level3, pages', k₁') ∧
            Filling k₀ k₁ pos₀ pos' gap' t (q ++ idx) level3 ∧ (∀ p r, pos p = some r → pos' p = some r) ∧
            (∀ p r, pos' p = some r → k₁'.mem p = k₁.mem p) ∧
            Lockstep (missingTables k.mem level idx) k k' k₁ k₁' := by
  induction idx with
  | nil =>
    intro k k' pos gap q level level3 pages pages' k₁ filling _ same agree result
    cases result
    exact ⟨k', pos, gap, rfl, by rwa [List.append_nil], fun _ _ => id, agree, .start filling.wf same⟩
  | cons i idx ih =>
    intro k k' pos gap q level level3 pages pages' k₁ filling depth same agree result
    have short : q.length < 3 := by
      rw [List.length_cons] at depth
      omega
    have deeper : (q ++ [i]).length + idx.length = 3 := by
      rw [List.length_cons] at depth
      rw [List.length_append, List.length_singleton]
      omega
    have path : (q ++ [i]) ++ idx = q ++ i :: idx := by simp
    have row := agree level q filling.here
    cases valid : mmuIsValid (k.mem level i) with
    | true =>
      have valid' : mmuIsValid (k'.mem level i) = true := by rw [row, valid]
      rw [mapLevels, mapStep_valid k level pages i valid] at result
      obtain ⟨k₁', pos', gap', result', filled, keeps, agree', lock⟩ :=
        ih k k' pos gap (q ++ [i]) _ level3 pages pages' k₁ (filling.follow short i valid) deeper same agree result
      rw [path] at filled
      refine ⟨k₁', pos', gap', ?_, filled, keeps, agree', ?_⟩
      · rw [mapLevels, mapStep_valid k' level pages i valid', row]
        exact result'
      · rwa [missingTables, valid, if_pos rfl]
    | false =>
      have valid' : mmuIsValid (k'.mem level i) = false := by rw [row, valid]
      rcases memKernelAllocPage_rw k filling.wf with oom | ⟨va, k₂, taken, allocated⟩
      · rw [mapLevels, mapStep_oom k level pages i valid oom] at result
        cases rolled : mapRollback k pages .memOom <;> rw [rolled] at result <;> cases result
      · obtain ⟨k₂', taken', alloc⟩ := Lockstep.alloc filling.wf same taken
        have linked := filling.link rootT short i valid allocated
        have used := (allocated.keeps level (filling.layout.inUse level q filling.here)).1
        have link := Lockstep.link alloc.wf alloc.same va level i allocated.inUse used
        have away := allocated.outside level (filling.layout.inUse level q filling.here)
        have blank : (linkTable k₂ va level i).mem va = fun _ => 0 :=
          (linked.fresh (by cases gap <;> simp [Gap.fill])).2
        have agree₂ (p : Word) (r : List Idx) (position : Function.update pos va (some (q ++ [i])) p = some r) :
            (linkTable k₂' va level i).mem p = (linkTable k₂ va level i).mem p := by
          rcases extend_cases position with ⟨rfl, _⟩ | ⟨_, before⟩
          · rw [linkTable_mem, linkTable_mem, put_page_other _ _ _ _ _ away.symm, put_page_other _ _ _ _ _ away.symm,
              putPage_same, putPage_same]
          · exact link.agree p (alloc.agree p (agree p r before))
        rw [mapLevels, mapStep_link k k₂ level va pages i valid allocated.isPage taken] at result
        obtain ⟨k₁', pos', gap', result', filled, keeps, agree', lock⟩ :=
          ih _ _ _ _ _ va level3 (pages ++ [va]) pages' k₁ linked deeper link.same agree₂ result
        rw [path] at filled
        refine ⟨k₁', pos', gap', ?_, filled, fun p r position => keeps p r ?_, agree', ?_⟩
        · rw [mapLevels, mapStep_link k' k₂' level va pages i valid' allocated.isPage taken']
          exact result'
        · rw [Function.update_of_ne (allocated.outside p (filling.layout.inUse p r position))]
          exact position
        · rw [missingTables_blank _ _ _ blank] at lock
          have whole := (alloc.trans filling.wf link).trans filling.wf lock
          rwa [missingTables, valid, if_neg Bool.false_ne_true, Nat.add_comm, ← Nat.add_zero 1]

/-- Where one run maps a page, so does the other, with the same tables. -/
theorem memUserMapPage_lockstep {k k' k₁ : Kernel} {pos : Pos} (process : Process k pos t) (same : SameKernel k k')
    (agree : ∀ p r, pos p = some r → k'.mem p = k.mem p) (v paddr : Word) (perm : MemPerm) (attr : MemAttr)
    (result : memUserMapPage k t v paddr perm attr = .ok (.ok, k₁)) :
    ∃ k₁' pattr pos' a i, memUserMapPage k' t v paddr perm attr = .ok (.ok, k₁') ∧ userAttr perm = some pattr ∧
      Mapped k k₁ pos pos' a i t v (userLeaf paddr (pattr ||| memAttr attr)) ∧
      (∀ p r, pos' p = some r → k₁'.mem p = k₁.mem p) ∧
      Lockstep (missingTables k.mem t (upperIdx v)) k k' k₁ k₁' := by
  unfold memUserMapPage at result ⊢
  cases known : userAttr perm with
  | none =>
    rw [known] at result
    cases result
  | some pattr =>
    rw [known] at result
    cases levels : mapLevels k t [] (upperIdx v) with
    | error early =>
      rcases mapLevels_spec process.root (upperIdx v) k pos none [] t []
        (.start k pos t process.wf process.layout process.root) rfl (by simp) with
        ⟨_, _, _, _, _, ended, _⟩ | ⟨k₂, pages, ended, _⟩
      · rw [levels] at ended
        cases ended
      · rw [levels] at ended
        cases ended
        simp only [levels, mapRollback] at result
        cases freed : freeKernelPages pages k₂ <;> rw [freed] at result <;> cases result
    | ok reached =>
      obtain ⟨level3, pages, k₂⟩ := reached
      obtain ⟨k₂', pos', gap, result', filling, _, agree', lock⟩ := mapLevels_lockstep process.root (upperIdx v) k k' pos
        none [] t level3 [] pages k₂ (.start k pos t process.wf process.layout process.root) rfl same agree levels
      simp only [levels, result'] at result ⊢
      cases invalid : mmuIsValid (k₂.mem level3 (leafIdx v)) with
      | true =>
        simp only [invalid, if_true, mapRollback] at result
        cases freed : freeKernelPages pages k₂ <;> rw [freed] at result <;> cases result
      | false =>
        have invalid' : mmuIsValid (k₂'.mem level3 (leafIdx v)) = false := by
          rw [agree' level3 _ filling.here, invalid]
        simp only [invalid, Bool.false_eq_true, if_false, Except.ok.injEq, Prod.mk.injEq, true_and] at result
        obtain rfl := result
        have walk : Filling k k₂ pos pos' gap t (upperIdx v) level3 := filling
        obtain ⟨a, i, mapped⟩ := walk.mapped k pos t process.root _ invalid
          (userLeaf_valid paddr (pattr ||| memAttr attr))
        have leaf := Lockstep.write lock.wf lock.same level3 (filling.layout.inUse _ _ filling.here) (leafIdx v)
          (userLeaf paddr (pattr ||| memAttr attr))
        simp only [invalid', Bool.false_eq_true, if_false]
        exact ⟨_, pattr, pos', a, i, rfl, rfl, mapped, fun p r position => leaf.agree p (agree' p r position),
          lock.trans process.wf leaf⟩

end Map

end Anthill
