import Anthill.KernelPages

set_option autoImplicit false

namespace Anthill

open Radix

/-- Two states that differ only in pages that are not the kernel's tables. -/
structure SameKernel (k k' : Kernel) : Prop where
  map : k'.memoryMap = k.memoryMap
  root : k'.kernelTable = k.kernelTable
  rows : ∀ p, KernelTable k p → k'.mem p = k.mem p
  trace : k'.trace = k.trace

section SameKernel

variable {k k' : Kernel} (same : SameKernel k k')

include same

theorem SameKernel.upper : SameUpper k k' :=
  ⟨same.root, same.rows _ (.inl rfl), same.rows _ (.inr (.inl rfl)), same.rows _ (.inr (.inr (.inl rfl)))⟩

theorem SameKernel.levels : k'.level1 = k.level1 ∧ k'.level2 = k.level2 ∧
    (∀ j, k'.level3 j = k.level3 j) ∧ ∀ j, k'.hasLevel3 j ↔ k.hasLevel3 j := same.upper.levels

theorem SameKernel.kernelTable (p : Word) : KernelTable k' p ↔ KernelTable k p := same.upper.kernelTable p

theorem SameKernel.free (p : Word) : Free k' p ↔ Free k p := by
  simp only [Free, same.map]

theorem SameKernel.marks (p : Word) : Marked k' p ↔ Marked k p := by
  simp only [Marked, same.map]

theorem SameKernel.inUse (p : Word) : InUse k' p ↔ InUse k p := by
  simp only [InUse, same.marks, same.kernelTable]

theorem SameKernel.backs {p : Word} (backed : Backed k p) : Backed k' p := by
  obtain ⟨n, inside, rfl, set, table, valid⟩ := backed
  obtain ⟨_, _, same3, there⟩ := same.levels
  have row3 := same.rows _ (.inr (.inr (.inr ⟨_, table, rfl⟩)))
  refine ⟨n, inside, rfl, ?_, (there _).mpr table, ?_⟩
  · rw [same.map]
    exact set
  · rw [same3, row3]
    exact valid

theorem SameKernel.symm : SameKernel k' k where
  map := same.map.symm
  root := same.root.symm
  rows p table := (same.rows p ((same.kernelTable p).mp table)).symm
  trace := same.trace.symm

theorem SameKernel.wf (wf : KernelWf k) : KernelWf k' := by
  refine same.upper.wf wf (fun va table free => wf.busy va table ((same.free va).mp free)) fun n inside clear table => ?_
  rw [same.map] at clear
  rw [same.rows _ (.inr (.inr (.inr ⟨_, table, rfl⟩)))]
  exact wf.unmapped n inside clear table

end SameKernel

theorem SameKernel.refl (k : Kernel) : SameKernel k k := ⟨rfl, rfl, fun _ _ => rfl, rfl⟩

theorem SameKernel.trans {k k' k'' : Kernel} (first : SameKernel k k') (second : SameKernel k' k'') :
    SameKernel k k'' where
  map := second.map.trans first.map
  root := second.root.trans first.root
  rows p table := (second.rows p ((first.kernelTable p).mpr table)).trans (first.rows p table)
  trace := second.trace.trans first.trace

theorem sameKernel_put (k : Kernel) (p : Word) (i : Idx) (e : Word) (other : ¬ KernelTable k p) :
    SameKernel k (k.write p i e) where
  map := rfl
  root := rfl
  rows _ table := put_page_other _ _ _ _ _ (fun same => other (same ▸ table))
  trace := rfl

theorem sameKernel_putPage (k : Kernel) (p : Word) (row : Idx → Word) (other : ¬ KernelTable k p) :
    SameKernel k (k.writePage p row) where
  map := rfl
  root := rfl
  rows _ table := putPage_other _ _ _ _ (fun same => other (same ▸ table))
  trace := rfl

/-- What any number of allocations, and writes to other pages, can do to the kernel's state. -/
structure Grew (k k' : Kernel) : Prop where
  keepsUse : ∀ p, InUse k p → InUse k' p
  shrinks : ∀ p, Free k' p → Free k p
  backs : ∀ p, Backed k p → Backed k' p
  tables : ∀ p, KernelTable k p → KernelTable k' p
  settled : ∀ p i, KernelTable k p → mmuIsValid (k.mem p i) = true → k'.mem p i = k.mem p i
  root : k'.kernelTable = k.kernelTable
  trace : ∃ pages : List Word, k'.trace = k.trace ++ pages.map PoolCall.handedOut ∧
    ∀ p, Backed k' p → Backed k p ∨ p ∈ pages

theorem SameKernel.grew {k k' : Kernel} (same : SameKernel k k') : Grew k k' where
  keepsUse p used := (same.inUse p).mpr used
  shrinks p free := (same.free p).mp free
  backs p backed := same.backs backed
  tables p table := (same.kernelTable p).mpr table
  settled p i table _ := by rw [same.rows p table]
  root := same.root
  trace := ⟨[], by simp [same.trace], fun p backed => .inl (same.symm.backs backed)⟩

theorem Allocated.grew {k k' : Kernel} {va : Word} (allocated : Allocated k k' va) : Grew k k' where
  keepsUse p used := (allocated.keeps p used).1
  shrinks := allocated.shrinks
  backs := allocated.backs
  tables := allocated.tables
  settled := allocated.settled
  root := allocated.root
  trace := ⟨[va], allocated.trace, fun p backed => by simpa using allocated.backsOnly p backed⟩

theorem Grew.refl (k : Kernel) : Grew k k := (SameKernel.refl k).grew

theorem Grew.trans {k k' k'' : Kernel} (first : Grew k k') (second : Grew k' k'') : Grew k k'' where
  keepsUse p used := second.keepsUse p (first.keepsUse p used)
  shrinks p free := first.shrinks p (second.shrinks p free)
  backs p backed := second.backs p (first.backs p backed)
  tables p table := second.tables p (first.tables p table)
  settled p i table valid := by
    have before := first.settled p i table valid
    rw [second.settled p i (first.tables p table) (by rw [before]; exact valid), before]
  root := second.root.trans first.root
  trace := by
    obtain ⟨pages, trace, only⟩ := first.trace
    obtain ⟨pages', trace', only'⟩ := second.trace
    refine ⟨pages ++ pages', by simp [trace, trace'], fun p backed => ?_⟩
    rw [List.mem_append]
    rcases only' p backed with before | new
    · exact (only p before).imp_right .inl
    · exact .inr (.inr new)

-- Whether the allocator can hand out `count` more pages.
def canAlloc : Nat → Kernel → Bool
  | 0, _ => true
  | count + 1, k =>
    let taken := memKernelAllocPage k .rw
    taken.1.err == .ok && canAlloc count taken.2

section SamePick

variable {k k' : Kernel} (same : SameKernel k k') (wf : KernelWf k)

include same

theorem SameKernel.pick : k'.pick = k.pick := by
  obtain ⟨_, same2, _⟩ := same.levels
  have row2 := same.rows k.level2 (.inr (.inr (.inl rfl)))
  unfold Kernel.pick
  rw [same.map, same2]
  cases pmmGet k.memoryMap with
  | none => rfl
  | some result =>
    show (if mmuIsValid (k'.mem k.level2 _) = true then _ else _) = _
    rw [row2]

include wf

theorem SameKernel.handOut (n : Nat) (attr : Word) (there : k.hasLevel3 (poolIdx2 n)) :
    SameKernel (k.handOut n attr) (k'.handOut n attr) where
  map := by simp only [Kernel.handOut, same.map]
  trace := by simp only [Kernel.handOut, same.trace]
  root := same.root
  rows p table := by
    rw [(handOut_upper k wf n attr there).kernelTable] at table
    obtain ⟨_, _, same3, _⟩ := same.levels
    funext i
    simp only [handOut_mem, same3, put, same.rows p table]

theorem SameKernel.handOutNew (n q : Nat) (attr : Word) (insideQ : q < managed)
    (clearQ : marked k.memoryMap q = false) (missing : ¬ k.hasLevel3 (poolIdx2 n)) :
    SameKernel (k.handOutNew n q attr) (k'.handOutNew n q attr) where
  map := by simp only [Kernel.handOutNew, same.map]
  trace := by simp only [Kernel.handOutNew, same.trace]
  root := same.root
  rows p table := by
    rw [handOutNew_kernelTable k wf n q attr insideQ clearQ missing] at table
    obtain ⟨_, same2, _⟩ := same.levels
    simp only [handOutNew_mem, same2]
    by_cases fresh : p = poolVa q
    · subst fresh
      funext i
      simp [put, putPage]
    · have row := same.rows p (table.resolve_right fresh)
      funext i
      simp [put, putPage, fresh, row]

theorem SameKernel.alloc (perm : MemPerm) :
    (memKernelAllocPage k' perm).1 = (memKernelAllocPage k perm).1 ∧
      SameKernel (memKernelAllocPage k perm).2 (memKernelAllocPage k' perm).2 := by
  cases known : kernelAttr perm with
  | none => simp [memKernelAllocPage, known, same]
  | some attr =>
    rw [memKernelAllocPage_eq k wf perm attr known,
      memKernelAllocPage_eq k' (same.wf wf) perm attr known, same.pick]
    rcases found : k.pick with _ | ⟨n, _ | q⟩
    · exact ⟨rfl, same⟩
    · obtain ⟨_, _, there⟩ := pick_table k wf n found
      exact ⟨rfl, same.handOut wf n attr there⟩
    · obtain ⟨_, insideQ, _, _, clearQ, missing⟩ := pick_noTable k n q found
      exact ⟨rfl, same.handOutNew wf n q attr insideQ clearQ missing⟩

end SamePick

theorem kernelAttr_rw :
    kernelAttr .rw = some (attApNaRw ||| attPxnNoexec ||| attUxnNoexec) := rfl

theorem memKernelAllocPage_rw (k : Kernel) (wf : KernelWf k) :
    memKernelAllocPage k .rw = (⟨0, .memOom⟩, k) ∨
      ∃ va k', memKernelAllocPage k .rw = (⟨va, .ok⟩, k') ∧ Allocated k k' va :=
  memKernelAllocPage_spec k wf .rw _ kernelAttr_rw

theorem taken_allocated {k k₁ : Kernel} {va : Word} (wf : KernelWf k) (taken : memKernelAllocPage k .rw = (⟨va, .ok⟩, k₁)) :
    Allocated k k₁ va := by
  rcases memKernelAllocPage_rw k wf with oom | ⟨_, _, again, allocated⟩
  · rw [taken] at oom
    cases oom
  · rw [taken] at again
    cases again
    exact allocated

-- The only failure is that no page is left.
theorem alloc_failed {k k₁ : Kernel} {va : Word} {err : KernErr} (wf : KernelWf k) (failed : err ≠ .ok)
    (result : memKernelAllocPage k .rw = (⟨va, err⟩, k₁)) : va = 0 ∧ err = .memOom ∧ k₁ = k := by
  rcases memKernelAllocPage_rw k wf with oom | ⟨_, _, taken, _⟩
  · rw [result] at oom
    cases oom
    exact ⟨rfl, rfl, rfl⟩
  · rw [result] at taken
    cases taken
    exact absurd rfl failed

theorem canAlloc_oom (k : Kernel) (count : Nat) (oom : memKernelAllocPage k .rw = (⟨0, .memOom⟩, k)) :
    canAlloc (count + 1) k = false := by
  simp [canAlloc, oom]

theorem canAlloc_next (k k' : Kernel) (va : Word) (count : Nat)
    (taken : memKernelAllocPage k .rw = (⟨va, .ok⟩, k')) :
    canAlloc (count + 1) k = canAlloc count k' := by
  simp [canAlloc, taken]

theorem canAlloc_less (k : Kernel) (m n : Nat) (fewer : m ≤ n) (enough : canAlloc n k = true) : canAlloc m k = true := by
  induction m generalizing n k with
  | zero => rfl
  | succ m ih =>
    obtain ⟨n, rfl⟩ : ∃ l, n = l + 1 := ⟨n - 1, by omega⟩
    simp only [canAlloc, Bool.and_eq_true] at enough ⊢
    exact ⟨enough.1, ih _ n (by omega) enough.2⟩

/-- Pages that are free and whose level-3 tables are all there. -/
structure Stocked (k : Kernel) (pages : Finset Nat) : Prop where
  wf : KernelWf k
  tables : ∀ n, n < managed → marked k.memoryMap n = false → k.hasLevel3 (poolIdx2 n)
  free : ∀ n, n ∈ pages → n < managed ∧ marked k.memoryMap n = false

theorem Stocked.next {k : Kernel} {pages : Finset Nat} (stocked : Stocked k pages) (some : pages.Nonempty) :
    ∃ n k', memKernelAllocPage k .rw = (⟨poolVa n, .ok⟩, k') ∧ Stocked k' (pages.erase n) := by
  obtain ⟨wf, tables, free⟩ := stocked
  obtain ⟨m, member⟩ := some
  have picked : ∃ n, k.pick = .some (n, none) := by
    unfold Kernel.pick
    cases taken : pmmGet k.memoryMap with
    | none =>
      have full := pmmGet_none _ taken m (free m member).1
      rw [(free m member).2] at full
      cases full
    | some result =>
      obtain ⟨page, map⟩ := result
      obtain ⟨n, inside, rfl, clear, rfl⟩ := pmmGet_some _ _ _ taken
      refine ⟨n, ?_⟩
      simp only [pmmPage_poolPage n inside, (tables n inside clear).1, if_true]
  obtain ⟨n, picked⟩ := picked
  obtain ⟨inside, clear, there⟩ := pick_table k wf n picked
  have after := (handOut_upper k wf n (attApNaRw ||| attPxnNoexec ||| attUxnNoexec) there).levels
  have bit (p : Nat) : marked (k.handOut n (attApNaRw ||| attPxnNoexec ||| attUxnNoexec)).memoryMap p =
      (decide (p = n) || marked k.memoryMap p) := marked_pmmMark_pool _ n p inside
  refine ⟨n, _, by rw [memKernelAllocPage_eq k wf .rw _ rfl, picked]; rfl,
    handOut_wf k wf n _ there inside, fun p low empty => ?_, fun p rest => ?_⟩
  · rw [bit, Bool.or_eq_false_iff] at empty
    exact (after.2.2.2 _).mpr (tables p low empty.2)
  · obtain ⟨other, before⟩ := Finset.mem_erase.mp rest
    exact ⟨(free p before).1, by rw [bit, decide_eq_false other, (free p before).2]; rfl⟩

theorem Stocked.allocs {k : Kernel} {pages : Finset Nat} (stocked : Stocked k pages) (count : Nat)
    (enough : count ≤ pages.card) : canAlloc count k = true := by
  induction count generalizing k pages with
  | zero => rfl
  | succ count ih =>
    obtain ⟨n, k', taken, rest⟩ := stocked.next (Finset.card_pos.mp (by omega))
    rw [canAlloc_next k k' _ count taken]
    exact ih rest (by have := Finset.pred_card_le_card_erase (a := n) (s := pages); omega)

theorem SameKernel.allocs {k k' : Kernel} (same : SameKernel k k') (wf : KernelWf k) (count : Nat) :
    canAlloc count k' = canAlloc count k := by
  induction count generalizing k k' with
  | zero => rfl
  | succ count ih =>
    obtain ⟨result, after⟩ := same.alloc wf .rw
    rcases memKernelAllocPage_rw k wf with oom | ⟨va, next, taken, allocated⟩
    · rw [oom] at result
      have other := memKernelAllocPage_rw k' (same.wf wf)
      rcases other with oom' | ⟨va, next, taken, _⟩
      · rw [canAlloc_oom k count oom, canAlloc_oom k' count oom']
      · simp [taken] at result
    · rcases memKernelAllocPage_rw k' (same.wf wf) with oom' | ⟨va', next', taken', _⟩
      · simp [taken, oom'] at result
      · rw [taken, taken'] at after
        rw [canAlloc_next k next va count taken, canAlloc_next k' next' va' count taken']
        exact ih after allocated.wf

def Kernel.takeBack (k : Kernel) (n : Nat) : Kernel :=
  { k with
    mem := put k.mem (k.level3 (poolIdx2 n)) (poolIdx3 n) 0
    memoryMap := pmmFree k.memoryMap (poolPage n)
    trace := k.trace ++ [.freed (poolPage n)] }

theorem takeBack_mem (k : Kernel) (n : Nat) :
    (k.takeBack n).mem = put k.mem (k.level3 (poolIdx2 n)) (poolIdx3 n) 0 := rfl

theorem freeRange_page (k : Kernel) (n : Nat) (inside : n < managed) :
    freeRange k (poolPage n) pageSize =
      { k with
        memoryMap := pmmFree k.memoryMap (poolPage n)
        trace := k.trace ++ [.freed (poolPage n)] } := by
  have value := poolPage_toNat n inside
  rw [managed_eq] at inside
  have grows : poolPage n < poolPage n + pageSize := by
    unfold pageSize
    bv_omega
  have one : (pageSize / pageSize).toNat = 1 := by decide
  unfold freeRange
  rw [if_pos grows, one]
  simp

theorem kernelRemove_table (k : Kernel) (vaddr : Word) (i : Nat) (level : Word) (j : Idx)
    (idx : List Idx) (upper : i ≠ 3) (valid : mmuIsValid (k.mem level j) = true)
    (table : mmuIsBlock (k.mem level j) = false) :
    kernelRemove k vaddr i level (j :: idx) =
      kernelRemove k vaddr (i + 1) (mmuGetVaddr (k.mem level j)) idx := by
  simp [kernelRemove, valid, table, upper]

theorem memKernelFreePage_mapped (k : Kernel) (present0 : mmuIsValid (k.mem k.kernelTable 0) = true)
    (present1 : mmuIsValid (k.mem k.level1 0) = true) (table0 : mmuIsBlock (k.mem k.kernelTable 0) = false)
    (table1 : mmuIsBlock (k.mem k.level1 0) = false) (n : Nat) (inside : n < managed)
    (there : k.hasLevel3 (poolIdx2 n))
    (valid : mmuIsValid (k.mem (k.level3 (poolIdx2 n)) (poolIdx3 n)) = true) :
    memKernelFreePage k (poolVa n) = .ok (.ok, k.takeBack n) := by
  unfold memKernelFreePage mmuGetTableIdx
  rw [poolVa_upper n inside]
  simp only [List.cons_append, List.nil_append]
  rw [kernelRemove_table k _ 0 _ _ _ (by decide) present0 table0]
  rw [show mmuGetVaddr (k.mem k.kernelTable 0) = k.level1 from rfl,
    kernelRemove_table k _ 1 _ _ _ (by decide) present1 table1]
  rw [show mmuGetVaddr (k.mem k.level1 0) = k.level2 from rfl,
    kernelRemove_table k _ 2 _ _ _ (by decide) there.1 there.2]
  rw [show mmuGetVaddr (k.mem k.level2 (poolIdx2 n)) = k.level3 (poolIdx2 n) from rfl,
    show leafIdx (poolVa n) = poolIdx3 n from rfl]
  simp [kernelRemove, valid, freeRange_page _ n inside, Kernel.takeBack, Kernel.write]

theorem memKernelFreePage_backed (k : Kernel) (wf : KernelWf k) (n : Nat) (inside : n < managed)
    (there : k.hasLevel3 (poolIdx2 n))
    (valid : mmuIsValid (k.mem (k.level3 (poolIdx2 n)) (poolIdx3 n)) = true) :
    memKernelFreePage k (poolVa n) = .ok (.ok, k.takeBack n) :=
  memKernelFreePage_mapped k wf.present0 wf.present1 wf.table0 wf.table1 n inside there valid

/-- What mem_kernel_free_page does to a page that the allocator handed out. -/
structure Freed (k k' : Kernel) (va : Word) : Prop where
  wf : KernelWf k'
  free : ∀ p, Free k' p ↔ Free k p ∨ p = va
  marks : ∀ p, Marked k' p ↔ Marked k p ∧ p ≠ va
  tables : ∀ p, KernelTable k' p ↔ KernelTable k p
  backed : ∀ p, Backed k p → p ≠ va → Backed k' p
  content : ∀ p, ¬ KernelTable k p → k'.mem p = k.mem p
  root : k'.kernelTable = k.kernelTable

theorem Freed.inUse {k k' : Kernel} {va : Word} (freed : Freed k k' va) (p : Word) :
    InUse k' p ↔ InUse k p ∧ p ≠ va := by
  simp only [InUse, freed.marks, freed.tables]
  tauto

section TakeBack

variable (k : Kernel) (wf : KernelWf k) (n : Nat) (there : k.hasLevel3 (poolIdx2 n))

include wf there

theorem takeBack_upper : SameUpper k (k.takeBack n) := by
  obtain ⟨away0, away1, away2⟩ := wf.apart3 _ there
  have away (p : Word) (other : p ≠ k.level3 (poolIdx2 n)) : (k.takeBack n).mem p = k.mem p := by
    rw [takeBack_mem, put_page_other _ _ _ _ _ other]
  exact ⟨rfl, away _ away0.symm, away _ away1.symm, away _ away2.symm⟩

omit wf there in
theorem takeBack_bit (inside : n < managed) (m : Nat) :
    marked (k.takeBack n).memoryMap m = (marked k.memoryMap m && !decide (m = n)) :=
  marked_pmmFree_pool _ n m inside

omit wf there in
theorem takeBack_free (inside : n < managed) (p : Word) :
    Free (k.takeBack n) p ↔ Free k p ∨ p = poolVa n := by
  constructor
  · rintro ⟨m, insideM, rfl, clear⟩
    rw [takeBack_bit k n inside, Bool.and_eq_false_iff] at clear
    rcases clear with clear | here
    · exact .inl ⟨m, insideM, rfl, clear⟩
    · have equal : m = n := by simpa using here
      exact .inr (by rw [equal])
  · rintro (⟨m, insideM, rfl, clear⟩ | rfl)
    · exact ⟨m, insideM, rfl, by rw [takeBack_bit k n inside, clear, Bool.false_and]⟩
    · exact ⟨n, inside, rfl, by simp [takeBack_bit k n inside]⟩

omit wf there in
theorem takeBack_marked (inside : n < managed) (p : Word) :
    Marked (k.takeBack n) p ↔ Marked k p ∧ p ≠ poolVa n := by
  constructor
  · rintro ⟨m, insideM, rfl, set⟩
    rw [takeBack_bit k n inside, Bool.and_eq_true] at set
    have other : m ≠ n := by simpa using set.2
    exact ⟨⟨m, insideM, rfl, set.1⟩, fun same => other (poolVa_inj m n insideM inside same)⟩
  · rintro ⟨⟨m, insideM, rfl, set⟩, other⟩
    have different : m ≠ n := fun same => other (by rw [same])
    exact ⟨m, insideM, rfl, by simp [takeBack_bit k n inside, set, different]⟩

theorem takeBack_wf (inside : n < managed) (ours : ¬ KernelTable k (poolVa n)) :
    KernelWf (k.takeBack n) := by
  refine (takeBack_upper k wf n there).wf wf (fun va kernelPage free => ?_) fun m insideM clear table => ?_
  · rcases (takeBack_free k n inside va).mp free with before | rfl
    · exact wf.busy va kernelPage before
    · exact ours kernelPage
  · rw [takeBack_mem]
    by_cases here : m = n
    · subst here
      rw [put_same]
      exact isValid_zero
    · rw [takeBack_bit k n inside, decide_eq_false here, Bool.not_false, Bool.and_true] at clear
      rw [put_other _ _ _ _ _ _ (wf.entries_apart insideM inside here table there)]
      exact wf.unmapped m insideM clear table

theorem takeBack_freed (inside : n < managed) (ours : ¬ KernelTable k (poolVa n)) :
    Freed k (k.takeBack n) (poolVa n) where
  wf := takeBack_wf k wf n there inside ours
  free := takeBack_free k n inside
  marks := takeBack_marked k n inside
  tables := (takeBack_upper k wf n there).kernelTable
  root := rfl
  content p other := by
    have different : p ≠ k.level3 (poolIdx2 n) := by
      rintro rfl
      exact other (.inr (.inr (.inr ⟨_, there, rfl⟩)))
    rw [takeBack_mem, put_page_other _ _ _ _ _ different]
  backed := by
    rintro p ⟨m, insideM, rfl, set, table, valid⟩ other
    have different : m ≠ n := fun same => other (by rw [same])
    obtain ⟨_, _, same3, same⟩ := (takeBack_upper k wf n there).levels
    refine ⟨m, insideM, rfl, ?_, (same _).mpr table, ?_⟩
    · simp [takeBack_bit k n inside, set, different]
    · rw [same3, takeBack_mem, put_other]
      · exact valid
      · exact wf.entries_apart insideM inside different table there

end TakeBack

/-- Freeing a page the allocator mapped gives the page back and nothing else. -/
theorem memKernelFreePage_spec (k : Kernel) (wf : KernelWf k) (va : Word) (backed : Backed k va)
    (ours : ¬ KernelTable k va) :
    ∃ k', memKernelFreePage k va = .ok (.ok, k') ∧ Freed k k' va := by
  obtain ⟨n, inside, rfl, _, there, valid⟩ := backed
  exact ⟨_, memKernelFreePage_backed k wf n inside there valid,
    takeBack_freed k wf n there inside ours⟩

end Anthill
