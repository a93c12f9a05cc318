import Anthill.KernelPool

set_option autoImplicit false

namespace Anthill

open Radix

-- The table that an entry above level 3 names.
def tableNav (entry : Word) : Option Word :=
  if mmuIsValid entry && !mmuIsBlock entry then some (mmuGetVaddr entry) else none

-- The level and the entry at which the walk over a table ends.
def walk (m : Mem) : Nat → Word → List Idx → Option (Nat × Word)
  | _, _, [] => none
  | level, p, i :: idx =>
    if !mmuIsValid (m p i) then none
    else if level = 3 ∨ mmuIsBlock (m p i) then some (level, m p i)
    else walk m (level + 1) (mmuGetVaddr (m p i)) idx

def Kernel.translation (k : Kernel) (va : Word) : Option (Nat × Word) :=
  walk k.mem 0 k.kernelTable (mmuGetTableIdx va)

-- The bits of an address that a translation of the level leaves alone.
def offsetMask (level : Nat) : Word := ((1 : Word) <<< (12 + 9 * (3 - level))) - 1

def physAddr (va : Word) (found : Nat × Word) : Word :=
  (found.2 &&& vaddrMask &&& ~~~offsetMask found.1) ||| (va &&& offsetMask found.1)

def Kernel.tableAt (k : Kernel) (q : List Idx) : Option Word := node tableNav k.mem k.kernelTable q

/-- Indices that lead to a table without the recursive slot. -/
def TablePath (q : List Idx) : Prop := q.length ≤ 3 ∧ q.head? ≠ some 511

def Kernel.Table (k : Kernel) (p : Word) : Prop := ∃ q, TablePath q ∧ k.tableAt q = some p

/-- The kernel's tables are a tree, with the recursive slot and the upper tables of the pool. -/
structure KernelShape (k : Kernel) : Prop where
  recursive : tableNav (k.mem k.kernelTable 511) = some k.kernelTable
  present0 : tableNav (k.mem k.kernelTable 0) = some k.level1
  present1 : tableNav (k.mem k.level1 0) = some k.level2
  tree : ∀ q q' p, TablePath q → TablePath q' → k.tableAt q = some p → k.tableAt q' = some p → q = q'

theorem tableNav_some (entry va : Word) : tableNav entry = some va ↔
    mmuIsValid entry = true ∧ mmuIsBlock entry = false ∧ mmuGetVaddr entry = va := by
  cases valid : mmuIsValid entry <;> cases block : mmuIsBlock entry <;> simp [tableNav, valid, block]

theorem walk_congr (m m' : Mem) (level : Nat) (p : Word) (idx : List Idx)
    (same : ∀ q i rest p', idx = q ++ i :: rest → node tableNav m p q = some p' → m' p' i = m p' i) :
    walk m' level p idx = walk m level p idx := by
  induction idx generalizing level p with
  | nil => rfl
  | cons i idx ih =>
    rw [walk, walk, same [] i idx p rfl rfl]
    split_ifs with invalid last
    · rfl
    · rfl
    · refine ih (level + 1) _ fun q j rest p' split there => same (i :: q) j rest p' (by rw [split]; rfl) ?_
      have named : tableNav (m p i) = some (mmuGetVaddr (m p i)) := by
        rw [not_or, Bool.not_eq_true] at last
        exact (tableNav_some _ _).mpr ⟨by simpa using invalid, last.2, rfl⟩
      rw [node_cons, named]
      exact there

section Shape

variable {k k' : Kernel} (shape : KernelShape k)

include shape

-- The recursive slot leads back to where it is.
theorem KernelShape.tableAt_drop (q : List Idx) : k.tableAt q = k.tableAt (q.dropWhile (· = 511)) := by
  induction q with
  | nil => rfl
  | cons i q ih =>
    by_cases slot : i = 511
    · rw [List.dropWhile_cons_of_pos (by simpa using slot), ← ih, slot, Kernel.tableAt, node_cons, shape.recursive]
      rfl
    · rw [List.dropWhile_cons_of_neg (by simpa using slot)]

omit shape in
theorem tablePath_drop (q : List Idx) (short : q.length ≤ 3) : TablePath (q.dropWhile (· = 511)) := by
  refine ⟨(List.dropWhile_suffix _).length_le.trans short, fun slot => ?_⟩
  have head := List.head?_dropWhile_not (fun i : Idx => decide (i = 511)) q
  rw [slot] at head
  simp at head

/-- A walk that reads a table comes to it by its path, behind turns through the recursive slot. -/
theorem KernelShape.reads (q : List Idx) (short : q.length ≤ 3) (p : Word) (there : k.tableAt q = some p)
    (path : List Idx) (proper : TablePath path) (here : k.tableAt path = some p) :
    q.dropWhile (· = 511) = path := by
  rw [shape.tableAt_drop] at there
  exact shape.tree _ _ p (tablePath_drop q short) proper there here

theorem KernelShape.level1_at : k.tableAt [0] = some k.level1 := by
  rw [Kernel.tableAt, node_cons, shape.present0]
  rfl

theorem KernelShape.level2_at : k.tableAt [0, 0] = some k.level2 := by
  rw [Kernel.tableAt, node_cons, shape.present0, Option.bind_some, node_cons, shape.present1]
  rfl

theorem KernelShape.below (j : Idx) (q : List Idx) :
    k.tableAt (0 :: 0 :: j :: q) = (tableNav (k.mem k.level2 j)).bind fun p => node tableNav k.mem p q := by
  rw [Kernel.tableAt, node_cons, shape.present0, Option.bind_some, node_cons, shape.present1, Option.bind_some,
    node_cons]

-- The recursive window: one turn through the slot shows the level-3 tables as pages.
theorem KernelShape.window (va : Word) (j : Idx) (here : mmuGetTableIdx va = [511, 0, 0, j]) :
    k.translation va = if mmuIsValid (k.mem k.level2 j) then some (3, k.mem k.level2 j) else none := by
  obtain ⟨valid, block, name⟩ := (tableNav_some _ _).mp shape.recursive
  obtain ⟨valid0, block0, name0⟩ := (tableNav_some _ _).mp shape.present0
  obtain ⟨valid1, block1, name1⟩ := (tableNav_some _ _).mp shape.present1
  rw [Kernel.translation, here]
  simp only [walk, valid, block, name, valid0, block0, name0, valid1, block1, name1]
  cases mmuIsValid (k.mem k.level2 j) <;> simp

omit shape in
theorem drop_whole (q path : List Idx) (drop : q.dropWhile (· = 511) = path) (short : q.length ≤ path.length) :
    q = path := by
  rw [← drop] at short ⊢
  exact ((List.dropWhile_suffix _).eq_of_length_le short).symm

omit shape in
theorem drop_one (q path : List Idx) (drop : q.dropWhile (· = 511) = path) (short : q.length ≤ path.length + 1) :
    q = path ∨ q = 511 :: path := by
  cases q with
  | nil => exact .inl drop
  | cons i q =>
    by_cases slot : i = 511
    · rw [List.dropWhile_cons_of_pos (by simpa using slot)] at drop
      exact .inr (by rw [slot, drop_whole q path drop (by simpa using short)])
    · rw [List.dropWhile_cons_of_neg (by simpa using slot)] at drop
      exact .inl drop

end Shape

section Leaf

variable {k k' : Kernel} (shape : KernelShape k) {j i : Idx} {p e : Word}
  (there : tableNav (k.mem k.level2 j) = some p) (root : k'.kernelTable = k.kernelTable)
  (mem : k'.mem = put k.mem p i e)

include shape there

theorem KernelShape.level3_at : k.tableAt [0, 0, j] = some p := by
  rw [shape.below, there]
  rfl

theorem KernelShape.reads_level3 (q : List Idx) (short : q.length ≤ 3) (here : k.tableAt q = some p) :
    q = [0, 0, j] :=
  drop_whole q _ (shape.reads q short p here [0, 0, j] ⟨by simp, by simp⟩ (shape.level3_at there)) short

include root mem

theorem KernelShape.leaf_tableAt (q : List Idx) (short : q.length ≤ 3) : k'.tableAt q = k.tableAt q := by
  rw [Kernel.tableAt, Kernel.tableAt, root]
  refine node_congr_read tableNav k.mem k'.mem k.kernelTable q fun q₁ a q₂ c split here => ?_
  rw [mem, put_page_other _ _ _ _ _ ?_]
  rintro rfl
  rw [split, List.length_append, List.length_cons] at short
  have whole := shape.reads_level3 there q₁ (by omega) here
  rw [whole] at short
  simp only [List.length_cons, List.length_nil] at short
  omega

omit root in
theorem KernelShape.leaf_rows : k'.mem k.kernelTable = k.mem k.kernelTable ∧ k'.mem k.level1 = k.mem k.level1 ∧
    k'.mem k.level2 = k.mem k.level2 := by
  have away (q : List Idx) (t : Word) (short : q.length < 3) (here : k.tableAt q = some t) : k'.mem t = k.mem t := by
    rw [mem, put_page_other _ _ _ _ _ ?_]
    rintro rfl
    have whole := shape.reads_level3 there q (by omega) here
    rw [whole] at short
    simp at short
  exact ⟨away [] _ (by simp) rfl, away [0] _ (by simp) shape.level1_at, away [0, 0] _ (by simp) shape.level2_at⟩

theorem KernelShape.leaf_levels : k'.level1 = k.level1 ∧ k'.level2 = k.level2 := by
  obtain ⟨row0, row1, -⟩ := shape.leaf_rows there mem
  exact Kernel.levels_eq k k' root row0 row1

theorem KernelShape.leaf : KernelShape k' := by
  obtain ⟨row0, row1, -⟩ := shape.leaf_rows there mem
  obtain ⟨same1, same2⟩ := shape.leaf_levels there root mem
  have kept := shape.leaf_tableAt there root mem
  refine ⟨?_, ?_, ?_, fun q q' t path path' here here' => ?_⟩
  · rw [root, row0]
    exact shape.recursive
  · rw [root, row0, same1]
    exact shape.present0
  · rw [same1, same2, row1]
    exact shape.present1
  · rw [kept _ path.1] at here
    rw [kept _ path'.1] at here'
    exact shape.tree q q' t path path' here here'

theorem KernelShape.leaf_table (t : Word) : k'.Table t ↔ k.Table t := by
  have kept := shape.leaf_tableAt there root mem
  constructor <;> rintro ⟨q, path, here⟩ <;> refine ⟨q, path, ?_⟩
  · rwa [kept q path.1] at here
  · rwa [kept q path.1]

theorem KernelShape.leaf_others (va : Word) (other : mmuGetTableIdx va ≠ [0, 0, j, i]) :
    k'.translation va = k.translation va := by
  rw [Kernel.translation, Kernel.translation, root]
  refine walk_congr k.mem k'.mem 0 k.kernelTable _ fun q a rest t split here => ?_
  have size := congrArg List.length split
  simp only [mmuGetTableIdx_length, List.length_append, List.length_cons] at size
  rw [mem, put_other]
  by_contra both
  push Not at both
  obtain ⟨rfl, rfl⟩ := both
  have whole := shape.reads_level3 there q (by omega) here
  rw [whole] at split size
  obtain rfl : rest = [] := List.eq_nil_of_length_eq_zero (by simp at size; omega)
  exact other split

theorem KernelShape.leaf_here (va : Word) (here : mmuGetTableIdx va = [0, 0, j, i]) :
    k'.translation va = if mmuIsValid e then some (3, e) else none := by
  obtain ⟨row0, row1, row2⟩ := shape.leaf_rows there mem
  obtain ⟨valid0, block0, name0⟩ := (tableNav_some _ _).mp shape.present0
  obtain ⟨valid1, block1, name1⟩ := (tableNav_some _ _).mp shape.present1
  obtain ⟨valid2, block2, name2⟩ := (tableNav_some _ _).mp there
  rw [Kernel.translation, root, here]
  simp only [walk, row0, valid0, block0, name0, row1, valid1, block1, name1, row2, valid2, block2, name2, mem, put_same]
  cases mmuIsValid e <;> simp

end Leaf

section NewTable

variable {k k' : Kernel} (shape : KernelShape k) {j : Idx} {p : Word} (page : IsPage p)
  (missing : mmuIsValid (k.mem k.level2 j) = false) (fresh : ¬ k.Table p) (root : k'.kernelTable = k.kernelTable)
  (mem : k'.mem = putPage (put k.mem k.level2 j (tableEntry p)) p fun _ => 0)

include shape

theorem KernelShape.reads_level2 (q : List Idx) (short : q.length ≤ 3) (here : k.tableAt q = some k.level2) :
    q = [0, 0] ∨ q = [511, 0, 0] :=
  drop_one q _ (shape.reads q short _ here [0, 0] ⟨by simp, by simp⟩ shape.level2_at) short

include fresh in
theorem KernelShape.reads_fresh (q : List Idx) (short : q.length ≤ 3) : k.tableAt q ≠ some p := by
  intro here
  rw [shape.tableAt_drop] at here
  exact fresh ⟨_, tablePath_drop q short, here⟩

include fresh root mem

omit root in
theorem KernelShape.new_rows : k'.mem k.kernelTable = k.mem k.kernelTable ∧ k'.mem k.level1 = k.mem k.level1 ∧
    k'.mem k.level2 j = tableEntry p := by
  have other (q : List Idx) (t : Word) (short : q.length ≤ 3) (here : k.tableAt q = some t) : t ≠ p := by
    rintro rfl
    exact shape.reads_fresh fresh q short here
  have away (q : List Idx) (t : Word) (short : q.length < 2) (here : k.tableAt q = some t) : k'.mem t = k.mem t := by
    rw [mem, putPage_other _ _ _ _ (other q t (by omega) here), put_page_other _ _ _ _ _ ?_]
    rintro rfl
    rcases shape.reads_level2 q (by omega) here with whole | whole <;> rw [whole] at short <;> simp at short
  refine ⟨away [] _ (by simp) rfl, away [0] _ (by simp) shape.level1_at, ?_⟩
  rw [mem, putPage_other _ _ _ _ (other [0, 0] _ (by simp) shape.level2_at), put_same]

theorem KernelShape.new_levels : k'.level1 = k.level1 ∧ k'.level2 = k.level2 := by
  obtain ⟨row0, row1, -⟩ := shape.new_rows fresh mem
  exact Kernel.levels_eq k k' root row0 row1

theorem KernelShape.new_tableAt (q : List Idx) (short : q.length ≤ 3) (other : q ≠ [0, 0, j]) :
    k'.tableAt q = k.tableAt q := by
  rw [Kernel.tableAt, Kernel.tableAt, root]
  refine node_congr_read tableNav k.mem k'.mem k.kernelTable q fun q₁ a q₂ t split here => ?_
  have size := congrArg List.length split
  simp only [List.length_append, List.length_cons] at size
  have away : t ≠ p := by
    rintro rfl
    exact shape.reads_fresh fresh q₁ (by omega) here
  rw [mem, putPage_other _ _ _ _ away, put_other]
  by_contra both
  push Not at both
  obtain ⟨rfl, rfl⟩ := both
  rcases shape.reads_level2 q₁ (by omega) here with whole | whole <;> rw [whole] at split size
  · obtain rfl : q₂ = [] := List.eq_nil_of_length_eq_zero (by simp at size; omega)
    exact other split
  · simp at size
    omega

include page in
theorem KernelShape.new_here : k'.tableAt [0, 0, j] = some p := by
  obtain ⟨row0, row1, row2⟩ := shape.new_rows fresh mem
  have named : tableNav (tableEntry p) = some p :=
    (tableNav_some _ _).mpr ⟨tableEntry_valid p page, tableEntry_block p page, tableEntry_vaddr p page⟩
  rw [Kernel.tableAt, root, node_cons, row0, shape.present0, Option.bind_some, node_cons, row1, shape.present1,
    Option.bind_some, node_cons, row2, named]
  rfl

include page in
theorem KernelShape.new : KernelShape k' := by
  obtain ⟨row0, row1, -⟩ := shape.new_rows fresh mem
  obtain ⟨same1, same2⟩ := shape.new_levels fresh root mem
  have kept := shape.new_tableAt fresh root mem
  have made := shape.new_here page fresh root mem
  refine ⟨?_, ?_, ?_, fun q q' t path path' here here' => ?_⟩
  · rw [root, row0]
    exact shape.recursive
  · rw [root, row0, same1]
    exact shape.present0
  · rw [same1, same2, row1]
    exact shape.present1
  · have only (q q' : List Idx) (path' : TablePath q') (here : k'.tableAt q = some t) (here' : k'.tableAt q' = some t)
        (first : q = [0, 0, j]) : q = q' := by
      by_contra other
      rw [first, made] at here
      rw [kept q' path'.1 fun same => other (first.trans same.symm), ← here] at here'
      exact fresh ⟨q', path', here'⟩
    by_cases first : q = [0, 0, j]
    · exact only q q' path' here here' first
    · by_cases second : q' = [0, 0, j]
      · exact (only q' q path here' here second).symm
      · rw [kept q path.1 first] at here
        rw [kept q' path'.1 second] at here'
        exact shape.tree q q' t path path' here here'

include page in
theorem KernelShape.new_table (missing : mmuIsValid (k.mem k.level2 j) = false) (t : Word) :
    k'.Table t ↔ k.Table t ∨ t = p := by
  have kept := shape.new_tableAt fresh root mem
  have made := shape.new_here page fresh root mem
  constructor
  · rintro ⟨q, path, here⟩
    by_cases first : q = [0, 0, j]
    · rw [first, made] at here
      exact .inr (Option.some.inj here).symm
    · rw [kept q path.1 first] at here
      exact .inl ⟨q, path, here⟩
  · rintro (⟨q, path, here⟩ | rfl)
    · refine ⟨q, path, ?_⟩
      rw [kept q path.1 ?_]
      · exact here
      · rintro rfl
        have none : tableNav (k.mem k.level2 j) = Option.none := by simp [tableNav, missing]
        rw [shape.below, none] at here
        cases here
    · exact ⟨_, ⟨by simp, by simp⟩, made⟩

include page missing in
theorem KernelShape.new_others (va : Word) (window : mmuGetTableIdx va ≠ [511, 0, 0, j]) :
    k'.translation va = k.translation va := by
  rw [Kernel.translation, Kernel.translation, root]
  by_cases below : ∃ x, mmuGetTableIdx va = [0, 0, j, x]
  · -- An address of the new table was unmapped for want of it, and now is for want of a page.
    obtain ⟨x, here⟩ := below
    obtain ⟨row0, row1, row2⟩ := shape.new_rows fresh mem
    obtain ⟨valid0, block0, name0⟩ := (tableNav_some _ _).mp shape.present0
    obtain ⟨valid1, block1, name1⟩ := (tableNav_some _ _).mp shape.present1
    have blank : k'.mem p x = 0 := by rw [mem, putPage_same]
    rw [here]
    simp only [walk, row0, valid0, block0, name0, row1, valid1, block1, name1, row2, missing,
      tableEntry_valid p page, tableEntry_block p page, tableEntry_vaddr p page, blank, isValid_zero]
    simp
  · refine walk_congr k.mem k'.mem 0 k.kernelTable _ fun q a rest t split here => ?_
    have size := congrArg List.length split
    simp only [mmuGetTableIdx_length, List.length_append, List.length_cons] at size
    have away : t ≠ p := by
      rintro rfl
      exact shape.reads_fresh fresh q (by omega) here
    rw [mem, putPage_other _ _ _ _ away, put_other]
    by_contra both
    push Not at both
    obtain ⟨rfl, rfl⟩ := both
    rcases shape.reads_level2 q (by omega) here with whole | whole <;> rw [whole] at split size
    · obtain ⟨x, rfl⟩ : ∃ x, rest = [x] := List.length_eq_one_iff.mp (by simp at size; omega)
      exact below ⟨x, split⟩
    · obtain rfl : rest = [] := List.eq_nil_of_length_eq_zero (by simp at size; omega)
      exact window split

end NewTable

end Anthill
