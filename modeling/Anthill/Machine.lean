import Anthill.UserPages

set_option autoImplicit false

namespace Anthill

open Radix

-- One entry of a table in pool page `page`.
structure Cell where
  page : Nat
  idx : Idx
  entry : Word
deriving DecidableEq, Repr

def cellEntry (cells : List Cell) (p : Word) (i : Idx) : Word :=
  match cells.find? fun cell => poolVa cell.page = p ∧ cell.idx = i with
  | some cell => cell.entry
  | none => 0

def kernelRw : Word := attApNaRw ||| attPxnNoexec ||| attUxnNoexec

def isKernelPage (p : Word) : Bool :=
  p = poolVa 0 ∨ p = poolVa 1 ∨ p = poolVa 2 ∨ p = poolVa 3

-- The kernel's tables in pool pages 0 to 3: one of each level. The last maps every page in use.
def kernelRow (free : List Nat) (p : Word) (i : Idx) : Word :=
  if p = poolVa 3 then
    if 128 ≤ i.val ∧ i.val - 128 ∉ free then kernelLeaf (poolPage (i.val - 128)) kernelRw else 0
  else if i = 0 then
    tableEntry (if p = poolVa 0 then poolVa 1 else if p = poolVa 1 then poolVa 2 else poolVa 3)
  else 0

/-- A machine in which the pages of `free` are free and `cells` are the entries of user tables. -/
def machine (cells : List Cell) (free : List Nat) : Kernel where
  mem p i := if isKernelPage p then kernelRow free p i else cellEntry cells p i
  memoryMap := free.foldl (fun map n => pmmFree map (poolPage n)) (fun _ => BitVec.allOnes 64)
  kernelTable := poolVa 0
  trace := []

theorem foldl_marked (free : List Nat) (map : MemoryMap) (inside : ∀ n, n ∈ free → n < managed)
    (m : Nat) : marked (free.foldl (fun map n => pmmFree map (poolPage n)) map) m =
      (marked map m && decide (m ∉ free)) := by
  induction free generalizing map with
  | nil => simp
  | cons n free ih =>
    rw [List.foldl_cons, ih _ fun k member => inside k (List.mem_cons_of_mem n member),
      marked_pmmFree_pool map n m (inside n List.mem_cons_self), Bool.and_assoc]
    congr 1
    rw [Bool.eq_iff_iff]
    simp [not_or]

theorem marked_full (m : Nat) : marked (fun _ => BitVec.allOnes 64) m = true := by
  rw [marked, BitVec.getLsbD_allOnes]
  exact decide_eq_true (mod_bitsOf_lt m)

section Machine

variable (cells : List Cell) (free : List Nat) (inside : ∀ n, n ∈ free → 4 ≤ n ∧ n < 384)

include inside

theorem machine_marked (m : Nat) :
    marked (machine cells free).memoryMap m = decide (m ∉ free) := by
  have small (n : Nat) (member : n ∈ free) : n < managed := by
    have bound := (inside n member).2
    rw [managed_eq]
    omega
  rw [machine, foldl_marked free _ small m, marked_full, Bool.true_and]

theorem machine_free (p : Word) : Free (machine cells free) p ↔ ∃ n, n ∈ free ∧ p = poolVa n := by
  constructor
  · rintro ⟨n, _, rfl, clear⟩
    rw [machine_marked cells free inside, decide_eq_false_iff_not, not_not] at clear
    exact ⟨n, clear, rfl⟩
  · rintro ⟨n, member, rfl⟩
    have bound := (inside n member).2
    refine ⟨n, by rw [managed_eq]; omega, rfl, ?_⟩
    rw [machine_marked cells free inside, decide_eq_false_iff_not, not_not]
    exact member

omit inside in
theorem machine_rows (i : Idx) :
    (machine cells free).mem (poolVa 0) i = (if i = 0 then tableEntry (poolVa 1) else 0) ∧
      (machine cells free).mem (poolVa 1) i = (if i = 0 then tableEntry (poolVa 2) else 0) ∧
      (machine cells free).mem (poolVa 2) i = (if i = 0 then tableEntry (poolVa 3) else 0) ∧
      (machine cells free).mem (poolVa 3) i =
        if 128 ≤ i.val ∧ i.val - 128 ∉ free then kernelLeaf (poolPage (i.val - 128)) kernelRw
        else 0 :=
  ⟨rfl, rfl, rfl, rfl⟩

omit inside in
theorem machine_levels :
    (machine cells free).level1 = poolVa 1 ∧ (machine cells free).level2 = poolVa 2 ∧
      ∀ j, (machine cells free).hasLevel3 j ↔ j = 0 := by
  have first : (machine cells free).level1 = poolVa 1 := by
    show mmuGetVaddr ((machine cells free).mem (poolVa 0) 0) = poolVa 1
    exact tableEntry_vaddr (poolVa 1) (isPage_poolVa 1 (by decide))
  have second : (machine cells free).level2 = poolVa 2 := by
    rw [Kernel.level2, first]
    exact tableEntry_vaddr (poolVa 2) (isPage_poolVa 2 (by decide))
  refine ⟨first, second, fun j => ?_⟩
  rw [Kernel.hasLevel3, second, (machine_rows cells free j).2.2.1]
  split_ifs with zero
  · simp [zero, tableEntry_valid _ (isPage_poolVa 3 (by decide)),
      tableEntry_block _ (isPage_poolVa 3 (by decide))]
  · rw [isValid_zero]
    simp [zero]

omit inside in
theorem machine_level3 : (machine cells free).level3 0 = poolVa 3 := by
  rw [Kernel.level3, (machine_levels cells free).2.1]
  exact tableEntry_vaddr (poolVa 3) (isPage_poolVa 3 (by decide))

omit inside in
theorem machine_kernelTable (p : Word) :
    KernelTable (machine cells free) p ↔ isKernelPage p = true := by
  obtain ⟨first, second, third⟩ := machine_levels cells free
  have top : (machine cells free).kernelTable = poolVa 0 := rfl
  have last : (∃ j, (machine cells free).hasLevel3 j ∧ p = (machine cells free).level3 j) ↔
      p = poolVa 3 := by
    simp only [third]
    constructor
    · rintro ⟨j, rfl, rfl⟩
      exact machine_level3 cells free
    · rintro rfl
      exact ⟨0, rfl, (machine_level3 cells free).symm⟩
  unfold KernelTable
  rw [first, second, last, top]
  simp [isKernelPage]

omit inside in
theorem poolIdx2_zero (n : Nat) (low : n < 384) : poolIdx2 n = 0 := by
  have value := poolVa_toNat n (by rw [managed_eq]; omega)
  apply Fin.ext
  rw [poolIdx2, tableIdx_val, value]
  simp only [Fin.val_zero]
  omega

omit inside in
theorem poolIdx3_low (n : Nat) (low : n < 384) : (poolIdx3 n).val = 128 + n := by
  have value := poolVa_toNat n (by rw [managed_eq]; omega)
  rw [poolIdx3, leafIdx, tableIdx_val, value]
  omega

omit inside in
theorem machine_leaf (n : Nat) (low : n < 384) :
    mmuIsValid ((machine cells free).mem (poolVa 3) (poolIdx3 n)) = decide (n ∉ free) := by
  rw [(machine_rows cells free (poolIdx3 n)).2.2.2, poolIdx3_low n low, Nat.add_sub_cancel_left]
  by_cases member : n ∈ free
  · rw [if_neg (fun both => both.2 member), isValid_zero]
    simp [member]
  · rw [if_pos ⟨by omega, member⟩, kernelLeaf_valid]
    simp [member]

theorem machine_wf : KernelWf (machine cells free) := by
  obtain ⟨first, second, third⟩ := machine_levels cells free
  have top : (machine cells free).kernelTable = poolVa 0 := rfl
  have row0 (i : Idx) := (machine_rows cells free i).1
  have row1 (i : Idx) := (machine_rows cells free i).2.1
  have row2 (i : Idx) := (machine_rows cells free i).2.2.1
  have valid (n : Nat) (low : n < managed) := tableEntry_valid _ (isPage_poolVa n low)
  have table (n : Nat) (low : n < managed) := tableEntry_block _ (isPage_poolVa n low)
  have apart (m n : Nat) (lowM : m < managed) (lowN : n < managed) (different : m ≠ n) :
      poolVa m ≠ poolVa n := fun same => different (poolVa_inj m n lowM lowN same)
  have only (m : Mem) (p : Word) (e : Word) (row : ∀ i, m p i = if i = 0 then e else 0) (i : Idx)
      (there : mmuIsValid (m p i) = true) : i = 0 := by
    by_contra other
    rw [row, if_neg other, isValid_zero] at there
    cases there
  constructor
  case present0 => exact valid 1 (by decide)
  case present1 => rw [first]; exact valid 2 (by decide)
  case table0 => exact table 1 (by decide)
  case table1 => rw [first]; exact table 2 (by decide)
  case top =>
    rw [top]
    exact fun i there other => absurd (only _ _ _ row0 i there) other
  case middle => rw [first]; exact only _ _ _ row1
  case poolTable =>
    intro n _ there
    rw [second] at there
    exact ((third _).mpr (only _ _ _ row2 _ there)).2
  case apart1 => rw [first]; exact apart 1 0 (by decide) (by decide) (by decide)
  case apart2 =>
    rw [first, second]
    exact ⟨apart 2 0 (by decide) (by decide) (by decide),
      apart 2 1 (by decide) (by decide) (by decide)⟩
  case apart3 =>
    intro j there
    rw [(third j).mp there, machine_level3, first, second]
    exact ⟨apart 3 0 (by decide) (by decide) (by decide),
      apart 3 1 (by decide) (by decide) (by decide), apart 3 2 (by decide) (by decide) (by decide)⟩
  case distinct3 => exact fun i j thereI thereJ _ => by rw [(third i).mp thereI, (third j).mp thereJ]
  case busy =>
    intro p kernelPage isFree
    rw [machine_kernelTable] at kernelPage
    obtain ⟨n, member, rfl⟩ := (machine_free cells free inside p).mp isFree
    obtain ⟨low, high⟩ := inside n member
    have away (m : Nat) (small : m < 4) : poolVa n ≠ poolVa m :=
      apart n m (by rw [managed_eq]; omega) (by rw [managed_eq]; omega) (by omega)
    rw [isKernelPage, decide_eq_true_eq] at kernelPage
    rcases kernelPage with same | same | same | same
    · exact away 0 (by decide) same
    · exact away 1 (by decide) same
    · exact away 2 (by decide) same
    · exact away 3 (by decide) same
  case unmapped =>
    intro n _ clear there
    rw [machine_marked cells free inside, decide_eq_false_iff_not, not_not] at clear
    rw [(third _).mp there, machine_level3, machine_leaf cells free n (inside n clear).2]
    simp [clear]

theorem machine_backed (n : Nat) (low : n < 384) (busy : n ∉ free) :
    Backed (machine cells free) (poolVa n) := by
  obtain ⟨_, _, third⟩ := machine_levels cells free
  refine ⟨n, by rw [managed_eq]; omega, rfl, ?_, ?_, ?_⟩
  · rw [machine_marked cells free inside]
    simpa using busy
  · rw [poolIdx2_zero n low]
    exact (third 0).mpr rfl
  · rw [poolIdx2_zero n low, machine_level3, machine_leaf cells free n low]
    simpa using busy

end Machine

theorem machine_stocked (cells : List Cell) (free : List Nat) (inside : ∀ n, n ∈ free → 4 ≤ n ∧ n < 384) :
    Stocked (machine cells free) free.toFinset where
  wf := machine_wf cells free inside
  tables n _ clear := by
    rw [machine_marked cells free inside, decide_eq_false_iff_not, not_not] at clear
    rw [poolIdx2_zero n (inside n clear).2]
    exact ((machine_levels cells free).2.2 0).mpr rfl
  free n member := by
    rw [List.mem_toFinset] at member
    have bound := (inside n member).2
    rw [machine_marked cells free inside, decide_eq_false_iff_not, not_not]
    exact ⟨by rw [managed_eq]; omega, member⟩

-- Which pool pages hold user tables, and the indices that lead to each.
abbrev Tables := List (Nat × List Idx)

def posOf (tables : Tables) : Pos := fun p =>
  (tables.find? fun table => poolVa table.1 = p).map fun table => table.2

/-- The entries of the user tables fit the indices that the tables are listed with. -/
def Fits (cells : List Cell) (free : List Nat) (tables : Tables) : Prop :=
  (∀ n, n ∈ free → 4 ≤ n ∧ n < 384) ∧ (∀ cell, cell ∈ cells → cell.page < 384) ∧
  (∀ table, table ∈ tables → 4 ≤ table.1 ∧ table.1 < 384 ∧ table.1 ∉ free ∧ table.2.length ≤ 3) ∧
  ∀ cell, cell ∈ cells → ∀ table, table ∈ tables → cell.page = table.1 →
    mmuIsValid cell.entry = true →
      (table.2.length < 3 → posOf tables (mmuGetVaddr cell.entry) = some (table.2 ++ [cell.idx])) ∧
      (table.2.length = 1 ∨ table.2.length = 2 → mmuIsBlock cell.entry = false)

instance (cells : List Cell) (free : List Nat) (tables : Tables) :
    Decidable (Fits cells free tables) := by
  unfold Fits
  infer_instance

theorem Fits.cell {cells : List Cell} {free : List Nat} {tables : Tables}
    (fits : Fits cells free tables) (n : Nat) (q : List Idx) (i : Idx) (e : Word)
    (table : (n, q) ∈ tables) (cell : ⟨n, i, e⟩ ∈ cells) (valid : mmuIsValid e = true) :
    (q.length < 3 → posOf tables (mmuGetVaddr e) = some (q ++ [i])) ∧
      (q.length = 1 ∨ q.length = 2 → mmuIsBlock e = false) :=
  fits.2.2.2 ⟨n, i, e⟩ cell (n, q) table rfl valid

theorem machine_user (cells : List Cell) (free : List Nat) (p : Word) (i : Idx)
    (other : ¬ isKernelPage p = true) : (machine cells free).mem p i = cellEntry cells p i :=
  if_neg other

section Tables

variable (cells : List Cell) (free : List Nat) (tables : Tables) (fits : Fits cells free tables)

theorem posOf_some (p : Word) (q : List Idx) (position : posOf tables p = some q) :
    ∃ n, (n, q) ∈ tables ∧ p = poolVa n := by
  rw [posOf, Option.map_eq_some_iff] at position
  obtain ⟨⟨n, r⟩, found, rfl⟩ := position
  have here := List.find?_some found
  exact ⟨n, List.mem_of_find?_eq_some found, (of_decide_eq_true here).symm⟩

theorem cellEntry_cases (n : Nat) (i : Idx) (inside : n < 384)
    (low : ∀ c, c ∈ cells → c.page < 384) :
    cellEntry cells (poolVa n) i = 0 ∨ ⟨n, i, cellEntry cells (poolVa n) i⟩ ∈ cells := by
  unfold cellEntry
  cases found : cells.find? fun cell => poolVa cell.page = poolVa n ∧ cell.idx = i with
  | none => exact .inl rfl
  | some cell =>
    have member := List.mem_of_find?_eq_some found
    have here := List.find?_some found
    rw [decide_eq_true_eq] at here
    have same := poolVa_inj cell.page n (by have := low cell member; rw [managed_eq]; omega)
      (by rw [managed_eq]; omega) here.1
    obtain ⟨page, idx, entry⟩ := cell
    obtain rfl : page = n := same
    obtain rfl : idx = i := here.2
    exact .inr member

include fits

theorem machine_inUse (p : Word) (q : List Idx) (position : posOf tables p = some q) :
    InUse (machine cells free) p := by
  obtain ⟨n, member, rfl⟩ := posOf_some tables p q position
  obtain ⟨inside, _, listed, _⟩ := fits
  obtain ⟨low, high, notFree, _⟩ := listed _ member
  have small : n < managed := by rw [managed_eq]; omega
  refine ⟨⟨n, small, rfl, by simp [machine_marked cells free inside, notFree]⟩, ?_⟩
  rw [machine_kernelTable, isKernelPage, decide_eq_true_eq]
  have away (m : Nat) (less : m < 4) (same : poolVa n = poolVa m) : False := by
    have equal := poolVa_inj n m small (by rw [managed_eq]; omega) same
    omega
  rintro (same | same | same | same)
  · exact away 0 (by decide) same
  · exact away 1 (by decide) same
  · exact away 2 (by decide) same
  · exact away 3 (by decide) same

theorem machine_entry (p : Word) (q : List Idx) (i : Idx) (position : posOf tables p = some q) :
    (machine cells free).mem p i = 0 ∨
      ∃ n, (n, q) ∈ tables ∧ p = poolVa n ∧ ⟨n, i, (machine cells free).mem p i⟩ ∈ cells := by
  have used := (machine_inUse cells free tables fits p q position).2
  rw [machine_kernelTable] at used
  obtain ⟨n, member, rfl⟩ := posOf_some tables p q position
  obtain ⟨_, small, listed, _⟩ := fits
  rw [machine_user cells free (poolVa n) i used]
  exact (cellEntry_cases cells n i (listed _ member).2.1 small).imp_right
    fun cell => ⟨n, member, rfl, cell⟩

theorem machine_cell (p : Word) (q : List Idx) (i : Idx) (position : posOf tables p = some q)
    (valid : mmuIsValid ((machine cells free).mem p i) = true) :
    ∃ n, (n, q) ∈ tables ∧ p = poolVa n ∧ ⟨n, i, (machine cells free).mem p i⟩ ∈ cells := by
  refine (machine_entry cells free tables fits p q i position).resolve_left fun zero => ?_
  rw [zero, isValid_zero] at valid
  cases valid

theorem machine_layout : UserLayout (machine cells free) (posOf tables) where
  typed :=
    { bound := fun p q position => by
        obtain ⟨n, member, _⟩ := posOf_some tables p q position
        exact (fits.2.2.1 _ member).2.2.2
      child := fun p q i c position short found => by
        obtain ⟨valid, rfl⟩ := (nav_some _ _).mp found
        obtain ⟨n, member, rfl, cell⟩ := machine_cell cells free tables fits p q i position valid
        exact (fits.cell n q i _ member cell valid).1 short }
  inUse := machine_inUse cells free tables fits
  table p q i position upper valid := by
    obtain ⟨n, member, rfl, cell⟩ := machine_cell cells free tables fits p q i position valid
    exact (fits.cell n q i _ member cell valid).2 upper

theorem machine_process (t : Word) (root : posOf tables t = some []) :
    Process (machine cells free) (posOf tables) t :=
  ⟨machine_wf cells free fits.1, machine_layout cells free tables fits, root⟩

end Tables

-- What the level-3 entries of the user tables map.
def leaves (cells : List Cell) (tables : Tables) : List (List Idx × Word) :=
  tables.flatMap fun table => cells.filterMap fun cell =>
    if table.2.length = 3 ∧ cell.page = table.1 ∧ mmuIsValid cell.entry = true then
      some (table.2 ++ [cell.idx], mmuGetVaddr cell.entry)
    else none

theorem machine_maps (cells : List Cell) (free : List Nat) (tables : Tables)
    (fits : Fits cells free tables) (t : Word) (root : posOf tables t = some []) (path : List Idx)
    (p : Word) (maps : Maps (machine cells free) t path p) : (path, p) ∈ leaves cells tables := by
  obtain ⟨deep, found⟩ := maps
  have layout := machine_layout cells free tables fits
  induction path using List.reverseRecOn with
  | nil => simp at deep
  | append_singleton s i _ =>
    rw [List.length_append, List.length_singleton] at deep
    obtain ⟨a, before⟩ := node_prefix_some nav _ t p s [i] found
    have position := layout.typed.node_pos t a s root (by omega) before
    rw [node_concat_some nav _ t a s i before, nav_some] at found
    obtain ⟨valid, rfl⟩ := found
    obtain ⟨n, member, rfl, cell⟩ := machine_cell cells free tables fits a s i position valid
    generalize (machine cells free).mem (poolVa n) i = entry at *
    have three : s.length = 3 := by omega
    refine List.mem_flatMap.mpr ⟨_, member, List.mem_filterMap.mpr ⟨_, cell, ?_⟩⟩
    simp [three, valid]

end Anthill
