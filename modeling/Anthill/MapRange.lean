import Anthill.MapPage
import Mathlib.Data.Finset.Union
import Mathlib.Data.Finset.Card
import Mathlib.Data.List.Infix
import Mathlib.Tactic.Ring

set_option autoImplicit false

namespace Anthill

open Radix

-- The tables that a walk lacks, each named by the indices that would lead to it.
def lackedPaths (m : Mem) (t : Word) (path : List Idx) : List (List Idx) :=
  path.inits.filter fun s => s ≠ [] ∧ node nav m t s = none

def lackedTables (m : Mem) (t v : Word) : Finset (List Idx) :=
  (lackedPaths m t (upperIdx v)).toFinset

-- How many tables the first `n` pages at `vaddr` lack together.
def tablesLacked (m : Mem) (t vaddr : Word) (n : Nat) : Nat :=
  ((Finset.range n).biUnion fun i => lackedTables m t (pageAt vaddr i)).card

/-- Memory gives out between two tables of one page. A loop that maps pages from `vaddr` on takes
`data` pages of its own in each round before it maps. -/
def RangeRunsDry (k : Kernel) (t vaddr : Word) (data n : Nat) : Prop :=
  ∃ j, j < n ∧ canAlloc (data * (j + 1) + tablesLacked k.mem t vaddr j + 1) k = true ∧
    canAlloc (data * (j + 1) + tablesLacked k.mem t vaddr (j + 1)) k = false

theorem length_lackedPaths (m : Mem) (t : Word) (path : List Idx) :
    (lackedPaths m t path).length = missingTables m t path := by
  induction path generalizing t with
  | nil => rfl
  | cons i path ih =>
    rw [lackedPaths, List.inits_cons, List.filter_cons_of_neg (by simp), List.filter_map,
      List.length_map, missingTables]
    cases valid : mmuIsValid (m t i) with
    | true =>
      rw [if_pos rfl, ← ih, lackedPaths]
      congr 1
      apply List.filter_congr
      intro s _
      cases s <;> simp [node, nav_of_valid _ valid]
    | false =>
      have all : path.inits.filter ((fun s => decide (s ≠ [] ∧ node nav m t s = none)) ∘
          fun s => i :: s) = path.inits := by
        apply List.filter_eq_self.mpr
        intro s _
        simp [node, nav_of_invalid _ valid]
      rw [all, List.length_inits]
      rfl

theorem nodup_inits (path : List Idx) : path.inits.Nodup := by
  induction path with
  | nil => simp
  | cons i path ih =>
    rw [List.inits_cons, List.nodup_cons]
    exact ⟨by simp, ih.map fun s s' same => (List.cons.inj same).2⟩

theorem mem_lackedTables (m : Mem) (t v : Word) (s : List Idx) :
    s ∈ lackedTables m t v ↔ s <+: upperIdx v ∧ s ≠ [] ∧ node nav m t s = none := by
  simp [lackedTables, lackedPaths]

theorem card_lackedTables (m : Mem) (t v : Word) :
    (lackedTables m t v).card = missingTables m t (upperIdx v) := by
  have distinct : (lackedPaths m t (upperIdx v)).Nodup := (nodup_inits _).filter _
  rw [lackedTables, List.toFinset_card_of_nodup distinct, length_lackedPaths]

-- One more page lacks the tables that are still missing once those of the pages before it are there.
theorem card_lacked_insert {I : Type} [DecidableEq I] (m m' : Mem) (t : Word) (pages : Finset I) (vaddr : I → Word) (j : I)
    (lacks : ∀ s, s.length ≤ 3 → (node nav m' t s = none ↔
      node nav m t s = none ∧ ∀ i, i ∈ pages → ¬ s <+: upperIdx (vaddr i))) :
    (pages.biUnion fun i => lackedTables m t (vaddr i)).card + missingTables m' t (upperIdx (vaddr j)) =
      ((insert j pages).biUnion fun i => lackedTables m t (vaddr i)).card := by
  have new : lackedTables m' t (vaddr j) =
      lackedTables m t (vaddr j) \ pages.biUnion fun i => lackedTables m t (vaddr i) := by
    ext s
    simp only [Finset.mem_sdiff, Finset.mem_biUnion, mem_lackedTables, not_exists, not_and]
    constructor
    · rintro ⟨onPath, nonempty, missing⟩
      rw [lacks s onPath.length_le] at missing
      exact ⟨⟨onPath, nonempty, missing.1⟩, fun i before earlier _ => absurd earlier (missing.2 i before)⟩
    · rintro ⟨⟨onPath, nonempty, missing⟩, fresh⟩
      refine ⟨onPath, nonempty, ?_⟩
      rw [lacks s onPath.length_le]
      exact ⟨missing, fun i before earlier => fresh i before earlier nonempty missing⟩
  rw [← card_lackedTables, new, Finset.biUnion_insert, Nat.add_comm, Finset.card_sdiff_add_card]

-- A map fills in the tables on its own path and no others.
theorem Mapped.node_none {k k' : Kernel} {pos pos' : Pos} {a : Word} {i : Idx} {t v e : Word}
    (mapped : Mapped k k' pos pos' a i t v e) (layout : UserLayout k pos) (root : pos t = some [])
    (s : List Idx) (short : s.length ≤ 3) :
    node nav k'.mem t s = none ↔ node nav k.mem t s = none ∧ ¬ s <+: upperIdx v := by
  obtain ⟨r, at', walk, _, was, _⟩ := mapped.hole a i rfl
  constructor
  · intro missing
    have before : node nav k.mem t s = none := by
      by_cases past : r ++ [i] <+: s
      · obtain ⟨rest, rfl⟩ := past
        rw [node_append, node_concat_some nav k.mem t a r i walk, nav_of_invalid _ was]
        rfl
      · rw [← mapped.node_other layout r at' t root s (by omega) (fun both => past both.1)]
        exact missing
    refine ⟨before, fun onPath => ?_⟩
    obtain ⟨level3, _, reached, _⟩ := mapped.leaf
    obtain ⟨rest, whole⟩ := onPath
    rw [← whole] at reached
    obtain ⟨c, found⟩ := node_prefix_some nav k'.mem t level3 s rest reached
    rw [missing] at found
    cases found
  · rintro ⟨before, offPath⟩
    by_cases past : r ++ [i] <+: s
    · cases found : node nav k'.mem t s with
      | none => rfl
      | some c =>
        have onPath := mapped.node_path layout root r at' walk s (by omega) c past found
        exact absurd (List.prefix_of_prefix_length_le onPath (List.prefix_append _ _) short) offPath
    · rw [mapped.node_other layout r at' t root s (by omega) (fun both => past both.1)]
      exact before

/-- A loop that maps pages from `vaddr` on, before its round `j`, told by what it started from. -/
structure Round (k₀ k : Kernel) (t vaddr : Word) (data j : Nat) : Prop where
  left : ∀ more, canAlloc (data * j + tablesLacked k₀.mem t vaddr j + more) k₀ = canAlloc more k
  lacks : ∀ s, s.length ≤ 3 → (node nav k.mem t s = none ↔
    node nav k₀.mem t s = none ∧ ∀ i, i < j → ¬ s <+: upperIdx (pageAt vaddr i))

theorem Round.start (k : Kernel) (t vaddr : Word) (data : Nat) : Round k k t vaddr data 0 where
  left more := by simp [tablesLacked]
  lacks s _ := by simp

section Round

variable {k₀ k : Kernel} {t vaddr : Word} {data j : Nat} (round : Round k₀ k t vaddr data j)

include round

theorem Round.tables (k₁ : Kernel)
    (walks : ∀ s, s.length ≤ 3 → node nav k₁.mem t s = node nav k.mem t s) :
    tablesLacked k₀.mem t vaddr (j + 1) = tablesLacked k₀.mem t vaddr j +
      missingTables k₁.mem t (upperIdx (pageAt vaddr j)) := by
  rw [tablesLacked, Finset.range_add_one, ← card_lacked_insert _ k₁.mem t (Finset.range j) (pageAt vaddr) j]
  · rfl
  · intro s short
    rw [walks s short, round.lacks s short]
    simp only [Finset.mem_range]

-- Memory that lasts for the whole range lasts for the round's own page.
theorem Round.lasts (n : Nat) (inside : j < n) (lasts : ¬ RangeRunsDry k₀ t vaddr data n)
    (k₁ : Kernel) (taken : ∀ more, canAlloc (data + more) k = canAlloc more k₁)
    (walks : ∀ s, s.length ≤ 3 → node nav k₁.mem t s = node nav k.mem t s) :
    ¬ RunsDry k₁ t (pageAt vaddr j) := by
  rintro ⟨first, dry⟩
  refine lasts ⟨j, inside, ?_, ?_⟩
  · rw [show data * (j + 1) + tablesLacked k₀.mem t vaddr j + 1 =
      data * j + tablesLacked k₀.mem t vaddr j + (data + 1) by ring, round.left, taken]
    exact first
  · rw [round.tables k₁ walks, show ∀ m, data * (j + 1) + (tablesLacked k₀.mem t vaddr j + m) =
      data * j + tablesLacked k₀.mem t vaddr j + (data + m) from fun m => by ring, round.left, taken]
    exact dry

theorem Round.next (k₁ k₂ : Kernel) (taken : ∀ more, canAlloc (data + more) k = canAlloc more k₁)
    (walks : ∀ s, s.length ≤ 3 → node nav k₁.mem t s = node nav k.mem t s)
    (mapped : ∀ more, canAlloc (missingTables k₁.mem t (upperIdx (pageAt vaddr j)) + more) k₁ =
      canAlloc more k₂)
    (filled : ∀ s, s.length ≤ 3 → (node nav k₂.mem t s = none ↔
      node nav k₁.mem t s = none ∧ ¬ s <+: upperIdx (pageAt vaddr j))) :
    Round k₀ k₂ t vaddr data (j + 1) where
  left more := by
    rw [round.tables k₁ walks, ← mapped more, ← taken, ← round.left]
    congr 1
    ring
  lacks s short := by
    rw [filled s short, walks s short, round.lacks s short]
    constructor
    · rintro ⟨⟨missing, earlier⟩, here⟩
      refine ⟨missing, fun i before => ?_⟩
      rcases Nat.lt_succ_iff_lt_or_eq.mp before with old | rfl
      · exact earlier i old
      · exact here
    · rintro ⟨missing, earlier⟩
      exact ⟨⟨missing, fun i before => earlier i (by omega)⟩, earlier j (by omega)⟩

end Round

end Anthill
