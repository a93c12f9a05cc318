import Anthill.KernelReclaim

set_option autoImplicit false

namespace Anthill

open Radix

-- The entries that the walk of mem_kernel_free_page reads, in the order in which it comes to them.
def walkReads (m : Mem) : Nat → Word → List Idx → List (Word × Idx)
  | _, _, [] => []
  | level, p, i :: idx =>
    if !mmuIsValid (m p i) || (level == 3 || mmuIsBlock (m p i)) then [(p, i)]
    else (p, i) :: walkReads m (level + 1) (mmuGetVaddr (m p i)) idx

-- The valid entry that the walk ends in.
def walkLeaf (m : Mem) : Nat → Word → List Idx → Option (Word × Idx)
  | _, _, [] => none
  | level, p, i :: idx =>
    if !mmuIsValid (m p i) then none
    else if level == 3 || mmuIsBlock (m p i) then some (p, i)
    else walkLeaf m (level + 1) (mmuGetVaddr (m p i)) idx

def Kernel.reads (k : Kernel) (va : Word) : List (Word × Idx) := walkReads k.mem 0 k.kernelTable (mmuGetTableIdx va)

def Kernel.leafAt (k : Kernel) (va : Word) : Option (Word × Idx) := walkLeaf k.mem 0 k.kernelTable (mmuGetTableIdx va)

/-- Addresses that mem_kernel_free_page can be called on one after the other: all are mapped, and no walk reads an entry
that has been cleared. -/
structure FreesAll (k : Kernel) (vas : List Word) : Prop where
  mapped : ∀ va, va ∈ vas → k.leafAt va ≠ none
  once : vas.Pairwise fun va va' => ∀ s, k.leafAt va = some s → s ∉ k.reads va'

-- No entry of the kernel's top table is a block.
def Kernel.TopTables (k : Kernel) : Prop :=
  ∀ i, mmuIsValid (k.mem k.kernelTable i) = true → mmuIsBlock (k.mem k.kernelTable i) = false

theorem KernelWf.topTables {k : Kernel} (wf : KernelWf k) : k.TopTables := by
  intro i valid
  by_cases first : i = 0
  · rw [first]
    exact wf.table0
  · exact (wf.top i valid first).1

theorem Kernel.TopTables.clear {k k' : Kernel} (top : k.TopTables) (p : Word) (i : Idx) (mem : k'.mem = put k.mem p i 0)
    (root : k'.kernelTable = k.kernelTable) : k'.TopTables := by
  intro j valid
  rw [mem, root] at valid ⊢
  by_cases here : k.kernelTable = p ∧ j = i
  · rw [here.1, here.2, put_same, isValid_zero] at valid
    cases valid
  · rw [put_other _ _ _ _ _ _ (not_and_or.mp here)] at valid ⊢
    exact top j valid

section Walk

variable (m : Mem) (level : Nat) (p : Word) (idx : List Idx)

/-- A walk depends on the entries that it reads only. -/
theorem walk_same {m' : Mem} (same : ∀ s, s ∈ walkReads m level p idx → m' s.1 s.2 = m s.1 s.2) :
    walkReads m' level p idx = walkReads m level p idx ∧ walkLeaf m' level p idx = walkLeaf m level p idx := by
  induction idx generalizing level p with
  | nil => exact ⟨rfl, rfl⟩
  | cons i idx ih =>
    have first : m' p i = m p i := same (p, i) (by unfold walkReads; split_ifs <;> exact List.mem_cons_self)
    unfold walkReads at same
    unfold walkReads walkLeaf
    rw [first]
    by_cases stops : (!mmuIsValid (m p i) || (level == 3 || mmuIsBlock (m p i))) = true
    · rw [if_pos stops, if_pos stops]
      refine ⟨rfl, ?_⟩
      rcases (Bool.or_eq_true _ _).mp stops with invalid | last
      · rw [if_pos invalid, if_pos invalid]
      · rw [if_pos last, if_pos last]
    · rw [if_neg stops] at same
      rw [if_neg stops, if_neg stops]
      rw [Bool.or_eq_true, not_or] at stops
      rw [if_neg stops.1, if_neg stops.2, if_neg stops.1, if_neg stops.2]
      obtain ⟨reads, leaf⟩ := ih (level + 1) _ fun s listed => same s (List.mem_cons_of_mem _ listed)
      exact ⟨congrArg _ reads, leaf⟩

/-- A walk that reads an entry comes to nothing when the entry is cleared. -/
theorem walkLeaf_cleared {a : Word} {j : Idx} (read : (a, j) ∈ walkReads m level p idx) :
    walkLeaf (put m a j 0) level p idx = none := by
  induction idx generalizing level p with
  | nil => cases read
  | cons i idx ih =>
    unfold walkLeaf
    by_cases here : a = p ∧ j = i
    · obtain ⟨rfl, rfl⟩ := here
      rw [put_same, isValid_zero]
      rfl
    · have away : p ≠ a ∨ i ≠ j := (not_and_or.mp here).imp Ne.symm Ne.symm
      have other : (a, j) ≠ (p, i) := fun same => here (Prod.mk.inj same)
      rw [put_other _ _ _ _ _ _ away]
      unfold walkReads at read
      split_ifs at read with stops
      · exact absurd (List.mem_singleton.mp read) other
      · rw [Bool.or_eq_true, not_or] at stops
        rw [if_neg stops.1, if_neg stops.2]
        exact ih (level + 1) _ ((List.mem_cons.mp read).resolve_left other)

end Walk

section Free

variable {k : Kernel} (top : k.TopTables)

include top

theorem kernelRemove_leaf (va : Word) (level : Nat) (p : Word) (idx : List Idx) (length : level + idx.length = 4)
    (deep : level ≤ 3) (first : level = 0 → p = k.kernelTable) :
    (walkLeaf k.mem level p idx = none ∧ kernelRemove k va level p idx = .ok (.memUnm, k)) ∨
    ∃ a j shift, walkLeaf k.mem level p idx = some (a, j) ∧
      kernelRemove k va level p idx = .ok (.ok, freeRange (k.write a j 0) (virtToPhys va) shift) := by
  induction idx generalizing level p with
  | nil =>
    rw [List.length_nil] at length
    omega
  | cons i idx ih =>
    unfold walkLeaf kernelRemove
    cases valid : mmuIsValid (k.mem p i) with
    | false => exact .inl ⟨rfl, rfl⟩
    | true =>
      by_cases last : (level == 3 || mmuIsBlock (k.mem p i)) = true
      · have below : ¬ (level == 0) = true := by
          intro zero
          obtain rfl : level = 0 := beq_iff_eq.mp zero
          rw [first rfl] at valid last
          rw [top i valid] at last
          cases last
        simp only [Bool.not_true, Bool.false_eq_true, if_false, if_pos last, if_neg below]
        exact .inr ⟨p, i, _, rfl, rfl⟩
      · simp only [Bool.not_true, Bool.false_eq_true, if_false, if_neg last]
        rw [Bool.or_eq_true, not_or, beq_iff_eq] at last
        rw [List.length_cons] at length
        exact ih (level + 1) _ (by omega) (by omega) fun zero => absurd zero (Nat.succ_ne_zero level)

/-- mem_kernel_free_page clears the entry that its walk ends in. -/
theorem memKernelFreePage_leaf (va : Word) :
    (k.leafAt va = none ∧ memKernelFreePage k va = .ok (.memUnm, k)) ∨
    ∃ a j k', k.leafAt va = some (a, j) ∧ memKernelFreePage k va = .ok (.ok, k') ∧ k'.mem = put k.mem a j 0 ∧
      k'.kernelTable = k.kernelTable := by
  rcases kernelRemove_leaf top va 0 k.kernelTable (mmuGetTableIdx va) (by simp) (by decide) (fun _ => rfl) with
    missing | ⟨a, j, shift, leaf, freed⟩
  · exact .inl missing
  · obtain ⟨mem, root⟩ := freeRange_keeps (k.write a j 0) (virtToPhys va) shift
    exact .inr ⟨a, j, _, leaf, freed, mem, root⟩

theorem memKernelFreePage_returns (va : Word) :
    ∃ err k', memKernelFreePage k va = .ok (err, k') ∧ (err = .ok ∨ err = .memUnm) ∧ k'.TopTables := by
  rcases memKernelFreePage_leaf top va with ⟨_, missed⟩ | ⟨a, j, k', _, freed, mem, root⟩
  · exact ⟨_, k, missed, .inr rfl, top⟩
  · exact ⟨_, k', freed, .inl rfl, top.clear a j mem root⟩

end Free

section Clear

variable {k k' : Kernel} {a : Word} {j : Idx} (mem : k'.mem = put k.mem a j 0) (root : k'.kernelTable = k.kernelTable)

include mem root

theorem Kernel.leafAt_cleared {va : Word} (read : (a, j) ∈ k.reads va) : k'.leafAt va = none := by
  rw [Kernel.leafAt, mem, root]
  exact walkLeaf_cleared _ _ _ _ read

theorem Kernel.unread_same {va : Word} (unread : (a, j) ∉ k.reads va) :
    k'.reads va = k.reads va ∧ k'.leafAt va = k.leafAt va := by
  rw [Kernel.reads, Kernel.leafAt, mem, root]
  refine walk_same _ _ _ _ fun s listed => put_other _ _ _ _ _ _ ?_
  by_contra both
  push Not at both
  rw [← both.1, ← both.2] at unread
  exact unread listed

theorem Kernel.leafAt_lost {va : Word} (missing : k.leafAt va = none) : k'.leafAt va = none := by
  by_cases read : (a, j) ∈ k.reads va
  · exact Kernel.leafAt_cleared mem root read
  · rw [(Kernel.unread_same mem root read).2, missing]

end Clear

theorem FreesAll.congr {k k' : Kernel} {vas : List Word} (all : FreesAll k vas)
    (same : ∀ va, va ∈ vas → k'.reads va = k.reads va ∧ k'.leafAt va = k.leafAt va) : FreesAll k' vas where
  mapped va listed := by
    rw [(same va listed).2]
    exact all.mapped va listed
  once := all.once.imp_of_mem fun {b c} inB inC apart => by
    rw [(same b inB).2, (same c inC).1]
    exact apart

/-- The first address can be freed and then the others. -/
theorem freesAll_step {k : Kernel} (top : k.TopTables) (va : Word) (vas : List Word) :
    FreesAll k (va :: vas) ↔ ∃ k', memKernelFreePage k va = .ok (.ok, k') ∧ FreesAll k' vas := by
  rcases memKernelFreePage_leaf top va with ⟨missing, missed⟩ | ⟨a, j, k', leaf, freed, mem, root⟩
  · refine iff_of_false (fun all => all.mapped va List.mem_cons_self missing) ?_
    rintro ⟨_, freed, _⟩
    rw [missed] at freed
    cases freed
  · have only : (∃ k'', memKernelFreePage k va = .ok (.ok, k'') ∧ FreesAll k'' vas) ↔ FreesAll k' vas := by
      rw [freed]
      exact ⟨fun ⟨_, same, all⟩ => (Prod.mk.inj (Except.ok.inj same)).2 ▸ all, fun all => ⟨k', rfl, all⟩⟩
    rw [only]
    constructor
    · rintro ⟨mapped, once⟩
      obtain ⟨first, rest⟩ := List.pairwise_cons.mp once
      exact FreesAll.congr ⟨fun va' listed => mapped va' (List.mem_cons_of_mem _ listed), rest⟩ fun va' listed =>
        Kernel.unread_same mem root (first va' listed _ leaf)
    · intro all
      have unread (va' : Word) (listed : va' ∈ vas) : (a, j) ∉ k.reads va' := fun read =>
        all.mapped va' listed (Kernel.leafAt_cleared mem root read)
      obtain ⟨mapped, once⟩ := all.congr fun va' listed =>
        (Kernel.unread_same mem root (unread va' listed)).imp Eq.symm Eq.symm
      refine ⟨fun va' listed => ?_, List.pairwise_cons.mpr ⟨fun va' listed s ends => ?_, once⟩⟩
      · rcases List.mem_cons.mp listed with rfl | later
        · rw [leaf]
          exact Option.some_ne_none _
        · exact mapped va' later
      · rw [leaf] at ends
        exact Option.some.inj ends ▸ unread va' listed

section Ranked

variable {k : Kernel} {rank : Word → Option Nat} (ranked : KernelRanked k rank)

include ranked

theorem KernelRanked.topTables : k.TopTables := fun i valid =>
  (ranked.forward k.kernelTable 0 i ranked.root (by decide) valid).1

-- A walk reads tables of the kernel only.
theorem walkReads_ranked (level r : Nat) (p : Word) (idx : List Idx) (deep : level ≤ 3) (here : rank p = some r)
    (low : r ≤ level) (s : Word × Idx) (listed : s ∈ walkReads k.mem level p idx) : rank s.1 ≠ none := by
  induction idx generalizing level r p with
  | nil => cases listed
  | cons i idx ih =>
    have own : rank p ≠ none := by
      rw [here]
      exact Option.some_ne_none r
    unfold walkReads at listed
    split_ifs at listed with stops
    · exact List.mem_singleton.mp listed ▸ own
    · rcases List.mem_cons.mp listed with rfl | later
      · exact own
      · simp only [Bool.or_eq_true, Bool.not_eq_true', beq_iff_eq, not_or, Bool.not_eq_false, Bool.not_eq_true] at stops
        obtain ⟨valid, inner, block⟩ := stops
        obtain ⟨r', less, next⟩ := ranked.edge p r i here (by omega) valid block
        exact ih (level + 1) r' _ (by omega) next (by omega) later

/-- What is done to other pages than the kernel's tables is not seen. -/
theorem KernelRanked.walks_same {k' : Kernel} (rows : ∀ p, rank p ≠ none → k'.mem p = k.mem p)
    (root : k'.kernelTable = k.kernelTable) (va : Word) : k'.reads va = k.reads va ∧ k'.leafAt va = k.leafAt va := by
  rw [Kernel.reads, Kernel.leafAt, root]
  refine walk_same _ _ _ _ fun s listed => ?_
  rw [rows s.1 (walkReads_ranked ranked 0 0 _ _ (by decide) ranked.root (Nat.le_refl 0) s listed)]

theorem KernelRanked.freesAll_same {k' : Kernel} (rows : ∀ p, rank p ≠ none → k'.mem p = k.mem p)
    (root : k'.kernelTable = k.kernelTable) (vas : List Word) : FreesAll k' vas ↔ FreesAll k vas :=
  ⟨fun all => all.congr fun va _ => (ranked.walks_same rows root va).imp Eq.symm Eq.symm,
    fun all => all.congr fun va _ => ranked.walks_same rows root va⟩

end Ranked

end Anthill
