import Anthill.KernelTree
import Anthill.Run

set_option autoImplicit false

namespace Anthill

open Radix

-- MEM_VA_KERNEL_START + p is mapped to p.
def Kernel.Linear (k : Kernel) (n : Nat) : Prop :=
  ∃ found, k.translation (poolVa n) = some found ∧ physAddr (poolVa n) found = poolPage n

/-- A pool page is marked exactly when it is mapped linearly or is a table, and pool addresses are mapped
in no other way. -/
structure KernelTree (k : Kernel) : Prop extends KernelShape k where
  bitmap : ∀ n, n < managed → (marked k.memoryMap n = true ↔ k.Linear n ∨ k.Table (poolVa n))
  linear : ∀ n, n < managed → k.translation (poolVa n) = none ∨ k.Linear n

-- The access permission and the execute-never bits.
def permMask : Word := ((3 : Word) <<< attApOff) ||| attPxnNoexec ||| attUxnNoexec

/-- What mem_kernel_alloc_page does to the tables when it hands out page `n`. -/
structure Handed (k k' : Kernel) (n : Nat) (attr : Word) : Prop where
  inside : n < managed
  unmapped : k.translation (poolVa n) = none
  notTable : ¬ k.Table (poolVa n)
  mapped : ∃ e, k'.translation (poolVa n) = some (3, e) ∧ physAddr (poolVa n) (3, e) = poolPage n ∧
    e &&& permMask = attr
  -- A level-3 table that was missing comes into sight at its address of the recursive window.
  others : ∀ va, mmuGetTableIdx va ≠ mmuGetTableIdx (poolVa n) →
    (mmuGetTableIdx va = [511, 0, 0, poolIdx2 n] → k.translation va ≠ none) → k'.translation va = k.translation va

structure Pool where
  kernel : Kernel
  held : Finset Nat

inductive PoolAction where
  | alloc (perm : MemPerm)
  | free (n : Nat)

def Pool.step (w : Pool) : PoolAction → Option Pool
  | .alloc perm =>
    let (result, k) := memKernelAllocPage w.kernel perm
    some ⟨k, if result.err = .ok then insert (pmmPage (virtToPhys result.addr)) w.held else w.held⟩
  | .free n =>
    match memKernelFreePage w.kernel (poolVa n) with
    | .ok (_, k) => some ⟨k, w.held.erase n⟩
    | .error _ => none

-- The permissions are valid, and the page that is freed is held.
def PoolAction.Fine (w : Pool) : PoolAction → Prop
  | .alloc perm => kernelAttr perm ≠ none
  | .free n => n ∈ w.held

structure Pool.Ok (w : Pool) : Prop where
  tree : KernelTree w.kernel
  held : ∀ n, n ∈ w.held → n < managed ∧ (∃ e, w.kernel.translation (poolVa n) = some (3, e)) ∧
    ¬ w.kernel.Table (poolVa n)

theorem poolVa_idx (n : Nat) (inside : n < managed) :
    mmuGetTableIdx (poolVa n) = [0, 0, poolIdx2 n, poolIdx3 n] := by
  rw [mmuGetTableIdx, poolVa_upper n inside]
  rfl

theorem poolVa_idx_inj (m n : Nat) (insideM : m < managed) (insideN : n < managed)
    (same : mmuGetTableIdx (poolVa m) = mmuGetTableIdx (poolVa n)) : m = n := by
  rw [poolVa_idx m insideM, poolVa_idx n insideN] at same
  simp only [List.cons.injEq, and_true, true_and] at same
  exact poolIdx_inj m n insideM insideN same.1 same.2

theorem kernelLeaf_masks (n : Nat) (inside : n < managed) (perm : MemPerm) (attr : Word)
    (known : kernelAttr perm = some attr) : kernelLeaf (poolPage n) attr &&& vaddrMask = poolPage n ∧
      kernelLeaf (poolPage n) attr &&& permMask = attr := by
  have page := isPage_poolVa n inside
  have split : kernelLeaf (poolPage n) attr =
      virtToPhys (poolVa n) ||| (attr ||| attValid ||| attPage ||| attNormal ||| attAfSet) := by
    rw [kernelLeaf, virtToPhys_poolVa]
    simp only [BitVec.or_assoc]
  have bits : (attr ||| attValid ||| attPage ||| attNormal ||| attAfSet) &&& vaddrMask = 0 ∧
      (attr ||| attValid ||| attPage ||| attNormal ||| attAfSet) &&& permMask = attr := by
    cases perm with
    | other => cases known
    | ro | rw | ex =>
      obtain rfl := Option.some.inj known
      decide
  rw [split]
  refine ⟨?_, ?_⟩
  · rw [page_or_mask _ _ page bits.1, virtToPhys_poolVa]
  · rw [page_or_and _ _ _ page (by decide), bits.2]

theorem physAddr_leaf (n : Nat) (inside : n < managed) (e : Word) (names : e &&& vaddrMask = poolPage n) :
    physAddr (poolVa n) (3, e) = poolPage n := by
  have page : poolPage n &&& vaddrMask = poolPage n := by
    have page := isPage_poolVa n inside
    rwa [IsPage, virtToPhys_poolVa] at page
  have upper : poolPage n &&& ~~~offsetMask 3 = poolPage n := by
    rw [← page, BitVec.and_assoc, show vaddrMask &&& ~~~offsetMask 3 = vaddrMask by decide]
  have lower : poolVa n &&& offsetMask 3 = 0 := by
    apply BitVec.eq_of_toNat_eq
    rw [BitVec.toNat_and, show (offsetMask 3).toNat = 2 ^ 12 - 1 by decide, Nat.and_two_pow_sub_one_eq_mod,
      poolVa_toNat n inside]
    show (0xffff000000080000 + n * 4096) % 4096 = 0
    omega
  simp only [physAddr, names, upper, lower]
  exact BitVec.or_zero

theorem KernelShape.pool_translation {k : Kernel} (shape : KernelShape k) (n : Nat) (inside : n < managed) :
    k.translation (poolVa n) = walk k.mem 2 k.level2 [poolIdx2 n, poolIdx3 n] := by
  obtain ⟨valid0, block0, name0⟩ := (tableNav_some _ _).mp shape.present0
  obtain ⟨valid1, block1, name1⟩ := (tableNav_some _ _).mp shape.present1
  rw [Kernel.translation, poolVa_idx n inside, walk]
  simp only [valid0, block0, name0]
  rw [show (if (!true) = true then none else if (0 = 3 ∨ false = true) then some (0, k.mem k.kernelTable 0)
    else walk k.mem (0 + 1) k.level1 [0, poolIdx2 n, poolIdx3 n]) = walk k.mem 1 k.level1 [0, poolIdx2 n, poolIdx3 n]
    from by simp, walk]
  simp only [valid1, block1, name1]
  simp

section Tree

variable {k : Kernel} (tree : KernelTree k)

include tree

theorem KernelTree.unmarked (n : Nat) (inside : n < managed) (clear : marked k.memoryMap n = false) :
    k.translation (poolVa n) = none ∧ ¬ k.Table (poolVa n) := by
  have neither : ¬ (k.Linear n ∨ k.Table (poolVa n)) := by
    rw [← tree.bitmap n inside, clear]
    exact Bool.false_ne_true
  exact ⟨(tree.linear n inside).resolve_right fun mapped => neither (.inl mapped), fun table => neither (.inr table)⟩

-- An unmapped pool address has no level-3 table, or one without a page for it.
theorem KernelTree.gap (n : Nat) (inside : n < managed) (unmapped : k.translation (poolVa n) = none)
    (valid : mmuIsValid (k.mem k.level2 (poolIdx2 n)) = true) :
    tableNav (k.mem k.level2 (poolIdx2 n)) = some (k.level3 (poolIdx2 n)) ∧
      mmuIsValid (k.mem (k.level3 (poolIdx2 n)) (poolIdx3 n)) = false := by
  rw [tree.pool_translation n inside, walk] at unmapped
  simp only [valid] at unmapped
  cases block : mmuIsBlock (k.mem k.level2 (poolIdx2 n)) with
  | true => simp [block] at unmapped
  | false =>
    refine ⟨(tableNav_some _ _).mpr ⟨valid, block, rfl⟩, ?_⟩
    by_contra mapped
    rw [Bool.not_eq_false] at mapped
    have there : mmuIsValid (k.mem (mmuGetVaddr (k.mem k.level2 (poolIdx2 n))) (poolIdx3 n)) = true := mapped
    simp [block, walk, there] at unmapped

theorem KernelTree.gives (perm : MemPerm) (attr : Word) (known : kernelAttr perm = some attr) :
    memKernelAllocPage k perm = k.give attr k.pick :=
  memKernelAllocPage_gives k ((tableNav_some _ _).mp tree.present0).1 ((tableNav_some _ _).mp tree.present1).1
    (fun n inside clear valid => (tree.gap n inside (tree.unmarked n inside clear).1 valid).2) perm attr known

-- One page address more is mapped, to its own page, and the page is marked.
theorem KernelTree.mapped {k' : Kernel} (shape : KernelShape k') (n : Nat) (inside : n < managed) (e : Word)
    (names : e &&& vaddrMask = poolPage n) (here : k'.translation (poolVa n) = some (3, e))
    (others : ∀ m, m < managed → m ≠ n → k'.translation (poolVa m) = k.translation (poolVa m))
    (map : ∀ m, m < managed → (marked k'.memoryMap m = true ↔
      marked k.memoryMap m = true ∨ m = n ∨ (k'.Table (poolVa m) ∧ ¬ k.Table (poolVa m))))
    (grew : ∀ p, k.Table p → k'.Table p) : KernelTree k' := by
  have self : k'.Linear n := ⟨_, here, physAddr_leaf n inside e names⟩
  have kept (m : Nat) (low : m < managed) (other : m ≠ n) : k'.Linear m ↔ k.Linear m := by
    rw [Kernel.Linear, Kernel.Linear, others m low other]
  refine ⟨shape, fun m low => ?_, fun m low => ?_⟩
  · rw [map m low, tree.bitmap m low]
    by_cases same : m = n
    · subst same
      exact ⟨fun _ => .inl self, fun _ => .inr (.inl rfl)⟩
    · rw [kept m low same]
      have grew := grew (poolVa m)
      tauto
  · by_cases same : m = n
    · subst same
      exact .inr self
    · rw [kept m low same, others m low same]
      exact tree.linear m low

theorem KernelTree.handOut (n : Nat) (perm : MemPerm) (attr : Word) (known : kernelAttr perm = some attr)
    (inside : n < managed) (clear : marked k.memoryMap n = false)
    (valid : mmuIsValid (k.mem k.level2 (poolIdx2 n)) = true) :
    KernelTree (k.handOut n attr) ∧ Handed k (k.handOut n attr) n attr ∧
      ∀ p, (k.handOut n attr).Table p ↔ k.Table p := by
  obtain ⟨unmapped, notTable⟩ := tree.unmarked n inside clear
  obtain ⟨there, -⟩ := tree.gap n inside unmapped valid
  obtain ⟨names, bits⟩ := kernelLeaf_masks n inside perm attr known
  have root : (k.handOut n attr).kernelTable = k.kernelTable := rfl
  have mem := handOut_mem k n attr
  have here := tree.leaf_here there root mem (poolVa n) (poolVa_idx n inside)
  rw [kernelLeaf_valid, if_pos rfl] at here
  have others (va : Word) (other : mmuGetTableIdx va ≠ mmuGetTableIdx (poolVa n)) :
      (k.handOut n attr).translation va = k.translation va := by
    rw [poolVa_idx n inside] at other
    exact tree.leaf_others there root mem va other
  have tables := tree.leaf_table there root mem
  refine ⟨tree.mapped (tree.leaf there root mem) n inside _ names here ?_ ?_ fun p => (tables p).mpr, ⟨inside, unmapped,
    notTable, ⟨_, here, physAddr_leaf n inside _ names, bits⟩, fun va other _ => others va other⟩, tables⟩
  · exact fun m low other => others _ fun same => other (poolVa_idx_inj m n low inside same)
  · intro m low
    rw [tables, Kernel.handOut, marked_pmmMark_pool _ n m inside, Bool.or_eq_true, decide_eq_true_eq]
    constructor
    · exact fun set => set.elim (fun same => .inr (.inl same)) .inl
    · rintro (set | same | ⟨table, none⟩)
      · exact .inr set
      · exact .inl same
      · exact absurd table none

theorem KernelTree.handOutNew (n q : Nat) (perm : MemPerm) (attr : Word) (known : kernelAttr perm = some attr)
    (insideN : n < managed) (insideQ : q < managed) (clearN : marked k.memoryMap n = false)
    (clearQ : marked k.memoryMap q = false) (missing : mmuIsValid (k.mem k.level2 (poolIdx2 n)) = false) :
    KernelTree (k.handOutNew n q attr) ∧ Handed k (k.handOutNew n q attr) n attr ∧
      ∀ p, (k.handOutNew n q attr).Table p ↔ k.Table p ∨ p = poolVa q := by
  obtain ⟨unmapped, notTable⟩ := tree.unmarked n insideN clearN
  obtain ⟨-, fresh⟩ := tree.unmarked q insideQ clearQ
  have page := isPage_poolVa q insideQ
  -- First the table, then the page in it.
  let k₁ := k.setMem (putPage (put k.mem k.level2 (poolIdx2 n) (tableEntry (poolVa q))) (poolVa q) fun _ => 0)
  have root₁ : k₁.kernelTable = k.kernelTable := rfl
  have mem₁ : k₁.mem = putPage (put k.mem k.level2 (poolIdx2 n) (tableEntry (poolVa q))) (poolVa q) fun _ => 0 := rfl
  have shape := tree.new page fresh root₁ mem₁
  have kept := tree.new_others page missing fresh root₁ mem₁
  have tables₁ := tree.new_table page fresh root₁ mem₁ missing
  obtain ⟨-, -, row2⟩ := tree.new_rows fresh mem₁
  have there : tableNav (k₁.mem k₁.level2 (poolIdx2 n)) = some (poolVa q) := by
    rw [(tree.new_levels fresh root₁ mem₁).2, row2]
    exact (tableNav_some _ _).mpr ⟨tableEntry_valid _ page, tableEntry_block _ page, tableEntry_vaddr _ page⟩
  obtain ⟨names, bits⟩ := kernelLeaf_masks n insideN perm attr known
  have root : (k.handOutNew n q attr).kernelTable = k₁.kernelTable := rfl
  have mem : (k.handOutNew n q attr).mem = put k₁.mem (poolVa q) (poolIdx3 n) (kernelLeaf (poolPage n) attr) := rfl
  have here := shape.leaf_here there root mem (poolVa n) (poolVa_idx n insideN)
  rw [kernelLeaf_valid, if_pos rfl] at here
  have others (va : Word) (other : mmuGetTableIdx va ≠ mmuGetTableIdx (poolVa n))
      (window : mmuGetTableIdx va ≠ [511, 0, 0, poolIdx2 n]) :
      (k.handOutNew n q attr).translation va = k.translation va := by
    rw [← kept va window]
    rw [poolVa_idx n insideN] at other
    exact shape.leaf_others there root mem va other
  have tables (p : Word) : (k.handOutNew n q attr).Table p ↔ k.Table p ∨ p = poolVa q :=
    (shape.leaf_table there root mem p).trans (tables₁ p)
  refine ⟨tree.mapped (shape.leaf there root mem) n insideN _ names here ?_ ?_ fun p old => (tables p).mpr (.inl old),
    ⟨insideN, unmapped, notTable, ⟨_, here, physAddr_leaf n insideN _ names, bits⟩, fun va other seen => ?_⟩, tables⟩
  · intro m low other
    refine others _ (fun same => other (poolVa_idx_inj m n low insideN same)) ?_
    rw [poolVa_idx m low]
    simp
  · intro m low
    rw [tables, handOutNew_bit k n q m attr insideN insideQ, Bool.or_eq_true, Bool.or_eq_true, decide_eq_true_eq,
      decide_eq_true_eq]
    constructor
    · rintro (same | same | set)
      · subst same
        exact .inr (.inr ⟨.inr rfl, fresh⟩)
      · exact .inr (.inl same)
      · exact .inl set
    · rintro (set | same | ⟨old | same, none⟩)
      · exact .inr (.inr set)
      · exact .inr (.inl same)
      · exact absurd old none
      · exact .inl (poolVa_inj m q low insideQ same)
  · refine others va other fun window => seen window ?_
    rw [tree.window va (poolIdx2 n) window, missing]
    rfl

/-- mem_kernel_alloc_page finds no page and changes nothing, or hands one out. -/
theorem KernelTree.alloc (perm : MemPerm) (attr : Word) (known : kernelAttr perm = some attr) :
    memKernelAllocPage k perm = (⟨0, .memOom⟩, k) ∨
    ∃ n k', memKernelAllocPage k perm = (⟨poolVa n, .ok⟩, k') ∧ KernelTree k' ∧ Handed k k' n attr ∧
      ∀ m, m < managed → k'.Table (poolVa m) →
        k.Table (poolVa m) ∨ (m ≠ n ∧ k.translation (poolVa m) = none) := by
  rw [tree.gives perm attr known]
  rcases picked : k.pick with _ | ⟨n, _ | q⟩
  · exact .inl rfl
  · obtain ⟨inside, clear, valid⟩ := pick_valid k n picked
    obtain ⟨after, handed, tables⟩ := tree.handOut n perm attr known inside clear valid
    exact .inr ⟨n, _, rfl, after, handed, fun m _ table => .inl ((tables _).mp table)⟩
  · obtain ⟨insideN, insideQ, different, clearN, clearQ, missing⟩ := pick_invalid k n q picked
    obtain ⟨after, handed, tables⟩ := tree.handOutNew n q perm attr known insideN insideQ clearN clearQ missing
    refine .inr ⟨n, _, rfl, after, handed, fun m low table => ?_⟩
    rcases (tables _).mp table with old | new
    · exact .inl old
    · obtain rfl := poolVa_inj m q low insideQ new
      exact .inr ⟨different.symm, (tree.unmarked m low clearQ).1⟩

/-- mem_kernel_free_page unmaps a page that is mapped by itself. -/
theorem KernelTree.free (n : Nat) (inside : n < managed) (e : Word) (mapped : k.translation (poolVa n) = some (3, e))
    (notTable : ¬ k.Table (poolVa n)) :
    memKernelFreePage k (poolVa n) = .ok (.ok, k.takeBack n) ∧ KernelTree (k.takeBack n) ∧
      (k.takeBack n).translation (poolVa n) = none ∧
      (∀ va, mmuGetTableIdx va ≠ mmuGetTableIdx (poolVa n) → (k.takeBack n).translation va = k.translation va) ∧
      ∀ p, (k.takeBack n).Table p ↔ k.Table p := by
  rw [tree.pool_translation n inside, walk] at mapped
  cases valid : mmuIsValid (k.mem k.level2 (poolIdx2 n)) with
  | false => simp [valid] at mapped
  | true =>
    cases block : mmuIsBlock (k.mem k.level2 (poolIdx2 n)) with
    | true => simp [valid, block] at mapped
    | false =>
      cases leaf : mmuIsValid (k.mem (k.level3 (poolIdx2 n)) (poolIdx3 n)) with
      | false =>
        have missing : mmuIsValid (k.mem (mmuGetVaddr (k.mem k.level2 (poolIdx2 n))) (poolIdx3 n)) = false := leaf
        simp [valid, block, walk, missing] at mapped
      | true =>
        obtain ⟨valid0, block0, -⟩ := (tableNav_some _ _).mp tree.present0
        obtain ⟨valid1, block1, -⟩ := (tableNav_some _ _).mp tree.present1
        have there : tableNav (k.mem k.level2 (poolIdx2 n)) = some (k.level3 (poolIdx2 n)) :=
          (tableNav_some _ _).mpr ⟨valid, block, rfl⟩
        have root : (k.takeBack n).kernelTable = k.kernelTable := rfl
        have mem := takeBack_mem k n
        have here := tree.leaf_here there root mem (poolVa n) (poolVa_idx n inside)
        rw [isValid_zero, if_neg Bool.false_ne_true] at here
        have others (va : Word) (other : mmuGetTableIdx va ≠ mmuGetTableIdx (poolVa n)) :
            (k.takeBack n).translation va = k.translation va := by
          rw [poolVa_idx n inside] at other
          exact tree.leaf_others there root mem va other
        have tables := tree.leaf_table there root mem
        refine ⟨memKernelFreePage_mapped k valid0 valid1 block0 block1 n inside ⟨valid, block⟩ leaf,
          ⟨tree.leaf there root mem, fun m low => ?_, fun m low => ?_⟩, here, others, tables⟩
        · rw [takeBack_bit k n inside, tables, Bool.and_eq_true]
          by_cases same : m = n
          · subst same
            simp [Kernel.Linear, here, notTable]
          · have kept : (k.takeBack n).Linear m ↔ k.Linear m := by
              rw [Kernel.Linear, Kernel.Linear, others _ fun idx => same (poolVa_idx_inj m n low inside idx)]
            rw [kept, ← tree.bitmap m low]
            simp [same]
        · by_cases same : m = n
          · subst same
            exact .inl here
          · rw [Kernel.Linear, others _ fun idx => same (poolVa_idx_inj m n low inside idx)]
            exact tree.linear m low

end Tree

theorem Pool.Ok.next {w w' : Pool} (ok : w.Ok) (action : PoolAction) (fine : action.Fine w)
    (done : w.step action = some w') : w'.Ok := by
  obtain ⟨tree, held⟩ := ok
  cases action with
  | alloc perm =>
    obtain ⟨attr, known⟩ := Option.ne_none_iff_exists'.mp fine
    rcases tree.alloc perm attr known with oom | ⟨n, k', taken, after, handed, tables⟩
    · simp only [Pool.step, oom] at done
      obtain rfl := Option.some.inj done
      exact ⟨tree, held⟩
    · simp only [Pool.step, taken] at done
      obtain rfl := Option.some.inj done
      simp only [if_true, virtToPhys_poolVa, pmmPage_poolPage n handed.inside]
      obtain ⟨e, mapped, -⟩ := handed.mapped
      have away (m : Nat) (busy : w.kernel.translation (poolVa m) ≠ none) : m ≠ n := by
        rintro rfl
        exact busy handed.unmapped
      refine ⟨after, fun m member => ?_⟩
      rcases Finset.mem_insert.mp member with rfl | old
      · refine ⟨handed.inside, ⟨e, mapped⟩, fun table => ?_⟩
        exact (tables m handed.inside table).elim handed.notTable fun other => other.1 rfl
      · obtain ⟨low, ⟨e', there⟩, notTable⟩ := held m old
        have busy : w.kernel.translation (poolVa m) ≠ none := by
          rw [there]
          exact Option.some_ne_none _
        refine ⟨low, ⟨e', ?_⟩, fun table => ?_⟩
        · show k'.translation (poolVa m) = some (3, e')
          rw [handed.others _ (fun same => away m busy (poolVa_idx_inj m n low handed.inside same))
            fun _ => busy]
          exact there
        · exact (tables m low table).elim notTable fun other => busy other.2
  | free n =>
    obtain ⟨inside, ⟨e, mapped⟩, notTable⟩ := held n fine
    obtain ⟨freed, after, -, others, tables⟩ := tree.free n inside e mapped notTable
    simp only [Pool.step, freed] at done
    obtain rfl := Option.some.inj done
    refine ⟨after, fun m member => ?_⟩
    obtain ⟨other, old⟩ := Finset.mem_erase.mp member
    obtain ⟨low, ⟨e', there⟩, notTable'⟩ := held m old
    refine ⟨low, ⟨e', ?_⟩, fun table => notTable' ((tables _).mp table)⟩
    show (w.kernel.takeBack n).translation (poolVa m) = some (3, e')
    rw [others _ fun same => other (poolVa_idx_inj m n low inside same)]
    exact there

/-- Over any history of pages handed out and given back, mem_kernel_alloc_page maps a page of the pool that is neither
held nor a table to itself, or finds no page and changes nothing; mem_kernel_free_page unmaps its page. -/
theorem kernel_allocator (k₀ : Kernel) (tree : KernelTree k₀) (w : Pool)
    (run : Run (fun w (action : PoolAction) w' => w.step action = some w') (fun w action => action.Fine w) ⟨k₀, ∅⟩ w) :
    (∀ perm attr, kernelAttr perm = some attr →
      (∃ n k', memKernelAllocPage w.kernel perm = (⟨poolVa n, .ok⟩, k') ∧ n ∉ w.held ∧ Handed w.kernel k' n attr) ∨
      memKernelAllocPage w.kernel perm = (⟨0, .memOom⟩, w.kernel)) ∧
    (∀ n, n ∈ w.held → ∃ k', memKernelFreePage w.kernel (poolVa n) = .ok (.ok, k') ∧
      k'.translation (poolVa n) = none ∧
      ∀ va, mmuGetTableIdx va ≠ mmuGetTableIdx (poolVa n) → k'.translation va = w.kernel.translation va) := by
  have start : Pool.Ok ⟨k₀, ∅⟩ := ⟨tree, fun n member => absurd member (Finset.notMem_empty n)⟩
  have ok : w.Ok := run.invariant Pool.Ok start fun w action w' ok fine done => ok.next action fine done
  refine ⟨fun perm attr known => ?_, fun n member => ?_⟩
  · rcases ok.tree.alloc perm attr known with oom | ⟨n, k', taken, _, handed, _⟩
    · exact .inr oom
    · refine .inl ⟨n, k', taken, fun member => ?_, handed⟩
      obtain ⟨_, ⟨e, mapped⟩, _⟩ := ok.held n member
      rw [handed.unmapped] at mapped
      cases mapped
  · obtain ⟨inside, ⟨e, mapped⟩, notTable⟩ := ok.held n member
    obtain ⟨freed, _, unmapped, others, _⟩ := ok.tree.free n inside e mapped notTable
    exact ⟨_, freed, unmapped, others⟩

-- Three tables in pool pages 0 to 2 and the recursive slot; all other pages are free and no page is mapped.
def bareKernel : Kernel where
  mem p i :=
    if p = poolVa 0 ∧ i = 0 then tableEntry (poolVa 1)
    else if p = poolVa 0 ∧ i = 511 then tableEntry (poolVa 0)
    else if p = poolVa 1 ∧ i = 0 then tableEntry (poolVa 2)
    else 0
  memoryMap i := if i = 0 then 7 else 0
  kernelTable := poolVa 0
  trace := []

theorem bareKernel_nav (n : Nat) (inside : n < managed) : tableNav (tableEntry (poolVa n)) = some (poolVa n) := by
  have page := isPage_poolVa n inside
  exact (tableNav_some _ _).mpr ⟨tableEntry_valid _ page, tableEntry_block _ page, tableEntry_vaddr _ page⟩

theorem bareKernel_rows (i : Idx) :
    tableNav (bareKernel.mem (poolVa 0) i) = (if i = 0 then some (poolVa 1) else if i = 511 then some (poolVa 0) else none) ∧
    tableNav (bareKernel.mem (poolVa 1) i) = (if i = 0 then some (poolVa 2) else none) ∧
    bareKernel.mem (poolVa 2) i = 0 := by
  have apart (m n : Nat) (lowM : m < managed) (lowN : n < managed) (different : m ≠ n) :
      poolVa m ≠ poolVa n := fun same => different (poolVa_inj m n lowM lowN same)
  have nothing : tableNav 0#64 = none := by decide
  have one := apart 1 0 (by decide) (by decide) (by decide)
  have two := apart 2 0 (by decide) (by decide) (by decide)
  have both := apart 2 1 (by decide) (by decide) (by decide)
  refine ⟨?_, ?_, by simp [bareKernel, two, both]⟩
  · by_cases first : i = 0
    · simp [bareKernel, first, bareKernel_nav 1 (by decide)]
    · by_cases last : i = 511
      · subst last
        simp [bareKernel, bareKernel_nav 0 (by decide)]
      · simp [bareKernel, first, last, nothing, one.symm]
  · by_cases first : i = 0 <;> simp [bareKernel, first, one, nothing, bareKernel_nav 2 (by decide)]

theorem bareKernel_tables (q : List Idx) (path : TablePath q) (p : Word) (there : bareKernel.tableAt q = some p) :
    (q = [] ∧ p = poolVa 0) ∨ (q = [0] ∧ p = poolVa 1) ∨ (q = [0, 0] ∧ p = poolVa 2) := by
  have nothing (i : Idx) : tableNav (bareKernel.mem (poolVa 2) i) = none := by
    rw [(bareKernel_rows i).2.2]
    decide
  rw [Kernel.tableAt, show bareKernel.kernelTable = poolVa 0 from rfl] at there
  rcases q with _ | ⟨i, q⟩
  · exact .inl ⟨rfl, (Option.some.inj there).symm⟩
  · have slot : i ≠ 511 := fun same => path.2 (by rw [same]; rfl)
    rw [node_cons, (bareKernel_rows i).1, if_neg slot] at there
    split at there
    · next zero =>
      subst zero
      rcases q with _ | ⟨j, q⟩
      · exact .inr (.inl ⟨rfl, (Option.some.inj there).symm⟩)
      · rw [Option.bind_some, node_cons, (bareKernel_rows j).2.1] at there
        split at there
        · next zero =>
          subst zero
          rcases q with _ | ⟨l, q⟩
          · exact .inr (.inr ⟨rfl, (Option.some.inj there).symm⟩)
          · rw [Option.bind_some, node_cons, nothing] at there
            cases there
        · cases there
    · cases there

theorem bareKernel_levels : bareKernel.level1 = poolVa 1 ∧ bareKernel.level2 = poolVa 2 := by
  decide +kernel

theorem bareKernel_marked (n : Nat) : marked bareKernel.memoryMap n = true ↔ n < 3 := by
  have low : ∀ m : Fin 64, (7 : Word).getLsbD m = decide (m.val < 3) := by decide
  show (if n / bitsOf = 0 then (7 : Word) else 0).getLsbD (n % bitsOf) = true ↔ n < 3
  by_cases first : n / bitsOf = 0
  · have small : n < 64 := by
      unfold bitsOf at first
      omega
    rw [if_pos first, show n % bitsOf = n from Nat.mod_eq_of_lt small, low ⟨n, small⟩, decide_eq_true_eq]
  · have large : ¬ n < 3 := by
      unfold bitsOf at first
      omega
    simp [first, large]

theorem bareKernel_tree : KernelTree bareKernel := by
  obtain ⟨same1, same2⟩ := bareKernel_levels
  have root : bareKernel.kernelTable = poolVa 0 := rfl
  have apart (m n : Nat) (lowM : m < 3) (lowN : n < 3) (same : poolVa m = poolVa n) : m = n :=
    poolVa_inj m n (by rw [managed_eq]; omega) (by rw [managed_eq]; omega) same
  have shape : KernelShape bareKernel := by
    refine ⟨?_, ?_, ?_, fun q q' p path path' here here' => ?_⟩
    · rw [root, (bareKernel_rows 511).1]
      rfl
    · rw [root, (bareKernel_rows 0).1, same1]
      rfl
    · rw [same1, (bareKernel_rows 0).2.1, same2]
      rfl
    · rcases bareKernel_tables q path p here with ⟨rfl, rfl⟩ | ⟨rfl, rfl⟩ | ⟨rfl, rfl⟩ <;>
        rcases bareKernel_tables q' path' _ here' with ⟨rfl, same⟩ | ⟨rfl, same⟩ | ⟨rfl, same⟩ <;>
        first | rfl | exact absurd (apart _ _ (by decide) (by decide) same) (by decide)
  have unmapped (n : Nat) (inside : n < managed) : bareKernel.translation (poolVa n) = none := by
    rw [shape.pool_translation n inside, walk, same2, (bareKernel_rows _).2.2, isValid_zero]
    rfl
  have three : bareKernel.tableAt [] = some (poolVa 0) ∧ bareKernel.tableAt [0] = some (poolVa 1) ∧
      bareKernel.tableAt [0, 0] = some (poolVa 2) := by
    rw [shape.level1_at, shape.level2_at, same1, same2]
    exact ⟨rfl, rfl, rfl⟩
  refine ⟨shape, fun n inside => ?_, fun n inside => .inl (unmapped n inside)⟩
  rw [bareKernel_marked]
  constructor
  · intro few
    refine .inr ?_
    rcases (by omega : n = 0 ∨ n = 1 ∨ n = 2) with rfl | rfl | rfl
    · exact ⟨_, ⟨by simp, by simp⟩, three.1⟩
    · exact ⟨_, ⟨by simp, by simp⟩, three.2.1⟩
    · exact ⟨_, ⟨by simp, by simp⟩, three.2.2⟩
  · rintro (⟨found, mapped, -⟩ | ⟨q, path, there⟩)
    · rw [unmapped n inside] at mapped
      cases mapped
    · have page (m : Nat) (few : m < 3) (same : poolVa n = poolVa m) : n < 3 := by
        rw [poolVa_inj n m inside (by rw [managed_eq]; omega) same]
        exact few
      rcases bareKernel_tables q path _ there with ⟨_, same⟩ | ⟨_, same⟩ | ⟨_, same⟩
      · exact page 0 (by decide) same
      · exact page 1 (by decide) same
      · exact page 2 (by decide) same

theorem kernel_allocator_bare : ∃ w : Pool, 3 ∈ w.held ∧
    ∃ k, memKernelFreePage w.kernel (poolVa 3) = .ok (.ok, k) ∧ k.translation (poolVa 3) = none := by
  obtain ⟨w, taken⟩ : ∃ w, (⟨bareKernel, ∅⟩ : Pool).step (.alloc .rw) = some w := ⟨_, rfl⟩
  have run : Run (fun (w : Pool) (action : PoolAction) w' => w.step action = some w') (fun w action => action.Fine w)
      ⟨bareKernel, ∅⟩ w := .next _ _ (.alloc .rw) .start (Option.some_ne_none _) taken
  have member : 3 ∈ w.held := by
    cases taken
    decide +kernel
  obtain ⟨k, freed, unmapped, -⟩ := (kernel_allocator bareKernel bareKernel_tree w run).2 3 member
  exact ⟨w, member, k, freed, unmapped⟩

/-- A level-3 table that is taken for a page is mapped in the recursive window from then on. -/
theorem window_changes : ∃ k va k', KernelTree k ∧ memKernelAllocPage k .rw = (⟨poolVa 3, .ok⟩, k') ∧
    mmuGetTableIdx va ≠ mmuGetTableIdx (poolVa 3) ∧ k'.translation va ≠ k.translation va := by
  have result : (memKernelAllocPage bareKernel .rw).1 = ⟨poolVa 3, .ok⟩ := by decide +kernel
  refine ⟨bareKernel, 0xffffff8000000000, (memKernelAllocPage bareKernel .rw).2, bareKernel_tree,
    Prod.ext result rfl, by decide +kernel, by decide +kernel⟩

end Anthill
