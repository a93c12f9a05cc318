import Anthill.KernelPool

set_option autoImplicit false

namespace Anthill

open Radix

/-- How deep a walk from the kernel's root can be when it comes to a table, whatever has been unmapped
since. The recursive slot leads back to the root, so a walk may be behind its depth. -/
structure KernelRanked (k : Kernel) (rank : Word → Option Nat) : Prop where
  root : rank k.kernelTable = some 0
  edge : ∀ p r i, rank p = some r → r < 3 → mmuIsValid (k.mem p i) = true →
    mmuIsBlock (k.mem p i) = false → ∃ r', r' ≤ r + 1 ∧ rank (mmuGetVaddr (k.mem p i)) = some r'
  forward : ∀ p r i, rank p = some r → r < 2 → mmuIsValid (k.mem p i) = true →
    mmuIsBlock (k.mem p i) = false ∧ (rank (mmuGetVaddr (k.mem p i)) = some (r + 1) → i = 0)
  pool : ∀ p n, rank p = some 2 → n < managed → mmuIsValid (k.mem p (poolIdx2 n)) = true →
    mmuIsBlock (k.mem p (poolIdx2 n)) = false

open Classical in
noncomputable def Kernel.rank (k : Kernel) (p : Word) : Option Nat :=
  if p = k.kernelTable then some 0
  else if p = k.level1 then some 1
  else if p = k.level2 then some 2
  else if ∃ j, k.hasLevel3 j ∧ p = k.level3 j then some 3
  else none

theorem rank_none (k : Kernel) (p : Word) : k.rank p = none ↔ ¬ KernelTable k p := by
  simp only [Kernel.rank, KernelTable]
  split_ifs <;> simp_all

theorem KernelWf.ranked {k : Kernel} (wf : KernelWf k) : KernelRanked k k.rank := by
  have at0 : k.rank k.kernelTable = some 0 := by simp [Kernel.rank]
  have at1 : k.rank k.level1 = some 1 := by simp [Kernel.rank, wf.apart1]
  have at2 : k.rank k.level2 = some 2 := by simp [Kernel.rank, wf.apart2]
  have at3 (j : Idx) (there : k.hasLevel3 j) : k.rank (k.level3 j) = some 3 := by
    obtain ⟨not0, not1, not2⟩ := wf.apart3 j there
    simp only [Kernel.rank, not0, not1, not2, if_false]
    exact if_pos ⟨j, there, rfl⟩
  have table (p : Word) (r : Nat) (ranked : k.rank p = some r) : (r = 0 ∧ p = k.kernelTable) ∨
      (r = 1 ∧ p = k.level1) ∨ (r = 2 ∧ p = k.level2) ∨ r = 3 := by
    simp only [Kernel.rank] at ranked
    split_ifs at ranked with h0 h1 h2 h3
    all_goals have value := Option.some.inj ranked
    · exact .inl ⟨value.symm, h0⟩
    · exact .inr (.inl ⟨value.symm, h1⟩)
    · exact .inr (.inr (.inl ⟨value.symm, h2⟩))
    · exact .inr (.inr (.inr value.symm))
  -- Slot 0 leads one level down, the others of the root back to it.
  have step0 (i : Idx) (valid : mmuIsValid (k.mem k.kernelTable i) = true) :
      mmuIsBlock (k.mem k.kernelTable i) = false ∧
        ((i = 0 ∧ k.rank (mmuGetVaddr (k.mem k.kernelTable i)) = some 1) ∨
          k.rank (mmuGetVaddr (k.mem k.kernelTable i)) = some 0) := by
    by_cases zero : i = 0
    · subst zero
      exact ⟨wf.table0, .inl ⟨rfl, at1⟩⟩
    · obtain ⟨table, back⟩ := wf.top i valid zero
      exact ⟨table, .inr (by rw [back, at0])⟩
  have step1 (i : Idx) (valid : mmuIsValid (k.mem k.level1 i) = true) :
      i = 0 ∧ mmuIsBlock (k.mem k.level1 i) = false ∧
        k.rank (mmuGetVaddr (k.mem k.level1 i)) = some 2 := by
    obtain rfl := wf.middle i valid
    exact ⟨rfl, wf.table1, at2⟩
  constructor
  case root => exact at0
  case edge =>
    intro p r i ranked low valid block
    rcases table p r ranked with ⟨rfl, rfl⟩ | ⟨rfl, rfl⟩ | ⟨rfl, rfl⟩ | rfl
    · rcases (step0 i valid).2 with ⟨_, next⟩ | next
      · exact ⟨1, by decide, next⟩
      · exact ⟨0, by decide, next⟩
    · exact ⟨2, by decide, (step1 i valid).2.2⟩
    · exact ⟨3, by decide, at3 i ⟨valid, block⟩⟩
    · omega
  case forward =>
    intro p r i ranked low valid
    rcases table p r ranked with ⟨rfl, rfl⟩ | ⟨rfl, rfl⟩ | ⟨rfl, _⟩ | rfl
    · obtain ⟨block, next⟩ := step0 i valid
      refine ⟨block, fun one => ?_⟩
      rcases next with ⟨zero, _⟩ | back
      · exact zero
      · rw [back] at one
        cases one
    · exact ⟨(step1 i valid).2.1, fun _ => (step1 i valid).1⟩
    · omega
    · omega
  case pool =>
    intro p n ranked inside valid
    rcases table p 2 ranked with ⟨h, _⟩ | ⟨h, _⟩ | ⟨_, rfl⟩ | h
    · omega
    · omega
    · exact wf.poolTable n inside valid
    · omega

theorem freeRange_keeps (k : Kernel) (paddr shift : Word) :
    (freeRange k paddr shift).mem = k.mem ∧ (freeRange k paddr shift).kernelTable = k.kernelTable := by
  unfold freeRange
  split_ifs
  · generalize List.range (shift / pageSize).toNat = pages
    induction pages generalizing k with
    | nil => exact ⟨rfl, rfl⟩
    | cons n pages ih => exact ih _
  · exact ⟨rfl, rfl⟩

-- Which marks a range that is freed loses.
theorem freeRange_marked (k : Kernel) (paddr shift : Word) (n : Nat) :
    marked (freeRange k paddr shift).memoryMap n = true ↔ marked k.memoryMap n = true ∧
      ¬ (paddr < paddr + shift ∧ ∃ m, m < (shift / pageSize).toNat ∧
        n = pmmPage (paddr + BitVec.ofNat 64 m * pageSize)) := by
  unfold freeRange
  split_ifs with grows
  · have range : (∃ m, m < (shift / pageSize).toNat ∧
        n = pmmPage (paddr + BitVec.ofNat 64 m * pageSize)) ↔
        ∃ m, m ∈ List.range (shift / pageSize).toNat ∧
          n = pmmPage (paddr + BitVec.ofNat 64 m * pageSize) := by
      simp only [List.mem_range]
    rw [range]
    generalize List.range (shift / pageSize).toNat = pages
    induction pages generalizing k with
    | nil => simp
    | cons m pages ih =>
      rw [List.foldl_cons]
      refine (ih _).trans ?_
      simp only [marked_pmmFree, Bool.and_eq_true, Bool.not_eq_true', decide_eq_false_iff_not,
        List.mem_cons, grows, true_and]
      constructor
      · rintro ⟨⟨set, notHere⟩, notLater⟩
        refine ⟨set, ?_⟩
        rintro ⟨x, rfl | later, same⟩
        · exact notHere same
        · exact notLater ⟨x, later, same⟩
      · rintro ⟨set, notAny⟩
        exact ⟨⟨set, fun same => notAny ⟨m, .inl rfl, same⟩⟩,
          fun ⟨x, later, same⟩ => notAny ⟨x, .inr later, same⟩⟩
  · simp [grows]

/-- What mem_kernel_free_page can do with an address that a user entry names, whether the allocator
handed it out or not. -/
structure Reclaimed (k k' : Kernel) (rank : Word → Option Nat) (va : Word) (err : KernErr) : Prop where
  ranked : KernelRanked k' rank
  rows : ∀ p, rank p = none → k'.mem p = k.mem p
  marks : ∀ n, n < managed → (marked k'.memoryMap n = true ↔
    marked k.memoryMap n = true ∧ ¬ (err = .ok ∧ poolVa n = va))

theorem KernelRanked.shrink {k k' : Kernel} {rank : Word → Option Nat} (ranked : KernelRanked k rank)
    (root : k'.kernelTable = k.kernelTable)
    (fewer : ∀ p i, mmuIsValid (k'.mem p i) = true → rank p ≠ none → k'.mem p i = k.mem p i) :
    KernelRanked k' rank where
  root := by rw [root]; exact ranked.root
  edge p r i here low valid := by
    have same := fewer p i valid (by rw [here]; simp)
    rw [same] at valid ⊢
    exact ranked.edge p r i here low valid
  forward p r i here low valid := by
    have same := fewer p i valid (by rw [here]; simp)
    rw [same] at valid ⊢
    exact ranked.forward p r i here low valid
  pool p n here inside valid := by
    have same := fewer p _ valid (by rw [here]; simp)
    rw [same] at valid ⊢
    exact ranked.pool p n here inside valid

theorem masked_toNat (entry : Word) :
    (entry &&& vaddrMask).toNat < 2 ^ 48 ∧ (entry &&& vaddrMask).toNat % 4096 = 0 := by
  constructor
  · rw [BitVec.toNat_and]
    exact lt_of_le_of_lt Nat.and_le_right (by decide)
  · have low : entry &&& vaddrMask &&& 0xfff = 0 := by
      rw [BitVec.and_assoc]
      have clear : vaddrMask &&& 0xfff = 0 := by decide
      rw [clear]
      simp
    have value := congrArg BitVec.toNat low
    rw [BitVec.toNat_and, show (0xfff : Word).toNat = 2 ^ 12 - 1 from rfl,
      Nat.and_two_pow_sub_one_eq_mod] at value
    exact value

theorem pmmPage_masked (entry : Word) (n : Nat) (inside : n < managed) :
    n = pmmPage (entry &&& vaddrMask) ↔ poolVa n = mmuGetVaddr entry := by
  obtain ⟨small, aligned⟩ := masked_toNat entry
  constructor
  · intro page
    have value := poolPage_toNat n inside
    rw [managed_eq] at inside
    unfold poolVa mmuGetVaddr
    congr 1
    apply BitVec.eq_of_toNat_eq
    rw [value]
    rw [pmmPage, BitVec.toNat_udiv, BitVec.toNat_sub, show memLow.toNat = 0x80000 from rfl,
      show pageSize.toNat = 4096 from rfl] at page
    omega
  · intro same
    have physical : poolPage n = entry &&& vaddrMask := physToVirt_inj _ _ same
    rw [← physical, pmmPage_poolPage n inside]

-- A block that no pool page lies in begins above the pool, and so does every page freed with it.
theorem block_above (entry : Word) (top : tableIdx (mmuGetVaddr entry) 39 = 0)
    (middle : tableIdx (mmuGetVaddr entry) 30 = 0)
    (outside : ∀ n, n < managed → poolIdx2 n ≠ tableIdx (mmuGetVaddr entry) 21) :
    0x3e000000 ≤ (entry &&& vaddrMask).toNat ∧ (entry &&& vaddrMask).toNat < 2 ^ 30 := by
  obtain ⟨small, aligned⟩ := masked_toNat entry
  have value : (mmuGetVaddr entry).toNat = (entry &&& vaddrMask).toNat + 0xffff000000000000 := by
    unfold mmuGetVaddr physToVirt memVaKernelStart
    rw [BitVec.toNat_add, show (0xffff000000000000 : Word).toNat = 0xffff000000000000 from rfl]
    omega
  have top' := congrArg Fin.val top
  have middle' := congrArg Fin.val middle
  rw [tableIdx_val, value, Fin.val_zero] at top' middle'
  refine ⟨?_, by omega⟩
  by_contra low
  have inside : ((entry &&& vaddrMask).toNat / 0x200000 * 0x200000 - 0x80000) / 4096 < managed := by
    rw [managed_eq]
    omega
  refine outside _ inside (Fin.ext ?_)
  have page := poolVa_toNat _ inside
  rw [poolIdx2, tableIdx_val, tableIdx_val, value, page]
  omega

section FreePage

variable {k k' : Kernel} {rank : Word → Option Nat} (ranked : KernelRanked k rank) (entry : Word)

include ranked

theorem KernelRanked.untouched (err : KernErr) (failed : err ≠ .ok) :
    Reclaimed k k rank (mmuGetVaddr entry) err :=
  ⟨ranked, fun _ _ => rfl, fun _ _ => by simp [failed]⟩

theorem KernelRanked.cleared (p : Word) (j : Idx) (r : Nat) (here : rank p = some r) (shift : Word)
    (frees : ∀ n, n < managed → ((virtToPhys (mmuGetVaddr entry) <
        virtToPhys (mmuGetVaddr entry) + shift ∧ ∃ m, m < (shift / pageSize).toNat ∧
          n = pmmPage (virtToPhys (mmuGetVaddr entry) + BitVec.ofNat 64 m * pageSize)) ↔
      poolVa n = mmuGetVaddr entry)) :
    Reclaimed k (freeRange (k.write p j 0) (virtToPhys (mmuGetVaddr entry)) shift) rank
      (mmuGetVaddr entry) .ok := by
  obtain ⟨mem, root⟩ := freeRange_keeps (k.write p j 0) (virtToPhys (mmuGetVaddr entry)) shift
  refine ⟨ranked.shrink (root.trans rfl) fun p' i valid _ => ?_, fun p' none => ?_, fun n inside => ?_⟩
  · rw [mem, Kernel.write_mem] at valid ⊢
    apply put_other
    by_contra both
    push Not at both
    obtain ⟨rfl, rfl⟩ := both
    rw [put_same, isValid_zero] at valid
    cases valid
  · have other : p' ≠ p := by
      rintro rfl
      rw [here] at none
      cases none
    rw [mem, Kernel.write_mem, put_page_other _ _ _ _ _ other]
  · rw [freeRange_marked, frees n inside]
    simp [Kernel.write]

theorem KernelRanked.clearedPage (p : Word) (j : Idx) (r : Nat) (here : rank p = some r) :
    Reclaimed k (freeRange (k.write p j 0) (virtToPhys (mmuGetVaddr entry)) pageSize) rank
      (mmuGetVaddr entry) .ok := by
  refine ranked.cleared entry p j r here pageSize fun n inside => ?_
  have one : (pageSize / pageSize).toNat = 1 := by decide
  have physical : virtToPhys (mmuGetVaddr entry) = entry &&& vaddrMask := virtToPhys_physToVirt _
  have small := (masked_toNat entry).1
  have grows : entry &&& vaddrMask < (entry &&& vaddrMask) + pageSize := by
    unfold pageSize
    bv_omega
  rw [physical, one, ← pmmPage_masked entry n inside]
  simp [grows]

theorem KernelRanked.clearedBlock (p : Word) (j : Idx) (here : rank p = some 2)
    (top : tableIdx (mmuGetVaddr entry) 39 = 0) (middle : tableIdx (mmuGetVaddr entry) 30 = 0)
    (slot : j = tableIdx (mmuGetVaddr entry) 21) (valid : mmuIsValid (k.mem p j) = true)
    (block : mmuIsBlock (k.mem p j) = true) :
    Reclaimed k (freeRange (k.write p j 0) (virtToPhys (mmuGetVaddr entry)) (pageSize <<< 9)) rank
      (mmuGetVaddr entry) .ok := by
  have outside (n : Nat) (inside : n < managed) : poolIdx2 n ≠ tableIdx (mmuGetVaddr entry) 21 := by
    rw [← slot]
    rintro rfl
    rw [ranked.pool p n here inside valid] at block
    cases block
  obtain ⟨above, below⟩ := block_above entry top middle outside
  refine ranked.cleared entry p j 2 here (pageSize <<< 9) fun n inside => iff_of_false ?_ ?_
  · have many : (pageSize <<< 9 / pageSize).toNat = 512 := by decide
    have physical : virtToPhys (mmuGetVaddr entry) = entry &&& vaddrMask := virtToPhys_physToVirt _
    rw [physical, many, managed_eq] at *
    rintro ⟨_, m, low, page⟩
    rw [pmmPage, BitVec.toNat_udiv, BitVec.toNat_sub, BitVec.toNat_add, BitVec.toNat_mul,
      BitVec.toNat_ofNat, show memLow.toNat = 0x80000 from rfl,
      show pageSize.toNat = 4096 from rfl] at page
    omega
  · intro same
    have physical : poolPage n = entry &&& vaddrMask := physToVirt_inj _ _ same
    have value := poolPage_toNat n inside
    rw [physical] at value
    rw [managed_eq] at inside
    omega

/-- mem_kernel_free_page on the address that an entry names loses at most that page. -/
theorem memKernelFreePage_any (err : KernErr)
    (done : memKernelFreePage k (mmuGetVaddr entry) = .ok (err, k')) :
    Reclaimed k k' rank (mmuGetVaddr entry) err := by
  have missing : Reclaimed k k rank (mmuGetVaddr entry) .memUnm := ranked.untouched entry _ (by decide)
  unfold memKernelFreePage mmuGetTableIdx upperIdx at done
  generalize hi0 : tableIdx (mmuGetVaddr entry) 39 = i0 at done
  generalize hi1 : tableIdx (mmuGetVaddr entry) 30 = i1 at done
  generalize hi2 : tableIdx (mmuGetVaddr entry) 21 = i2 at done
  generalize leafIdx (mmuGetVaddr entry) = i3 at done
  simp only [List.cons_append, List.nil_append] at done
  cases valid0 : mmuIsValid (k.mem k.kernelTable i0) with
  | false =>
    simp only [kernelRemove, valid0, Bool.not_false, if_true, Except.ok.injEq, Prod.mk.injEq] at done
    obtain ⟨rfl, rfl⟩ := done
    exact missing
  | true =>
    obtain ⟨block0, first⟩ := ranked.forward _ _ i0 ranked.root (by decide) valid0
    obtain ⟨r1, low1, rank1⟩ := ranked.edge _ _ i0 ranked.root (by decide) valid0 block0
    rw [kernelRemove_table k _ 0 _ _ _ (by decide) valid0 block0] at done
    generalize hlevel1 : mmuGetVaddr (k.mem k.kernelTable i0) = level1 at *
    cases valid1 : mmuIsValid (k.mem level1 i1) with
    | false =>
      simp only [kernelRemove, valid1, Bool.not_false, if_true, Except.ok.injEq, Prod.mk.injEq] at done
      obtain ⟨rfl, rfl⟩ := done
      exact missing
    | true =>
      obtain ⟨block1, second⟩ := ranked.forward _ _ i1 rank1 (by omega) valid1
      obtain ⟨r2, low2, rank2⟩ := ranked.edge _ _ i1 rank1 (by omega) valid1 block1
      rw [kernelRemove_table k _ 1 _ _ _ (by decide) valid1 block1] at done
      generalize hlevel2 : mmuGetVaddr (k.mem level1 i1) = level2 at *
      cases valid2 : mmuIsValid (k.mem level2 i2) with
      | false =>
        simp only [kernelRemove, valid2, Bool.not_false, if_true, Except.ok.injEq,
          Prod.mk.injEq] at done
        obtain ⟨rfl, rfl⟩ := done
        exact missing
      | true =>
        cases block2 : mmuIsBlock (k.mem level2 i2) with
        | true =>
          -- Only a walk that lost no level finds a block.
          have deep : r2 = 2 := by
            by_contra other
            have table := (ranked.forward _ _ i2 rank2 (by omega) valid2).1
            rw [block2] at table
            cases table
          subst deep
          obtain rfl : r1 = 1 := by omega
          simp only [kernelRemove, valid2, block2, Bool.not_true, Bool.false_eq_true, if_false,
            Bool.or_true, if_true] at done
          have result := Prod.mk.inj (Except.ok.inj done)
          rw [← result.1, ← result.2]
          exact ranked.clearedBlock entry level2 i2 rank2 (hi0.trans (first rank1))
            (hi1.trans (second rank2)) hi2.symm valid2 block2
        | false =>
          obtain ⟨r3, _, rank3⟩ := ranked.edge _ _ i2 rank2 (by omega) valid2 block2
          rw [kernelRemove_table k _ 2 _ _ _ (by decide) valid2 block2] at done
          generalize mmuGetVaddr (k.mem level2 i2) = level3 at *
          cases valid3 : mmuIsValid (k.mem level3 i3) with
          | false =>
            simp only [kernelRemove, valid3, Bool.not_false, if_true, Except.ok.injEq,
              Prod.mk.injEq] at done
            obtain ⟨rfl, rfl⟩ := done
            exact missing
          | true =>
            simp only [kernelRemove, valid3, Bool.not_true, Bool.false_eq_true, if_false,
              beq_self_eq_true, Bool.true_or, if_true] at done
            have result := Prod.mk.inj (Except.ok.inj done)
            rw [← result.1, ← result.2]
            exact ranked.clearedPage entry level3 i3 r3 rank3

end FreePage

end Anthill
