import Anthill.KernelTree

set_option autoImplicit false

namespace Anthill

-- The shift drops the upper bits of the address on purpose.
def mmuGetNextKernelLevel (table : Word) (idx : Idx) : Word := (table <<< 9) ||| (BitVec.ofNat 64 idx.val <<< 12)

-- levels[0] to levels[3] of mem_kernel_alloc_page and mem_kernel_free_page.
def kernelLevel0 : Word := 0xfffffffffffff000

def kernelLevel1 (v : Word) : Word := mmuGetNextKernelLevel kernelLevel0 (tableIdx v 39)

def kernelLevel2 (v : Word) : Word := mmuGetNextKernelLevel (kernelLevel1 v) (tableIdx v 30)

def kernelLevel3 (v : Word) : Word := mmuGetNextKernelLevel (kernelLevel2 v) (tableIdx v 21)

/-- The physical address that the hardware finds for a kernel address: one with the top 16 bits set. -/
def Kernel.translate (k : Kernel) (va : Word) : Option Word :=
  if va >>> 48 = 0xffff then (k.translation va).map (physAddr va) else none

theorem mmuGetNextKernelLevel_toNat (table : Word) (idx : Idx) (aligned : table.toNat % 4096 = 0) :
    (mmuGetNextKernelLevel table idx).toNat = (table.toNat * 512 + idx.val * 4096) % 2 ^ 64 := by
  have low : (BitVec.ofNat 64 idx.val <<< 12).toNat = idx.val * 4096 := by
    have small := idx.isLt
    rw [BitVec.toNat_shiftLeft, BitVec.toNat_ofNat, Nat.shiftLeft_eq]
    omega
  have high : (table <<< 9).toNat = 2 ^ 21 * (table.toNat * 512 % 2 ^ 64 / 2 ^ 21) := by
    rw [BitVec.toNat_shiftLeft, Nat.shiftLeft_eq]
    omega
  have under : idx.val * 4096 < 2 ^ 21 := by
    have small := idx.isLt
    omega
  rw [mmuGetNextKernelLevel, BitVec.toNat_or, low, high, ← Nat.two_pow_add_eq_or_of_lt under]
  omega

theorem tableIdx_eq (v w : Word) (s s' : Nat) (same : v.toNat / 2 ^ s % 512 = w.toNat / 2 ^ s' % 512) :
    tableIdx v s = tableIdx w s' := by
  apply Fin.ext
  rw [tableIdx_val, tableIdx_val, same]

/-- One step of the window moves the indices one level up, and puts the new one behind them. -/
theorem mmuGetNextKernelLevel_path (table : Word) (idx : Idx) (aligned : table.toNat % 4096 = 0) (a b c d : Idx)
    (path : mmuGetTableIdx table = [a, b, c, d]) :
    mmuGetTableIdx (mmuGetNextKernelLevel table idx) = [b, c, d, idx] := by
  have value := mmuGetNextKernelLevel_toNat table idx aligned
  have small := idx.isLt
  have indices : [tableIdx table 39, tableIdx table 30, tableIdx table 21, tableIdx table 12] = [a, b, c, d] := path
  simp only [List.cons.injEq, and_true] at indices
  obtain ⟨-, rfl, rfl, rfl⟩ := indices
  have last : tableIdx (mmuGetNextKernelLevel table idx) 12 = idx := by
    apply Fin.ext
    rw [tableIdx_val, value]
    omega
  have next0 : tableIdx (mmuGetNextKernelLevel table idx) 39 = tableIdx table 30 := tableIdx_eq _ _ _ _ (by rw [value]; omega)
  have next1 : tableIdx (mmuGetNextKernelLevel table idx) 30 = tableIdx table 21 := tableIdx_eq _ _ _ _ (by rw [value]; omega)
  have next2 : tableIdx (mmuGetNextKernelLevel table idx) 21 = tableIdx table 12 := tableIdx_eq _ _ _ _ (by rw [value]; omega)
  rw [show mmuGetTableIdx (mmuGetNextKernelLevel table idx) = [_, _, _, _] from rfl, leafIdx, next0, next1, next2, last]

theorem walk_table (m : Mem) (level : Nat) (p p' : Word) (i : Idx) (idx : List Idx) (upper : level ≠ 3)
    (named : tableNav (m p i) = some p') : walk m level p (i :: idx) = walk m (level + 1) p' idx := by
  obtain ⟨valid, table, rfl⟩ := (tableNav_some _ _).mp named
  simp [walk, valid, table, upper]

theorem walk_page (m : Mem) (p p' : Word) (i : Idx) (named : tableNav (m p i) = some p') :
    walk m 3 p [i] = some (3, m p i) := by
  obtain ⟨valid, -, -⟩ := (tableNav_some _ _).mp named
  simp [walk, valid]

-- An entry that names a table, read as a page entry, names the same page.
theorem physAddr_table (va : Word) (aligned : va.toNat % 4096 = 0) (entry p : Word) (named : tableNav entry = some p) :
    physAddr va (3, entry) = virtToPhys p := by
  obtain ⟨-, -, rfl⟩ := (tableNav_some _ _).mp named
  have offset : va &&& offsetMask 3 = 0 := by
    apply BitVec.eq_of_toNat_eq
    have mask : (offsetMask 3).toNat = 2 ^ 12 - 1 := by decide
    rw [BitVec.toNat_and, mask, Nat.and_two_pow_sub_one_eq_mod]
    exact aligned
  have whole : vaddrMask &&& ~~~offsetMask 3 = vaddrMask := by decide
  rw [physAddr, offset, mmuGetVaddr, virtToPhys_physToVirt, BitVec.and_assoc, whole]
  exact BitVec.or_zero

/-- Through the recursive slot the window shows the four tables that a kernel address is translated by, each as
a page: mem_kernel_alloc_page and mem_kernel_free_page write the entries they mean to. -/
theorem recursive_window (k : Kernel) (v table1 table2 table3 : Word)
    (recursive : tableNav (k.mem k.kernelTable 511) = some k.kernelTable)
    (entry0 : tableNav (k.mem k.kernelTable (tableIdx v 39)) = some table1)
    (entry1 : tableNav (k.mem table1 (tableIdx v 30)) = some table2)
    (entry2 : tableNav (k.mem table2 (tableIdx v 21)) = some table3) :
    k.translate kernelLevel0 = some (virtToPhys k.kernelTable) ∧
      k.translate (kernelLevel1 v) = some (virtToPhys table1) ∧
      k.translate (kernelLevel2 v) = some (virtToPhys table2) ∧
      k.translate (kernelLevel3 v) = some (virtToPhys table3) := by
  -- A window address whose walk ends in an entry that names `p` is translated to `p`.
  have shows (va p : Word) (high : va >>> 48 = 0xffff) (aligned : va.toNat % 4096 = 0) (entry : Word)
      (ends : walk k.mem 0 k.kernelTable (mmuGetTableIdx va) = some (3, entry)) (named : tableNav entry = some p) :
      k.translate va = some (virtToPhys p) := by
    rw [Kernel.translate, if_pos high, Kernel.translation, ends, Option.map_some, physAddr_table va aligned entry p named]
  have value0 : kernelLevel0.toNat = 2 ^ 64 - 4096 := by decide
  have value1 : (kernelLevel1 v).toNat = _ := mmuGetNextKernelLevel_toNat kernelLevel0 (tableIdx v 39) (by decide)
  have page1 : (kernelLevel1 v).toNat % 4096 = 0 := by omega
  have value2 : (kernelLevel2 v).toNat = _ := mmuGetNextKernelLevel_toNat (kernelLevel1 v) (tableIdx v 30) page1
  have page2 : (kernelLevel2 v).toNat % 4096 = 0 := by omega
  have value3 : (kernelLevel3 v).toNat = _ := mmuGetNextKernelLevel_toNat (kernelLevel2 v) (tableIdx v 21) page2
  have page3 : (kernelLevel3 v).toNat % 4096 = 0 := by omega
  have upper (w : Word) (big : 2 ^ 64 - 2 ^ 48 ≤ w.toNat) : w >>> 48 = 0xffff := by
    apply BitVec.eq_of_toNat_eq
    have value : (0xffff : Word).toNat = 65535 := by decide
    have bound := w.isLt
    rw [BitVec.toNat_ushiftRight, Nat.shiftRight_eq_div_pow, value]
    omega
  have i0 := (tableIdx v 39).isLt
  have i1 := (tableIdx v 30).isLt
  have i2 := (tableIdx v 21).isLt
  have path0 : mmuGetTableIdx kernelLevel0 = [511, 511, 511, 511] := by decide
  have path1 : mmuGetTableIdx (kernelLevel1 v) = _ :=
    mmuGetNextKernelLevel_path kernelLevel0 (tableIdx v 39) (by decide) _ _ _ _ path0
  have path2 : mmuGetTableIdx (kernelLevel2 v) = _ :=
    mmuGetNextKernelLevel_path (kernelLevel1 v) (tableIdx v 30) page1 _ _ _ _ path1
  have path3 : mmuGetTableIdx (kernelLevel3 v) = _ :=
    mmuGetNextKernelLevel_path (kernelLevel2 v) (tableIdx v 21) page2 _ _ _ _ path2
  -- The walk turns through the slot once less with each step, and reads the tables of `v` instead.
  have turn (level : Nat) (upper : level ≠ 3) (idx : List Idx) :=
    walk_table k.mem level k.kernelTable k.kernelTable 511 idx upper recursive
  refine ⟨shows _ _ (upper _ (by omega)) (by omega) (k.mem k.kernelTable 511) ?_ recursive,
    shows _ _ (upper _ (by omega)) page1 (k.mem k.kernelTable (tableIdx v 39)) ?_ entry0,
    shows _ _ (upper _ (by omega)) page2 (k.mem table1 (tableIdx v 30)) ?_ entry1,
    shows _ _ (upper _ (by omega)) page3 (k.mem table2 (tableIdx v 21)) ?_ entry2⟩
  · rw [path0, turn 0 (by decide), turn 1 (by decide), turn 2 (by decide)]
    exact walk_page _ _ _ _ recursive
  · rw [path1, turn 0 (by decide), turn 1 (by decide), turn 2 (by decide)]
    exact walk_page _ _ _ _ entry0
  · rw [path2, turn 0 (by decide), turn 1 (by decide), walk_table _ 2 _ _ _ _ (by decide) entry0]
    exact walk_page _ _ _ _ entry1
  · rw [path3, turn 0 (by decide), walk_table _ 1 _ _ _ _ (by decide) entry0, walk_table _ 2 _ _ _ _ (by decide) entry1]
    exact walk_page _ _ _ _ entry2

-- One table of each level, as mmu_setup links them.
def slotKernel : Kernel where
  mem p i :=
    if p = poolVa 0 ∧ i = 511 then tableEntry (poolVa 0)
    else if p = poolVa 0 ∧ i = 0 then tableEntry (poolVa 1)
    else if p = poolVa 1 ∧ i = 0 then tableEntry (poolVa 2)
    else if p = poolVa 2 ∧ i = 0 then tableEntry (poolVa 3)
    else 0
  memoryMap := fun _ => 0
  kernelTable := poolVa 0
  trace := []

theorem recursive_window_slot :
    slotKernel.translate kernelLevel0 = some (virtToPhys (poolVa 0)) ∧
      slotKernel.translate (kernelLevel1 memVaKernelStart) = some (virtToPhys (poolVa 1)) ∧
      slotKernel.translate (kernelLevel2 memVaKernelStart) = some (virtToPhys (poolVa 2)) ∧
      slotKernel.translate (kernelLevel3 memVaKernelStart) = some (virtToPhys (poolVa 3)) :=
  recursive_window slotKernel memVaKernelStart (poolVa 1) (poolVa 2) (poolVa 3) (by decide +kernel) (by decide +kernel)
    (by decide +kernel) (by decide +kernel)

end Anthill
