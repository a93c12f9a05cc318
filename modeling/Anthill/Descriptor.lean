import Mathlib.Data.BitVec
import Mathlib.Tactic.SplitIfs

set_option autoImplicit false

namespace Anthill

abbrev Word := BitVec 64

-- Kernel and physical addresses.
def memLow : Word := 0x80000
def memHigh : Word := 0x3e000000
def memVaKernelStart : Word := 0xffff000000000000
def memRd : Word := memVaKernelStart + 0x3e000000
def memMmio : Word := memVaKernelStart + 0x3f000000
def pageSize : Word := 0x1000

def virtToPhys (x : Word) : Word := x - memVaKernelStart
def physToVirt (x : Word) : Word := x + memVaKernelStart

def memSizeToPages (s : Word) : Word := ((s + pageSize - 1) &&& ~~~(pageSize - 1)) / pageSize

-- Descriptor bits.
def attValid : Word := (1 : Word) <<< 0
def attBlock : Word := (0 : Word) <<< 1
def attPage : Word := (1 : Word) <<< 1
def attDevice : Word := (0 : Word) <<< 2
def attNormal : Word := (8 : Word) <<< 2
def attApOff : Nat := 6
def attApNaRw : Word := (0 : Word) <<< attApOff
def attApRwRw : Word := (1 : Word) <<< attApOff
def attApNaRo : Word := (2 : Word) <<< attApOff
def attApRoRo : Word := (3 : Word) <<< attApOff
def attAfSet : Word := (1 : Word) <<< 10
def attPxnExec : Word := (0 : Word) <<< 53
def attPxnNoexec : Word := (1 : Word) <<< 53
def attUxnExec : Word := (0 : Word) <<< 54
def attUxnNoexec : Word := (1 : Word) <<< 54
def attRefOff : Nat := 55
def attRefLimit : Word := 0xf
def vaddrMask : Word := 0x0000fffffffff000

abbrev Idx := Fin 512

instance idxNeZero : NeZero 512 := ⟨by decide⟩

def tableIdx (vaddr : Word) (shift : Nat) : Idx :=
  ⟨((vaddr >>> shift) &&& 0x1ff).toNat, by
    have bounded : ((vaddr >>> shift) &&& 0x1ff#64).toNat ≤ (0x1ff#64).toNat := by
      rw [BitVec.toNat_and]
      exact Nat.and_le_right
    have small : (0x1ff#64).toNat < 512 := by decide
    exact lt_of_le_of_lt bounded small⟩

-- The indices of levels 0, 1 and 2, and the index of level 3.
def upperIdx (vaddr : Word) : List Idx := [tableIdx vaddr 39, tableIdx vaddr 30, tableIdx vaddr 21]

def leafIdx (vaddr : Word) : Idx := tableIdx vaddr 12

def mmuGetTableIdx (vaddr : Word) : List Idx := upperIdx vaddr ++ [leafIdx vaddr]

theorem tableIdx_val (vaddr : Word) (shift : Nat) :
    (tableIdx vaddr shift).val = vaddr.toNat / 2 ^ shift % 512 := by
  have mask : (0x1ff : Word).toNat = 2 ^ 9 - 1 := by decide
  unfold tableIdx
  simp only []
  rw [BitVec.toNat_and, mask, Nat.and_two_pow_sub_one_eq_mod, BitVec.toNat_ushiftRight,
    Nat.shiftRight_eq_div_pow]

@[simp] theorem upperIdx_length (vaddr : Word) : (upperIdx vaddr).length = 3 := rfl

@[simp] theorem mmuGetTableIdx_length (vaddr : Word) : (mmuGetTableIdx vaddr).length = 4 := rfl

def mmuGetVaddr (entry : Word) : Word := physToVirt (entry &&& vaddrMask)

def mmuIsBlock (entry : Word) : Bool := (entry &&& ((1 : Word) <<< 1)) == 0

def mmuIsValid (entry : Word) : Bool := (entry &&& ((1 : Word) <<< 0)) != 0

def refCount (entry : Word) : Word := (entry >>> attRefOff) &&& 0xf

def setRef (entry ref : Word) : Word := (entry &&& ~~~((0xf : Word) <<< attRefOff)) ||| (ref <<< attRefOff)

def apBits (entry : Word) : Word := entry &&& ((3 : Word) <<< attApOff)

def mmuMarkCopied (entry : Word) : Word :=
  let ref := refCount entry
  let entry := if ref < attRefLimit then setRef entry (ref + 1) else entry
  -- A page that user space may write is demoted; any other keeps its permission.
  if apBits entry = attApRwRw then (entry &&& ~~~((3 : Word) <<< attApOff)) ||| attApNaRo else entry

-- The old counter, and the entry with the counter taken down by one.
def mmuMarkFreed (entry : Word) : Word × Word :=
  let ref := refCount entry
  (ref, if 0 < ref then setRef entry (ref - 1) else entry)

-- The entry that links a freshly allocated table page at kernel address `va`.
def tableEntry (va : Word) : Word := virtToPhys va ||| attValid ||| attPage ||| attAfSet

-- The leaf written by mem_user_map_page.
def userLeaf (paddr pattr : Word) : Word := paddr ||| pattr ||| attValid ||| attPage ||| attAfSet

-- The last three statements of mmu_handle_data_abort: new address, user-writable.
def copiedLeaf (entry va : Word) : Word :=
  ((entry &&& ~~~vaddrMask) &&& ~~~((3 : Word) <<< attApOff)) ||| (virtToPhys va ||| attApRwRw)

-- The kernel address of a page frame that a descriptor can name.
def IsPage (va : Word) : Prop := virtToPhys va &&& vaddrMask = virtToPhys va

theorem virtToPhys_physToVirt (x : Word) : virtToPhys (physToVirt x) = x := by
  simp [virtToPhys, physToVirt]

theorem physToVirt_virtToPhys (x : Word) : physToVirt (virtToPhys x) = x := by
  simp [virtToPhys, physToVirt]

theorem physToVirt_inj (x y : Word) (same : physToVirt x = physToVirt y) : x = y := by
  rw [← virtToPhys_physToVirt x, same, virtToPhys_physToVirt]

-- Rewriting the bits under one mask leaves the bits under a disjoint mask alone.
theorem and_clear_or (e a x b : Word) (cleared : a &&& b = 0) (written : x &&& b = 0) :
    (e &&& ~~~a ||| x) &&& b = e &&& b := by
  ext i hi
  have bitA : (a &&& b)[i] = (0#64)[i] := by rw [cleared]; rfl
  have bitX : (x &&& b)[i] = (0#64)[i] := by rw [written]; rfl
  simp only [BitVec.getElem_and, BitVec.getElem_or, BitVec.getElem_not] at bitA bitX ⊢
  revert bitA bitX
  cases a[i] <;> cases b[i] <;> cases x[i] <;> simp

theorem shiftLeft_and (y b : Word) (n : Nat) (low : b.toNat < 2 ^ n) : (y <<< n) &&& b = 0 := by
  ext i hi
  simp only [BitVec.getElem_and, BitVec.getElem_shiftLeft]
  by_cases under : i < n
  · simp [under]
  · have high : b[i] = false := by
      rw [BitVec.getElem_eq_testBit_toNat]
      exact Nat.testBit_lt_two_pow (lt_of_lt_of_le low (Nat.pow_le_pow_right (by decide) (by omega)))
    simp [high]

-- The bits that decide where a walk goes: valid, descriptor type and address.
def navMask : Word := 0x0000fffffffff003

def nav (entry : Word) : Option Word :=
  if mmuIsValid entry then some (mmuGetVaddr entry) else none

theorem nav_some (entry va : Word) :
    nav entry = some va ↔ mmuIsValid entry = true ∧ mmuGetVaddr entry = va := by
  cases valid : mmuIsValid entry <;> simp [nav, valid]

theorem and_of_nav (entry b : Word) (inside : navMask &&& b = b) :
    entry &&& b = (entry &&& navMask) &&& b := by
  rw [BitVec.and_assoc, inside]

theorem isValid_zero : mmuIsValid (0 : Word) = false := by decide

theorem isBlock_zero : mmuIsBlock (0 : Word) = true := by decide

theorem isValid_congr (e e' : Word) (same : e' &&& navMask = e &&& navMask) :
    mmuIsValid e' = mmuIsValid e := by
  unfold mmuIsValid
  rw [and_of_nav e' _ (by decide), same, ← and_of_nav e _ (by decide)]

theorem isBlock_congr (e e' : Word) (same : e' &&& navMask = e &&& navMask) :
    mmuIsBlock e' = mmuIsBlock e := by
  unfold mmuIsBlock
  rw [and_of_nav e' _ (by decide), same, ← and_of_nav e _ (by decide)]

theorem getVaddr_congr (e e' : Word) (same : e' &&& navMask = e &&& navMask) :
    mmuGetVaddr e' = mmuGetVaddr e := by
  unfold mmuGetVaddr
  rw [and_of_nav e' _ (by decide), same, ← and_of_nav e _ (by decide)]

theorem nav_congr (e e' : Word) (same : e' &&& navMask = e &&& navMask) : nav e' = nav e := by
  simp only [nav, isValid_congr e e' same, getVaddr_congr e e' same]

theorem setRef_and (entry ref b : Word) (disjoint : ((0xf : Word) <<< attRefOff) &&& b = 0)
    (low : b.toNat < 2 ^ attRefOff) : setRef entry ref &&& b = entry &&& b :=
  and_clear_or entry _ _ b disjoint (shiftLeft_and ref b attRefOff low)

theorem refCount_setRef (entry ref : Word) (small : ref.toNat < 16) :
    refCount (setRef entry ref) = ref := by
  have cleared : (~~~((0xf : Word) <<< 55)) >>> 55 &&& 0xf = (0 : Word) := by decide
  have kept : (ref <<< 55) >>> 55 &&& 0xf = ref := by
    apply BitVec.eq_of_toNat_eq
    rw [BitVec.toNat_and, BitVec.toNat_ushiftRight, BitVec.toNat_shiftLeft, Nat.shiftLeft_eq,
      Nat.shiftRight_eq_div_pow]
    have mask : (0xf : Word).toNat = 2 ^ 4 - 1 := by decide
    rw [mask, Nat.and_two_pow_sub_one_eq_mod]
    omega
  unfold refCount setRef attRefOff
  rw [BitVec.ushiftRight_or_distrib, BitVec.ushiftRight_and_distrib, BitVec.and_or_distrib_right,
    BitVec.and_assoc, cleared, kept]
  simp

theorem refCount_bound (entry : Word) : (refCount entry).toNat ≤ 15 := by
  unfold refCount
  rw [BitVec.toNat_and]
  exact Nat.and_le_right

theorem refCount_congr (e e' : Word)
    (same : e' &&& ((0xf : Word) <<< attRefOff) = e &&& ((0xf : Word) <<< attRefOff)) :
    refCount e' = refCount e := by
  have masked (x : Word) : refCount x = (x &&& ((0xf : Word) <<< attRefOff)) >>> attRefOff := by
    unfold refCount
    rw [BitVec.ushiftRight_and_distrib]
    rfl
  rw [masked, masked, same]

theorem apBits_clear_or (entry : Word) :
    apBits (entry &&& ~~~((3 : Word) <<< attApOff) ||| attApNaRo) = attApNaRo := by
  unfold apBits
  rw [BitVec.and_or_distrib_right, BitVec.and_assoc]
  have cleared : ~~~((3 : Word) <<< attApOff) &&& (3 : Word) <<< attApOff = 0 := by decide
  have kept : attApNaRo &&& (3 : Word) <<< attApOff = attApNaRo := by decide
  rw [cleared, kept]
  simp

@[simp] theorem mmuMarkFreed_fst (entry : Word) : (mmuMarkFreed entry).1 = refCount entry := rfl

theorem mmuMarkFreed_and (entry b : Word) (disjoint : ((0xf : Word) <<< attRefOff) &&& b = 0)
    (low : b.toNat < 2 ^ attRefOff) : (mmuMarkFreed entry).2 &&& b = entry &&& b := by
  simp only [mmuMarkFreed]
  split_ifs
  · exact setRef_and entry _ b disjoint low
  · rfl

theorem mmuMarkFreed_nav (entry : Word) : (mmuMarkFreed entry).2 &&& navMask = entry &&& navMask :=
  mmuMarkFreed_and entry navMask (by decide) (by decide)

theorem mmuMarkFreed_ap (entry : Word) : apBits (mmuMarkFreed entry).2 = apBits entry :=
  mmuMarkFreed_and entry _ (by decide) (by decide)

theorem mmuMarkFreed_zero (entry : Word) (zero : refCount entry = 0) :
    (mmuMarkFreed entry).2 = entry := by
  simp [mmuMarkFreed, zero]

theorem refCount_mmuMarkFreed (entry : Word) :
    (refCount (mmuMarkFreed entry).2).toNat = (refCount entry).toNat - 1 := by
  have bound := refCount_bound entry
  simp only [mmuMarkFreed]
  split_ifs with positive
  · have size : (refCount entry - 1).toNat = (refCount entry).toNat - 1 := by bv_omega
    rw [refCount_setRef _ _ (by omega), size]
  · bv_omega

theorem mmuMarkCopied_and (entry b : Word) (disjoint : ((0xf : Word) <<< attRefOff) &&& b = 0)
    (low : b.toNat < 2 ^ attRefOff) (notAp : ((3 : Word) <<< attApOff) &&& b = 0)
    (notRo : attApNaRo &&& b = 0) : mmuMarkCopied entry &&& b = entry &&& b := by
  have counted : (if refCount entry < attRefLimit then setRef entry (refCount entry + 1) else entry)
      &&& b = entry &&& b := by
    split_ifs
    · exact setRef_and entry _ b disjoint low
    · rfl
  simp only [mmuMarkCopied]
  split_ifs at counted ⊢
  all_goals first
    | exact counted
    | exact (and_clear_or _ _ _ b notAp notRo).trans counted

theorem mmuMarkCopied_nav (entry : Word) : mmuMarkCopied entry &&& navMask = entry &&& navMask :=
  mmuMarkCopied_and entry navMask (by decide) (by decide) (by decide) (by decide)

theorem mmuMarkCopied_ap (entry : Word) :
    apBits (mmuMarkCopied entry) = if apBits entry = attApRwRw then attApNaRo else apBits entry := by
  have counted : apBits (if refCount entry < attRefLimit then setRef entry (refCount entry + 1)
      else entry) = apBits entry := by
    split_ifs
    · exact setRef_and entry _ _ (by decide) (by decide)
    · rfl
  simp only [mmuMarkCopied, counted]
  split_ifs at counted ⊢
  all_goals first
    | exact apBits_clear_or _
    | exact counted

theorem refCount_mmuMarkCopied (entry : Word) :
    (refCount (mmuMarkCopied entry)).toNat = min ((refCount entry).toNat + 1) 15 := by
  have bound := refCount_bound entry
  have demoted (e : Word) : refCount (e &&& ~~~((3 : Word) <<< attApOff) ||| attApNaRo) = refCount e :=
    refCount_congr e _ (and_clear_or e _ _ _ (by decide) (by decide))
  have counted : (refCount (if refCount entry < attRefLimit then setRef entry (refCount entry + 1)
      else entry)).toNat = min ((refCount entry).toNat + 1) 15 := by
    unfold attRefLimit
    split_ifs with room
    · have size : (refCount entry + 1).toNat = (refCount entry).toNat + 1 := by bv_omega
      rw [refCount_setRef _ _ (by bv_omega), size]
      bv_omega
    · bv_omega
  simp only [mmuMarkCopied]
  split_ifs at counted ⊢
  all_goals first
    | exact counted
    | exact (congrArg BitVec.toNat (demoted _)).trans counted

theorem and_vaddrMask (x : Word) (aligned : x.toNat % 2 ^ 12 = 0) (small : x.toNat < 2 ^ 48) :
    x &&& vaddrMask = x := by
  have mask : ∀ i : Fin 64, vaddrMask.getLsbD i = (decide (12 ≤ i.val) && decide (i.val < 48)) := by
    decide
  apply BitVec.eq_of_getLsbD_eq
  intro i inside
  have bit : vaddrMask.getLsbD i = (decide (12 ≤ i) && decide (i < 48)) := mask ⟨i, inside⟩
  rw [BitVec.getLsbD_and, bit]
  by_cases low : i < 12
  · have clear := Nat.testBit_mod_two_pow x.toNat 12 i
    rw [aligned, Nat.zero_testBit] at clear
    have zero : x.getLsbD i = false := by simpa [low, BitVec.getLsbD] using clear.symm
    simp [zero]
  · by_cases high : i < 48
    · simp [high, Nat.not_lt.mp low]
    · have zero : x.getLsbD i = false :=
        Nat.testBit_lt_two_pow (lt_of_lt_of_le small (Nat.pow_le_pow_right (by decide) (by omega)))
      simp [zero]

theorem isPage_getVaddr (entry : Word) : IsPage (mmuGetVaddr entry) := by
  simp [IsPage, mmuGetVaddr, virtToPhys_physToVirt, BitVec.and_assoc]

theorem getVaddr_ne_zero (entry : Word) : mmuGetVaddr entry ≠ 0 := by
  have small : (entry &&& vaddrMask).toNat ≤ vaddrMask.toNat := by
    rw [BitVec.toNat_and]
    exact Nat.and_le_right
  have mask : vaddrMask.toNat = 0x0000fffffffff000 := by decide
  unfold mmuGetVaddr physToVirt memVaKernelStart
  bv_omega

-- Under a mask that misses the address bits only the constant part of an entry counts.
theorem page_or_and (va c b : Word) (page : IsPage va) (disjoint : vaddrMask &&& b = 0) :
    (virtToPhys va ||| c) &&& b = c &&& b := by
  rw [BitVec.and_or_distrib_right, ← page, BitVec.and_assoc, disjoint]
  simp

theorem page_or_mask (va c : Word) (page : IsPage va) (disjoint : c &&& vaddrMask = 0) :
    (virtToPhys va ||| c) &&& vaddrMask = virtToPhys va := by
  rw [BitVec.and_or_distrib_right, page, disjoint]
  simp

theorem tableEntry_eq (va : Word) :
    tableEntry va = virtToPhys va ||| (attValid ||| attPage ||| attAfSet) := by
  simp [tableEntry, BitVec.or_assoc]

theorem tableEntry_valid (va : Word) (page : IsPage va) : mmuIsValid (tableEntry va) = true := by
  unfold mmuIsValid
  rw [tableEntry_eq, page_or_and va _ _ page (by decide)]
  decide

theorem tableEntry_block (va : Word) (page : IsPage va) : mmuIsBlock (tableEntry va) = false := by
  unfold mmuIsBlock
  rw [tableEntry_eq, page_or_and va _ _ page (by decide)]
  decide

theorem tableEntry_vaddr (va : Word) (page : IsPage va) : mmuGetVaddr (tableEntry va) = va := by
  unfold mmuGetVaddr
  rw [tableEntry_eq, page_or_mask va _ page (by decide), physToVirt_virtToPhys]

theorem tableEntry_nav (va : Word) (page : IsPage va) : nav (tableEntry va) = some va :=
  (nav_some _ _).mpr ⟨tableEntry_valid va page, tableEntry_vaddr va page⟩

theorem tableEntry_ref (va : Word) (page : IsPage va) : refCount (tableEntry va) = 0 := by
  have blank : refCount (tableEntry va) = refCount (attValid ||| attPage ||| attAfSet) :=
    refCount_congr _ _ (by rw [tableEntry_eq, page_or_and va _ _ page (by decide)])
  rw [blank]
  decide

theorem userLeaf_valid (paddr pattr : Word) : mmuIsValid (userLeaf paddr pattr) = true := by
  unfold mmuIsValid userLeaf
  rw [bne_iff_ne]
  intro zero
  have bit : ((paddr ||| pattr ||| attValid ||| attPage ||| attAfSet) &&& (1 : Word) <<< 0).getLsbD 0 = true := by
    simp [attValid, attPage, attAfSet]
  rw [zero] at bit
  simp at bit

theorem userLeaf_vaddr (va pattr : Word) (page : IsPage va) (low : pattr &&& vaddrMask = 0) :
    mmuGetVaddr (userLeaf (virtToPhys va) pattr) = va := by
  have rest : userLeaf (virtToPhys va) pattr =
      virtToPhys va ||| (pattr ||| (attValid ||| attPage ||| attAfSet)) := by
    simp [userLeaf, BitVec.or_assoc]
  have clear : (attValid ||| attPage ||| attAfSet) &&& vaddrMask = 0 := by decide
  unfold mmuGetVaddr
  rw [rest, page_or_mask va _ page, physToVirt_virtToPhys]
  rw [BitVec.and_or_distrib_right, low, clear]
  rfl

theorem copiedLeaf_and (entry va b : Word) (page : IsPage va) (notAddr : vaddrMask &&& b = 0)
    (notAp : ((3 : Word) <<< attApOff) &&& b = 0) (notRw : attApRwRw &&& b = 0) :
    copiedLeaf entry va &&& b = entry &&& b := by
  have written : (virtToPhys va ||| attApRwRw) &&& b = 0 := by
    rw [page_or_and va _ _ page notAddr, notRw]
  unfold copiedLeaf
  rw [and_clear_or _ _ _ b notAp written]
  simpa using and_clear_or entry vaddrMask 0 b notAddr (by simp)

theorem copiedLeaf_valid (entry va : Word) (page : IsPage va) :
    mmuIsValid (copiedLeaf entry va) = mmuIsValid entry := by
  unfold mmuIsValid
  rw [copiedLeaf_and entry va _ page (by decide) (by decide) (by decide)]

theorem copiedLeaf_ref (entry va : Word) (page : IsPage va) :
    refCount (copiedLeaf entry va) = refCount entry :=
  refCount_congr _ _ (copiedLeaf_and entry va _ page (by decide) (by decide) (by decide))

theorem copiedLeaf_ap (entry va : Word) (page : IsPage va) :
    apBits (copiedLeaf entry va) = attApRwRw := by
  have cleared : ~~~((3 : Word) <<< attApOff) &&& (3 : Word) <<< attApOff = 0 := by decide
  unfold apBits copiedLeaf
  rw [BitVec.and_or_distrib_right, BitVec.and_assoc, cleared, page_or_and va _ _ page (by decide)]
  simp [attApRwRw, attApOff]

theorem copiedLeaf_vaddr (entry va : Word) (page : IsPage va) :
    mmuGetVaddr (copiedLeaf entry va) = va := by
  have cleared : ~~~vaddrMask &&& (~~~((3 : Word) <<< attApOff) &&& vaddrMask) = 0 := by decide
  unfold mmuGetVaddr copiedLeaf
  rw [BitVec.and_or_distrib_right, BitVec.and_assoc, BitVec.and_assoc, cleared,
    page_or_mask va _ page (by decide)]
  simp [physToVirt_virtToPhys]

end Anthill
