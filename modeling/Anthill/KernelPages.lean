import Anthill.Pmm
import Anthill.Radix
import Mathlib.Data.Finset.Card
import Mathlib.Tactic.Tauto

set_option autoImplicit false

namespace Anthill

open Radix

inductive KernErr where
  | ok
  | elfInv
  | elfMac
  | elfUns
  | memExs
  | memFlg
  | memOom
  | memUnm
  | msbCod
  | msbCoe
  | msbCof
  | msbExs
  | msbFnd
  | msbNam
  | msbSiz
deriving DecidableEq, Repr

inductive MemPerm where
  | ro
  | rw
  | ex
  | other (value : Nat)
deriving DecidableEq, Repr

inductive MemAttr where
  | norm
  | devc
deriving DecidableEq, Repr

-- The kernel stops for good: a panic, the exception handler's hang, or a fault of its own.
inductive Halt where
  | panic (msg : String)
  | hang
  | fault
deriving DecidableEq, Repr

structure MemRAddr where
  addr : Word
  err : KernErr
deriving DecidableEq, Repr

-- What the page allocator handed out and what pmm_free was called on, oldest first.
inductive PoolCall where
  | handedOut (addr : Word)
  | freed (paddr : Word)
deriving DecidableEq, Repr

abbrev Mem := Heap Word Idx Word

-- Memory is read by page through the kernel's linear map. The trace is not in the code.
structure Kernel where
  mem : Mem
  memoryMap : MemoryMap
  kernelTable : Word
  trace : List PoolCall

def Kernel.write (k : Kernel) (p : Word) (i : Idx) (e : Word) : Kernel :=
  { k with mem := put k.mem p i e }

def Kernel.writePage (k : Kernel) (p : Word) (row : Idx → Word) : Kernel :=
  { k with mem := putPage k.mem p row }

def Kernel.setMem (k : Kernel) (m : Mem) : Kernel := { k with mem := m }

@[simp] theorem Kernel.setMem_mem (k : Kernel) (m : Mem) : (k.setMem m).mem = m := rfl

theorem Kernel.setMem_rest (k : Kernel) (m : Mem) : (k.setMem m).memoryMap = k.memoryMap ∧
    (k.setMem m).kernelTable = k.kernelTable ∧ (k.setMem m).trace = k.trace := ⟨rfl, rfl, rfl⟩

theorem Kernel.writePage_rest (k : Kernel) (p : Word) (row : Idx → Word) :
    (k.writePage p row).memoryMap = k.memoryMap ∧
      (k.writePage p row).kernelTable = k.kernelTable ∧ (k.writePage p row).trace = k.trace :=
  ⟨rfl, rfl, rfl⟩

@[simp] theorem Kernel.write_mem (k : Kernel) (p : Word) (i : Idx) (e : Word) :
    (k.write p i e).mem = put k.mem p i e := rfl

theorem Kernel.write_self (k : Kernel) (p : Word) (i : Idx) : k.write p i (k.mem p i) = k := by
  simp [Kernel.write]

theorem Kernel.write_write (k : Kernel) (p : Word) (i : Idx) (e e' : Word) :
    (k.write p i e).write p i e' = k.write p i e' := by
  simp [Kernel.write]

@[simp] theorem Kernel.writePage_mem (k : Kernel) (p : Word) (row : Idx → Word) :
    (k.writePage p row).mem = putPage k.mem p row := rfl

-- One round of the level loop of mem_kernel_alloc_page. The recursive slot makes levels[i + 1]
-- the page that levels[i][idx[i]] names. `phys` is the filled part of phys_pages.
def installStep (k : Kernel) (last level : Word) (phys : List (Option Word)) (i : Idx) :
    Except Kernel (Word × List (Option Word) × Kernel) :=
  if mmuIsValid (k.mem level i) then .ok (mmuGetVaddr (k.mem level i), phys ++ [none], k)
  else
    match pmmGet k.memoryMap with
    | none => .error { k with memoryMap := (phys.reduceOption ++ [last]).foldl pmmFree k.memoryMap }
    | some (page, map) =>
      let entry := page ||| attValid ||| attPage ||| attAfSet
      let mem := putPage (put k.mem level i entry) (mmuGetVaddr entry) (fun _ => 0)
      .ok (mmuGetVaddr entry, phys ++ [some page], { k with mem := mem, memoryMap := map })

def kernelInstall (last : Word) :
    Kernel → Word → List (Option Word) → List Idx → Except Kernel (Word × List (Option Word) × Kernel)
  | k, level, phys, [] => .ok (level, phys, k)
  | k, level, phys, i :: idx =>
    match installStep k last level phys i with
    | .error k => .error k
    | .ok (level, phys, k) => kernelInstall last k level phys idx

def kernelAttr : MemPerm → Option Word
  | .ro => some (attApNaRo ||| attPxnNoexec ||| attUxnNoexec)
  | .rw => some (attApNaRw ||| attPxnNoexec ||| attUxnNoexec)
  | .ex => some (attApNaRo ||| attPxnExec ||| attUxnNoexec)
  | .other _ => none

def kernelLeaf (page attr : Word) : Word :=
  page ||| attr ||| attValid ||| attPage ||| attNormal ||| attAfSet

def memKernelAllocPage (k : Kernel) (perm : MemPerm) : MemRAddr × Kernel :=
  match kernelAttr perm with
  | none => (⟨0, .memFlg⟩, k)
  | some attr =>
    match pmmGet k.memoryMap with
    | none => (⟨0, .memOom⟩, k)
    | some (page, map) =>
      let vaddr := physToVirt page
      match kernelInstall page { k with memoryMap := map } k.kernelTable [] (upperIdx vaddr) with
      | .error k => (⟨0, .memOom⟩, k)
      | .ok (level3, phys, k) =>
        if mmuIsValid (k.mem level3 (leafIdx vaddr)) then
          -- The return is inside the loop body, so only phys_pages[0] is given back.
          match phys with
          | some page0 :: _ => (⟨0, .memExs⟩, { k with memoryMap := pmmFree k.memoryMap page0 })
          | _ => (⟨0, .memExs⟩, k)
        else
          (⟨vaddr, .ok⟩, { k with
            mem := put k.mem level3 (leafIdx vaddr) (kernelLeaf page attr)
            trace := k.trace ++ [.handedOut vaddr] })

def freeRange (k : Kernel) (paddr shift : Word) : Kernel :=
  if paddr < paddr + shift then
    (List.range (shift / pageSize).toNat).foldl (fun k n =>
      let page := paddr + BitVec.ofNat 64 n * pageSize
      { k with memoryMap := pmmFree k.memoryMap page, trace := k.trace ++ [.freed page] }) k
  else k

-- The loop of mem_kernel_free_page at level `i`, over the indices that remain.
def kernelRemove (k : Kernel) (vaddr : Word) : Nat → Word → List Idx → Except Halt (KernErr × Kernel)
  | _, _, [] => .ok (.ok, k)
  | i, level, j :: idx =>
    if !mmuIsValid (k.mem level j) then .ok (.memUnm, k)
    else if i == 3 || mmuIsBlock (k.mem level j) then
      if i == 0 then .error (.panic "Assertion failed [[ i != 0 ]]")
      else
        let shift := if i == 1 then pageSize <<< 18 else if i == 2 then pageSize <<< 9 else pageSize
        .ok (.ok, freeRange (k.write level j 0) (virtToPhys vaddr) shift)
    else kernelRemove k vaddr (i + 1) (mmuGetVaddr (k.mem level j)) idx

def memKernelFreePage (k : Kernel) (vaddr : Word) : Except Halt (KernErr × Kernel) :=
  kernelRemove k vaddr 0 k.kernelTable (mmuGetTableIdx vaddr)

-- The kernel address of page frame `n` of the managed range.
def poolVa (n : Nat) : Word := physToVirt (poolPage n)

def Free (k : Kernel) (va : Word) : Prop :=
  ∃ n, n < managed ∧ va = poolVa n ∧ marked k.memoryMap n = false

def Marked (k : Kernel) (va : Word) : Prop :=
  ∃ n, n < managed ∧ va = poolVa n ∧ marked k.memoryMap n = true

def Kernel.level1 (k : Kernel) : Word := mmuGetVaddr (k.mem k.kernelTable 0)

def Kernel.level2 (k : Kernel) : Word := mmuGetVaddr (k.mem k.level1 0)

def Kernel.level3 (k : Kernel) (j : Idx) : Word := mmuGetVaddr (k.mem k.level2 j)

-- Whether slot `j` of the kernel's level-2 table names a level-3 table.
def Kernel.hasLevel3 (k : Kernel) (j : Idx) : Prop :=
  mmuIsValid (k.mem k.level2 j) = true ∧ mmuIsBlock (k.mem k.level2 j) = false

def KernelTable (k : Kernel) (va : Word) : Prop :=
  va = k.kernelTable ∨ va = k.level1 ∨ va = k.level2 ∨ ∃ j, k.hasLevel3 j ∧ va = k.level3 j

-- A marked pool page that is not one of the kernel's own tables.
def InUse (k : Kernel) (va : Word) : Prop := Marked k va ∧ ¬ KernelTable k va

def poolIdx2 (n : Nat) : Idx := tableIdx (poolVa n) 21
def poolIdx3 (n : Nat) : Idx := leafIdx (poolVa n)

/-- The kernel's own translation tables, as mmu_setup builds them and the allocator grows them. -/
structure KernelWf (k : Kernel) : Prop where
  present0 : mmuIsValid (k.mem k.kernelTable 0) = true
  present1 : mmuIsValid (k.mem k.level1 0) = true
  table0 : mmuIsBlock (k.mem k.kernelTable 0) = false
  table1 : mmuIsBlock (k.mem k.level1 0) = false
  top : ∀ i, mmuIsValid (k.mem k.kernelTable i) = true → i ≠ 0 →
    mmuIsBlock (k.mem k.kernelTable i) = false ∧ mmuGetVaddr (k.mem k.kernelTable i) = k.kernelTable
  middle : ∀ i, mmuIsValid (k.mem k.level1 i) = true → i = 0
  poolTable : ∀ n, n < managed → mmuIsValid (k.mem k.level2 (poolIdx2 n)) = true →
    mmuIsBlock (k.mem k.level2 (poolIdx2 n)) = false
  apart1 : k.level1 ≠ k.kernelTable
  apart2 : k.level2 ≠ k.kernelTable ∧ k.level2 ≠ k.level1
  apart3 : ∀ j, k.hasLevel3 j →
    k.level3 j ≠ k.kernelTable ∧ k.level3 j ≠ k.level1 ∧ k.level3 j ≠ k.level2
  distinct3 : ∀ i j, k.hasLevel3 i → k.hasLevel3 j → k.level3 i = k.level3 j → i = j
  busy : ∀ va, KernelTable k va → ¬ Free k va
  unmapped : ∀ n, n < managed → marked k.memoryMap n = false → k.hasLevel3 (poolIdx2 n) →
    mmuIsValid (k.mem (k.level3 (poolIdx2 n)) (poolIdx3 n)) = false

theorem poolVa_toNat (n : Nat) (inside : n < managed) :
    (poolVa n).toNat = 0xffff000000080000 + n * 4096 := by
  have value := poolPage_toNat n inside
  rw [managed_eq] at inside
  unfold poolVa physToVirt memVaKernelStart
  rw [BitVec.toNat_add, value]
  have start : (0xffff000000000000 : Word).toNat = 0xffff000000000000 := by decide
  rw [start]
  omega

theorem poolVa_inj (m n : Nat) (insideM : m < managed) (insideN : n < managed)
    (same : poolVa m = poolVa n) : m = n :=
  poolPage_inj m n insideM insideN (physToVirt_inj _ _ same)

@[simp] theorem virtToPhys_poolVa (n : Nat) : virtToPhys (poolVa n) = poolPage n :=
  virtToPhys_physToVirt _

theorem isPage_poolVa (n : Nat) (inside : n < managed) : IsPage (poolVa n) := by
  have value := poolPage_toNat n inside
  rw [managed_eq] at inside
  rw [IsPage, virtToPhys_poolVa]
  exact and_vaddrMask _ (by omega) (by omega)

theorem poolVa_upper (n : Nat) (inside : n < managed) :
    upperIdx (poolVa n) = [0, 0, poolIdx2 n] := by
  have value := poolVa_toNat n inside
  rw [managed_eq] at inside
  have top : tableIdx (poolVa n) 39 = 0 := by
    apply Fin.ext
    rw [tableIdx_val, value]
    simp only [Fin.val_zero]
    omega
  have middle : tableIdx (poolVa n) 30 = 0 := by
    apply Fin.ext
    rw [tableIdx_val, value]
    simp only [Fin.val_zero]
    omega
  simp [upperIdx, top, middle, poolIdx2]

theorem poolIdx_inj (m n : Nat) (insideM : m < managed) (insideN : n < managed)
    (same2 : poolIdx2 m = poolIdx2 n) (same3 : poolIdx3 m = poolIdx3 n) : m = n := by
  have valueM := poolVa_toNat m insideM
  have valueN := poolVa_toNat n insideN
  rw [managed_eq] at insideM insideN
  have second := congrArg Fin.val same2
  have third := congrArg Fin.val same3
  simp only [poolIdx2, poolIdx3, leafIdx, tableIdx_val, valueM, valueN] at second third
  omega

-- Two pages of the pool have different entries in the last tables.
theorem KernelWf.entries_apart {k : Kernel} (wf : KernelWf k) {m n : Nat} (insideM : m < managed) (insideN : n < managed)
    (different : m ≠ n) (table : k.hasLevel3 (poolIdx2 m)) (there : k.hasLevel3 (poolIdx2 n)) :
    k.level3 (poolIdx2 m) ≠ k.level3 (poolIdx2 n) ∨ poolIdx3 m ≠ poolIdx3 n := by
  by_contra both
  push Not at both
  exact different (poolIdx_inj m n insideM insideN (wf.distinct3 _ _ table there both.1) both.2)

theorem marked_pmmMark_pool (map : MemoryMap) (n m : Nat) (inside : n < managed) :
    marked (pmmMark map (poolPage n)) m = (decide (m = n) || marked map m) := by
  rw [marked_pmmMark, pmmPage_poolPage n inside]

theorem marked_pmmFree_pool (map : MemoryMap) (n m : Nat) (inside : n < managed) :
    marked (pmmFree map (poolPage n)) m = (marked map m && !decide (m = n)) := by
  rw [marked_pmmFree, pmmPage_poolPage n inside]

-- The page goes where a level-3 table is already there.
def Kernel.handOut (k : Kernel) (n : Nat) (attr : Word) : Kernel :=
  { k with
    mem := put k.mem (k.level3 (poolIdx2 n)) (poolIdx3 n) (kernelLeaf (poolPage n) attr)
    memoryMap := pmmMark k.memoryMap (poolPage n)
    trace := k.trace ++ [.handedOut (poolVa n)] }

-- The page goes into a level-3 table that is allocated for it.
def Kernel.handOutNew (k : Kernel) (n q : Nat) (attr : Word) : Kernel :=
  { k with
    mem := put (putPage (put k.mem k.level2 (poolIdx2 n) (tableEntry (poolVa q))) (poolVa q)
      (fun _ => 0)) (poolVa q) (poolIdx3 n) (kernelLeaf (poolPage n) attr)
    memoryMap := pmmMark (pmmMark k.memoryMap (poolPage n)) (poolPage q)
    trace := k.trace ++ [.handedOut (poolVa n)] }

theorem kernelInstall_valid (k : Kernel) (last level : Word) (phys : List (Option Word)) (i : Idx)
    (idx : List Idx) (valid : mmuIsValid (k.mem level i) = true) :
    kernelInstall last k level phys (i :: idx) =
      kernelInstall last k (mmuGetVaddr (k.mem level i)) (phys ++ [none]) idx := by
  simp [kernelInstall, installStep, valid]

theorem kernelInstall_upper (k : Kernel) (present0 : mmuIsValid (k.mem k.kernelTable 0) = true)
    (present1 : mmuIsValid (k.mem k.level1 0) = true) (map : MemoryMap) (n : Nat) (inside : n < managed) :
    kernelInstall (poolPage n) { k with memoryMap := map } k.kernelTable [] (upperIdx (poolVa n)) =
      kernelInstall (poolPage n) { k with memoryMap := map } k.level2 [none, none] [poolIdx2 n] := by
  rw [poolVa_upper n inside]
  rw [kernelInstall_valid { k with memoryMap := map } _ _ _ _ _ present0]
  exact kernelInstall_valid { k with memoryMap := map } _ _ _ _ _ present1

-- The frame that is handed out next, and the frame taken for its level-3 table if it has none.
def Kernel.pick (k : Kernel) : Option (Nat × Option Nat) :=
  match pmmGet k.memoryMap with
  | none => none
  | some (page, map) =>
    if mmuIsValid (k.mem k.level2 (poolIdx2 (pmmPage page))) then some (pmmPage page, none)
    else (pmmGet map).map fun table => (pmmPage page, some (pmmPage table.1))

def Kernel.give (k : Kernel) (attr : Word) : Option (Nat × Option Nat) → MemRAddr × Kernel
  | none => (⟨0, .memOom⟩, k)
  | some (n, none) => (⟨poolVa n, .ok⟩, k.handOut n attr)
  | some (n, some q) => (⟨poolVa n, .ok⟩, k.handOutNew n q attr)

-- The upper tables are there, and where a level-3 table is, it maps no page that is free.
theorem memKernelAllocPage_gives (k : Kernel) (present0 : mmuIsValid (k.mem k.kernelTable 0) = true)
    (present1 : mmuIsValid (k.mem k.level1 0) = true)
    (unmapped : ∀ n, n < managed → marked k.memoryMap n = false →
      mmuIsValid (k.mem k.level2 (poolIdx2 n)) = true →
      mmuIsValid (k.mem (k.level3 (poolIdx2 n)) (poolIdx3 n)) = false)
    (perm : MemPerm) (attr : Word) (known : kernelAttr perm = some attr) :
    memKernelAllocPage k perm = k.give attr k.pick := by
  unfold memKernelAllocPage Kernel.pick
  rw [known]
  cases found : pmmGet k.memoryMap with
  | none => rfl
  | some result =>
    obtain ⟨page, map⟩ := result
    obtain ⟨n, inside, rfl, clear, rfl⟩ := pmmGet_some _ _ _ found
    simp only [pmmPage_poolPage n inside]
    rw [show physToVirt (poolPage n) = poolVa n from rfl, kernelInstall_upper k present0 present1 _ n inside]
    cases valid : mmuIsValid (k.mem k.level2 (poolIdx2 n)) with
    | true =>
      have empty := unmapped n inside clear valid
      rw [kernelInstall_valid { k with memoryMap := pmmMark k.memoryMap (poolPage n) } _ _ _ _ _ valid]
      simp only [kernelInstall, if_true, Kernel.give]
      rw [show mmuGetVaddr (k.mem k.level2 (poolIdx2 n)) = k.level3 (poolIdx2 n) from rfl,
        show leafIdx (poolVa n) = poolIdx3 n from rfl, empty]
      rfl
    | false =>
      cases second : pmmGet (pmmMark k.memoryMap (poolPage n)) with
      | none =>
        have restored : pmmFree (pmmMark k.memoryMap (poolPage n)) (poolPage n) = k.memoryMap :=
          pmmFree_pmmMark _ _ (by rw [pmmPage_poolPage n inside]; exact clear)
        have noTables : List.reduceOption [none, none] = ([] : List Word) := rfl
        simp [kernelInstall, installStep, valid, second, noTables, restored, Kernel.give]
      | some result =>
        obtain ⟨page, map⟩ := result
        obtain ⟨q, insideQ, rfl, clearQ, rfl⟩ := pmmGet_some _ _ _ second
        have entry : poolPage q ||| attValid ||| attPage ||| attAfSet = tableEntry (poolVa q) := by
          simp [tableEntry]
        have blank : mmuIsValid 0#64 = false := by decide
        simp [kernelInstall, installStep, valid, second, entry, Kernel.give,
          tableEntry_vaddr _ (isPage_poolVa q insideQ), blank, Kernel.handOutNew,
          pmmPage_poolPage q insideQ, poolIdx3]

theorem memKernelAllocPage_eq (k : Kernel) (wf : KernelWf k) (perm : MemPerm) (attr : Word)
    (known : kernelAttr perm = some attr) : memKernelAllocPage k perm = k.give attr k.pick :=
  memKernelAllocPage_gives k wf.present0 wf.present1
    (fun n inside clear valid => wf.unmapped n inside clear ⟨valid, wf.poolTable n inside valid⟩) perm attr known

-- The frame that is handed out is free, and the frame of its table is the free one after it.
theorem pick_some (k : Kernel) (n : Nat) (table : Option Nat) (found : k.pick = some (n, table)) :
    n < managed ∧ marked k.memoryMap n = false ∧
      if mmuIsValid (k.mem k.level2 (poolIdx2 n)) then table = none
      else ∃ page map, pmmGet (pmmMark k.memoryMap (poolPage n)) = some (page, map) ∧ table = some (pmmPage page) := by
  unfold Kernel.pick at found
  cases taken : pmmGet k.memoryMap with
  | none => simp [taken] at found
  | some result =>
    obtain ⟨page, map⟩ := result
    obtain ⟨m, inside, rfl, clear, rfl⟩ := pmmGet_some _ _ _ taken
    simp only [taken, pmmPage_poolPage m inside] at found
    split_ifs at found with valid
    · obtain ⟨rfl, rfl⟩ := Prod.mk.inj (Option.some.inj found)
      rw [if_pos valid]
      exact ⟨inside, clear, rfl⟩
    · rw [Option.map_eq_some_iff] at found
      obtain ⟨⟨page, map⟩, second, same⟩ := found
      obtain ⟨rfl, rfl⟩ := Prod.mk.inj same
      rw [if_neg valid]
      exact ⟨inside, clear, page, map, second, rfl⟩

theorem pick_valid (k : Kernel) (n : Nat) (found : k.pick = some (n, none)) :
    n < managed ∧ marked k.memoryMap n = false ∧ mmuIsValid (k.mem k.level2 (poolIdx2 n)) = true := by
  obtain ⟨inside, clear, table⟩ := pick_some k n none found
  split_ifs at table with valid
  · exact ⟨inside, clear, valid⟩
  · obtain ⟨_, _, _, some⟩ := table
    cases some

theorem pick_table (k : Kernel) (wf : KernelWf k) (n : Nat) (found : k.pick = some (n, none)) :
    n < managed ∧ marked k.memoryMap n = false ∧ k.hasLevel3 (poolIdx2 n) := by
  obtain ⟨inside, clear, valid⟩ := pick_valid k n found
  exact ⟨inside, clear, valid, wf.poolTable n inside valid⟩

theorem pick_invalid (k : Kernel) (n q : Nat) (found : k.pick = some (n, some q)) :
    n < managed ∧ q < managed ∧ n ≠ q ∧ marked k.memoryMap n = false ∧
      marked k.memoryMap q = false ∧ mmuIsValid (k.mem k.level2 (poolIdx2 n)) = false := by
  obtain ⟨inside, clear, table⟩ := pick_some k n (some q) found
  split_ifs at table with valid
  obtain ⟨page, map, second, same⟩ := table
  obtain ⟨r, insideR, rfl, clearR, rfl⟩ := pmmGet_some _ _ _ second
  rw [pmmPage_poolPage r insideR] at same
  obtain rfl := Option.some.inj same
  rw [marked_pmmMark_pool _ n q inside] at clearR
  simp only [Bool.or_eq_false_iff, decide_eq_false_iff_not] at clearR
  exact ⟨inside, insideR, Ne.symm clearR.1, clear, clearR.2, by simpa using valid⟩

theorem pick_noTable (k : Kernel) (n q : Nat) (found : k.pick = some (n, some q)) :
    n < managed ∧ q < managed ∧ n ≠ q ∧ marked k.memoryMap n = false ∧
      marked k.memoryMap q = false ∧ ¬ k.hasLevel3 (poolIdx2 n) := by
  obtain ⟨insideN, insideQ, different, clearN, clearQ, invalid⟩ := pick_invalid k n q found
  refine ⟨insideN, insideQ, different, clearN, clearQ, fun there => ?_⟩
  rw [there.1] at invalid
  cases invalid

theorem kernelLeaf_valid (page attr : Word) : mmuIsValid (kernelLeaf page attr) = true := by
  unfold mmuIsValid kernelLeaf
  rw [bne_iff_ne]
  intro zero
  have bit : ((page ||| attr ||| attValid ||| attPage ||| attNormal ||| attAfSet) &&&
      (1 : Word) <<< 0).getLsbD 0 = true := by
    simp [attValid, attPage, attNormal, attAfSet]
  rw [zero] at bit
  simp at bit

theorem Kernel.levels_eq (k k' : Kernel) (table : k'.kernelTable = k.kernelTable)
    (row0 : k'.mem k.kernelTable = k.mem k.kernelTable) (row1 : k'.mem k.level1 = k.mem k.level1) :
    k'.level1 = k.level1 ∧ k'.level2 = k.level2 := by
  have first : k'.level1 = k.level1 := by simp only [Kernel.level1, table, row0]
  refine ⟨first, ?_⟩
  simp only [Kernel.level2, first, row1]

/-- Two states with the same kernel tables of the first three levels. -/
structure SameUpper (k k' : Kernel) : Prop where
  root : k'.kernelTable = k.kernelTable
  row0 : k'.mem k.kernelTable = k.mem k.kernelTable
  row1 : k'.mem k.level1 = k.mem k.level1
  row2 : k'.mem k.level2 = k.mem k.level2

section SameUpper

variable {k k' : Kernel} (upper : SameUpper k k')

include upper

theorem SameUpper.levels : k'.level1 = k.level1 ∧ k'.level2 = k.level2 ∧
    (∀ j, k'.level3 j = k.level3 j) ∧ ∀ j, k'.hasLevel3 j ↔ k.hasLevel3 j := by
  obtain ⟨same1, same2⟩ := Kernel.levels_eq k k' upper.root upper.row0 upper.row1
  refine ⟨same1, same2, fun j => ?_, fun j => ?_⟩
  · simp only [Kernel.level3, same2, upper.row2]
  · simp only [Kernel.hasLevel3, same2, upper.row2]

theorem SameUpper.kernelTable (p : Word) : KernelTable k' p ↔ KernelTable k p := by
  obtain ⟨same1, same2, same3, there⟩ := upper.levels
  simp only [KernelTable, upper.root, same1, same2, same3, there]

/-- The invariant of the kernel's tables, but for the pages, depends on the first three levels only. -/
theorem SameUpper.wf (wf : KernelWf k) (busy : ∀ va, KernelTable k va → ¬ Free k' va)
    (unmapped : ∀ n, n < managed → marked k'.memoryMap n = false → k.hasLevel3 (poolIdx2 n) →
      mmuIsValid (k'.mem (k.level3 (poolIdx2 n)) (poolIdx3 n)) = false) : KernelWf k' := by
  obtain ⟨same1, same2, same3, there⟩ := upper.levels
  obtain ⟨root, row0, row1, row2⟩ := upper
  constructor
  case present0 => rw [root, row0]; exact wf.present0
  case present1 => rw [same1, row1]; exact wf.present1
  case table0 => rw [root, row0]; exact wf.table0
  case table1 => rw [same1, row1]; exact wf.table1
  case top => rw [root, row0]; exact wf.top
  case middle => rw [same1, row1]; exact wf.middle
  case poolTable => rw [same2, row2]; exact wf.poolTable
  case apart1 => rw [same1, root]; exact wf.apart1
  case apart2 => rw [same1, same2, root]; exact wf.apart2
  case apart3 => simp only [there, same1, same2, same3, root]; exact wf.apart3
  case distinct3 => simp only [there, same3]; exact wf.distinct3
  case busy => simp only [SameUpper.kernelTable ⟨root, row0, row1, row2⟩]; exact busy
  case unmapped =>
    intro n inside clear table
    rw [there] at table
    rw [same3]
    exact unmapped n inside clear table

end SameUpper

-- A marked pool page that the kernel's tables map.
def Backed (k : Kernel) (va : Word) : Prop :=
  ∃ n, n < managed ∧ va = poolVa n ∧ marked k.memoryMap n = true ∧ k.hasLevel3 (poolIdx2 n) ∧
    mmuIsValid (k.mem (k.level3 (poolIdx2 n)) (poolIdx3 n)) = true

theorem Backed.marked {k : Kernel} {va : Word} (backed : Backed k va) : Marked k va := by
  obtain ⟨n, inside, same, set, _⟩ := backed
  exact ⟨n, inside, same, set⟩

/-- What callers rely on when mem_kernel_alloc_page hands out the page at `va`. -/
structure Allocated (k k' : Kernel) (va : Word) : Prop where
  wf : KernelWf k'
  wasFree : Free k va
  inUse : InUse k' va
  backed : Backed k' va
  content : k'.mem va = k.mem va
  keeps : ∀ p, InUse k p → InUse k' p ∧ k'.mem p = k.mem p
  shrinks : ∀ p, Free k' p → Free k p
  grows : ∀ p, Marked k' p → Marked k p ∨ p = va ∨ (KernelTable k' p ∧ ¬ KernelTable k p)
  tables : ∀ p, KernelTable k p → KernelTable k' p
  settled : ∀ p i, KernelTable k p → mmuIsValid (k.mem p i) = true → k'.mem p i = k.mem p i
  backs : ∀ p, Backed k p → Backed k' p
  backsOnly : ∀ p, Backed k' p → Backed k p ∨ p = va
  root : k'.kernelTable = k.kernelTable
  trace : k'.trace = k.trace ++ [.handedOut va]

theorem not_free_of_marked (k : Kernel) (va : Word) (used : Marked k va) : ¬ Free k va := by
  rintro ⟨n, inside, rfl, clear⟩
  obtain ⟨m, insideM, same, set⟩ := used
  have equal := poolVa_inj n m inside insideM same
  subst equal
  rw [clear] at set
  cases set

theorem handOut_free (k : Kernel) (n : Nat) (attr : Word) (inside : n < managed) (p : Word) :
    Free (k.handOut n attr) p ↔ Free k p ∧ p ≠ poolVa n := by
  constructor
  · rintro ⟨m, insideM, rfl, clear⟩
    simp only [Kernel.handOut, marked_pmmMark_pool _ n m inside, Bool.or_eq_false_iff,
      decide_eq_false_iff_not] at clear
    exact ⟨⟨m, insideM, rfl, clear.2⟩, fun same => clear.1 (poolVa_inj m n insideM inside same)⟩
  · rintro ⟨⟨m, insideM, rfl, clear⟩, other⟩
    refine ⟨m, insideM, rfl, ?_⟩
    have different : m ≠ n := fun same => other (by rw [same])
    simp [Kernel.handOut, marked_pmmMark_pool _ n m inside, clear, different]

theorem handOut_marked (k : Kernel) (n : Nat) (attr : Word) (inside : n < managed) (p : Word) :
    Marked (k.handOut n attr) p ↔ Marked k p ∨ p = poolVa n := by
  constructor
  · rintro ⟨m, insideM, rfl, set⟩
    simp only [Kernel.handOut, marked_pmmMark_pool _ n m inside, Bool.or_eq_true,
      decide_eq_true_eq] at set
    exact set.symm.imp (fun old => ⟨m, insideM, rfl, old⟩) (fun same => by rw [same])
  · rintro (⟨m, insideM, rfl, set⟩ | rfl)
    · exact ⟨m, insideM, rfl, by simp [Kernel.handOut, marked_pmmMark_pool _ n m inside, set]⟩
    · exact ⟨n, inside, rfl, by simp [Kernel.handOut, marked_pmmMark_pool _ n n inside]⟩

theorem handOut_mem (k : Kernel) (n : Nat) (attr : Word) :
    (k.handOut n attr).mem =
      put k.mem (k.level3 (poolIdx2 n)) (poolIdx3 n) (kernelLeaf (poolPage n) attr) := rfl

section HandOut

variable (k : Kernel) (wf : KernelWf k) (n : Nat) (attr : Word)
  (there : k.hasLevel3 (poolIdx2 n))

include wf there

theorem handOut_upper : SameUpper k (k.handOut n attr) := by
  obtain ⟨away0, away1, away2⟩ := wf.apart3 _ there
  have away (p : Word) (other : p ≠ k.level3 (poolIdx2 n)) : (k.handOut n attr).mem p = k.mem p := by
    rw [handOut_mem, put_page_other _ _ _ _ _ other]
  exact ⟨rfl, away _ away0.symm, away _ away1.symm, away _ away2.symm⟩

theorem handOut_wf (inside : n < managed) : KernelWf (k.handOut n attr) := by
  refine (handOut_upper k wf n attr there).wf wf (fun va kernelPage free => ?_) fun m insideM clear table => ?_
  · exact wf.busy va kernelPage ((handOut_free k n attr inside va).mp free).1
  · have clearBefore : marked k.memoryMap m = false ∧ m ≠ n := by
      simp only [Kernel.handOut, marked_pmmMark_pool _ n m inside, Bool.or_eq_false_iff,
        decide_eq_false_iff_not] at clear
      exact ⟨clear.2, clear.1⟩
    rw [handOut_mem, put_other _ _ _ _ _ _ (wf.entries_apart insideM inside clearBefore.2 table there)]
    exact wf.unmapped m insideM clearBefore.1 table

theorem handOut_settled (inside : n < managed) (clear : marked k.memoryMap n = false) (p : Word)
    (i : Idx) (valid : mmuIsValid (k.mem p i) = true) : (k.handOut n attr).mem p i = k.mem p i := by
  rw [handOut_mem]
  apply put_other
  by_contra both
  push Not at both
  obtain ⟨rfl, rfl⟩ := both
  rw [wf.unmapped n inside clear there] at valid
  cases valid

theorem handOut_backed (inside : n < managed) : Backed (k.handOut n attr) (poolVa n) := by
  obtain ⟨_, _, same3, same⟩ := (handOut_upper k wf n attr there).levels
  refine ⟨n, inside, rfl, ?_, (same _).mpr there, ?_⟩
  · simp [Kernel.handOut, marked_pmmMark_pool _ n n inside]
  · rw [same3, handOut_mem, put_same]
    exact kernelLeaf_valid _ _

theorem handOut_backs (inside : n < managed) (clear : marked k.memoryMap n = false) (p : Word)
    (backed : Backed k p) : Backed (k.handOut n attr) p := by
  obtain ⟨m, insideM, rfl, set, table, valid⟩ := backed
  obtain ⟨_, _, same3, same⟩ := (handOut_upper k wf n attr there).levels
  refine ⟨m, insideM, rfl, ?_, (same _).mpr table, ?_⟩
  · simp [Kernel.handOut, marked_pmmMark_pool _ n m inside, set]
  · rw [same3, handOut_settled k wf n attr there inside clear _ _ valid]
    exact valid

theorem handOut_backsOnly (inside : n < managed) (p : Word)
    (backed : Backed (k.handOut n attr) p) : Backed k p ∨ p = poolVa n := by
  obtain ⟨m, insideM, rfl, set, table, valid⟩ := backed
  obtain ⟨_, _, same3, same⟩ := (handOut_upper k wf n attr there).levels
  by_cases here : m = n
  · exact .inr (by rw [here])
  · rw [same] at table
    rw [same3] at valid
    rw [handOut_mem, put_other _ _ _ _ _ _ (wf.entries_apart insideM inside here table there)] at valid
    simp only [Kernel.handOut, marked_pmmMark_pool _ n m inside, here, decide_false,
      Bool.false_or] at set
    exact .inl ⟨m, insideM, rfl, set, table, valid⟩

theorem handOut_allocated (inside : n < managed) (clear : marked k.memoryMap n = false) :
    Allocated k (k.handOut n attr) (poolVa n) := by
  have free : Free k (poolVa n) := ⟨n, inside, rfl, clear⟩
  have kernelPage : KernelTable k (k.level3 (poolIdx2 n)) := .inr (.inr (.inr ⟨_, there, rfl⟩))
  have elsewhere (p : Word) (other : ¬ KernelTable k p) : (k.handOut n attr).mem p = k.mem p := by
    have different : p ≠ k.level3 (poolIdx2 n) := by
      rintro rfl
      exact other kernelPage
    rw [handOut_mem, put_page_other _ _ _ _ _ different]
  constructor
  case wf => exact handOut_wf k wf n attr there inside
  case wasFree => exact free
  case inUse =>
    refine ⟨(handOut_marked k n attr inside _).mpr (.inr rfl), ?_⟩
    rw [(handOut_upper k wf n attr there).kernelTable]
    exact fun table => wf.busy _ table free
  case content => exact elsewhere _ (fun table => wf.busy _ table free)
  case keeps =>
    rintro p ⟨used, notTable⟩
    refine ⟨⟨(handOut_marked k n attr inside p).mpr (.inl used), ?_⟩, elsewhere p notTable⟩
    rwa [(handOut_upper k wf n attr there).kernelTable]
  case shrinks => exact fun p free => ((handOut_free k n attr inside p).mp free).1
  case grows =>
    exact fun p used => ((handOut_marked k n attr inside p).mp used).imp_right .inl
  case tables => exact fun p table => ((handOut_upper k wf n attr there).kernelTable p).mpr table
  case settled => exact fun p i _ => handOut_settled k wf n attr there inside clear p i
  case backed => exact handOut_backed k wf n attr there inside
  case backs => exact handOut_backs k wf n attr there inside clear
  case backsOnly => exact handOut_backsOnly k wf n attr there inside
  case root => rfl
  case trace => rfl

end HandOut

theorem handOutNew_bit (k : Kernel) (n q m : Nat) (attr : Word) (insideN : n < managed)
    (insideQ : q < managed) : marked (k.handOutNew n q attr).memoryMap m =
      (decide (m = q) || (decide (m = n) || marked k.memoryMap m)) := by
  rw [Kernel.handOutNew, marked_pmmMark_pool _ q m insideQ, marked_pmmMark_pool _ n m insideN]

theorem handOutNew_free (k : Kernel) (n q : Nat) (attr : Word) (insideN : n < managed)
    (insideQ : q < managed) (p : Word) :
    Free (k.handOutNew n q attr) p ↔ Free k p ∧ p ≠ poolVa n ∧ p ≠ poolVa q := by
  constructor
  · rintro ⟨m, insideM, rfl, clear⟩
    simp only [handOutNew_bit k n q m attr insideN insideQ, Bool.or_eq_false_iff,
      decide_eq_false_iff_not] at clear
    obtain ⟨notQ, notN, before⟩ := clear
    exact ⟨⟨m, insideM, rfl, before⟩, fun same => notN (poolVa_inj m n insideM insideN same),
      fun same => notQ (poolVa_inj m q insideM insideQ same)⟩
  · rintro ⟨⟨m, insideM, rfl, clear⟩, notN, notQ⟩
    refine ⟨m, insideM, rfl, ?_⟩
    have differentN : m ≠ n := fun same => notN (by rw [same])
    have differentQ : m ≠ q := fun same => notQ (by rw [same])
    simp [handOutNew_bit k n q m attr insideN insideQ, clear, differentN, differentQ]

theorem handOutNew_marked (k : Kernel) (n q : Nat) (attr : Word) (insideN : n < managed)
    (insideQ : q < managed) (p : Word) :
    Marked (k.handOutNew n q attr) p ↔ Marked k p ∨ p = poolVa n ∨ p = poolVa q := by
  constructor
  · rintro ⟨m, insideM, rfl, set⟩
    simp only [handOutNew_bit k n q m attr insideN insideQ, Bool.or_eq_true,
      decide_eq_true_eq] at set
    rcases set with rfl | rfl | old
    · exact .inr (.inr rfl)
    · exact .inr (.inl rfl)
    · exact .inl ⟨m, insideM, rfl, old⟩
  · rintro (⟨m, insideM, rfl, set⟩ | rfl | rfl)
    · exact ⟨m, insideM, rfl, by simp [handOutNew_bit k n q m attr insideN insideQ, set]⟩
    · exact ⟨n, insideN, rfl, by simp [handOutNew_bit k n q n attr insideN insideQ]⟩
    · exact ⟨q, insideQ, rfl, by simp [handOutNew_bit k n q q attr insideN insideQ]⟩

theorem handOutNew_mem (k : Kernel) (n q : Nat) (attr : Word) :
    (k.handOutNew n q attr).mem =
      put (putPage (put k.mem k.level2 (poolIdx2 n) (tableEntry (poolVa q))) (poolVa q) (fun _ => 0))
        (poolVa q) (poolIdx3 n) (kernelLeaf (poolPage n) attr) := rfl

section HandOutNew

variable (k : Kernel) (wf : KernelWf k) (n q : Nat) (attr : Word)
  (insideQ : q < managed) (clearQ : marked k.memoryMap q = false)

include wf insideQ clearQ

theorem kernelTable_ne_fresh (p : Word) (table : KernelTable k p) : p ≠ poolVa q := by
  rintro rfl
  exact wf.busy _ table ⟨q, insideQ, rfl, clearQ⟩

omit wf insideQ clearQ in
theorem handOutNew_elsewhere (p : Word) (notFresh : p ≠ poolVa q) (notLevel2 : p ≠ k.level2) :
    (k.handOutNew n q attr).mem p = k.mem p := by
  rw [handOutNew_mem, put_page_other _ _ _ _ _ notFresh, putPage_other _ _ _ _ notFresh,
    put_page_other _ _ _ _ _ notLevel2]

theorem handOutNew_rows :
    (k.handOutNew n q attr).mem k.kernelTable = k.mem k.kernelTable ∧
      (k.handOutNew n q attr).mem k.level1 = k.mem k.level1 ∧
        (k.handOutNew n q attr).mem k.level2 =
          put k.mem k.level2 (poolIdx2 n) (tableEntry (poolVa q)) k.level2 := by
  have fresh := kernelTable_ne_fresh k wf q insideQ clearQ
  refine ⟨handOutNew_elsewhere k n q attr _ (fresh _ (.inl rfl)) wf.apart2.1.symm,
    handOutNew_elsewhere k n q attr _ (fresh _ (.inr (.inl rfl))) wf.apart2.2.symm,
    ?_⟩
  have notFresh := fresh k.level2 (.inr (.inr (.inl rfl)))
  rw [handOutNew_mem, put_page_other _ _ _ _ _ notFresh, putPage_other _ _ _ _ notFresh]

theorem handOutNew_levels :
    (k.handOutNew n q attr).level1 = k.level1 ∧ (k.handOutNew n q attr).level2 = k.level2 ∧
      (k.handOutNew n q attr).level3 (poolIdx2 n) = poolVa q ∧
        (∀ j, j ≠ poolIdx2 n → (k.handOutNew n q attr).level3 j = k.level3 j) ∧
          ∀ j, (k.handOutNew n q attr).hasLevel3 j ↔ j = poolIdx2 n ∨ k.hasLevel3 j := by
  obtain ⟨row0, row1, row2⟩ := handOutNew_rows k wf n q attr insideQ clearQ
  obtain ⟨same1, same2⟩ := Kernel.levels_eq k (k.handOutNew n q attr) rfl row0 row1
  have page := isPage_poolVa q insideQ
  refine ⟨same1, same2, ?_, fun j other => ?_, fun j => ?_⟩
  · simp only [Kernel.level3, same2, row2, put_same, tableEntry_vaddr _ page]
  · simp only [Kernel.level3, same2, row2, put_other _ _ _ _ _ _ (.inr other)]
  · by_cases here : j = poolIdx2 n
    · subst here
      simp [Kernel.hasLevel3, same2, row2, tableEntry_valid _ page, tableEntry_block _ page]
    · simp only [Kernel.hasLevel3, same2, row2, put_other _ _ _ _ _ _ (.inr here), here, false_or]

theorem handOutNew_kernelTable (missing : ¬ k.hasLevel3 (poolIdx2 n)) (p : Word) :
    KernelTable (k.handOutNew n q attr) p ↔ KernelTable k p ∨ p = poolVa q := by
  obtain ⟨same1, same2, new3, same3, same⟩ := handOutNew_levels k wf n q attr insideQ clearQ
  have table : (k.handOutNew n q attr).kernelTable = k.kernelTable := rfl
  have third : (∃ j, (j = poolIdx2 n ∨ k.hasLevel3 j) ∧ p = (k.handOutNew n q attr).level3 j) ↔
      (∃ j, k.hasLevel3 j ∧ p = k.level3 j) ∨ p = poolVa q := by
    constructor
    · rintro ⟨j, rfl | there, rfl⟩
      · exact .inr new3
      · have other : j ≠ poolIdx2 n := fun here => missing (here ▸ there)
        exact .inl ⟨j, there, same3 j other⟩
    · rintro (⟨j, there, rfl⟩ | rfl)
      · have other : j ≠ poolIdx2 n := fun here => missing (here ▸ there)
        exact ⟨j, .inr there, (same3 j other).symm⟩
      · exact ⟨_, .inl rfl, new3.symm⟩
  unfold KernelTable
  rw [same1, same2, table]
  simp only [same]
  rw [third]
  simp only [or_assoc]

theorem handOutNew_wf (missing : ¬ k.hasLevel3 (poolIdx2 n)) (insideN : n < managed) :
    KernelWf (k.handOutNew n q attr) := by
  obtain ⟨row0, row1, row2⟩ := handOutNew_rows k wf n q attr insideQ clearQ
  obtain ⟨same1, same2, new3, same3, same⟩ := handOutNew_levels k wf n q attr insideQ clearQ
  have table : (k.handOutNew n q attr).kernelTable = k.kernelTable := rfl
  have fresh := kernelTable_ne_fresh k wf q insideQ clearQ
  have old (j : Idx) (there : k.hasLevel3 j) : (k.handOutNew n q attr).level3 j = k.level3 j :=
    same3 j (fun here => missing (here ▸ there))
  have freshLevel3 (j : Idx) (there : k.hasLevel3 j) : k.level3 j ≠ poolVa q :=
    fresh _ (.inr (.inr (.inr ⟨j, there, rfl⟩)))
  constructor
  case present0 => rw [table, row0]; exact wf.present0
  case present1 => rw [same1, row1]; exact wf.present1
  case table0 => rw [table, row0]; exact wf.table0
  case table1 => rw [same1, row1]; exact wf.table1
  case top => rw [table, row0]; exact wf.top
  case middle => rw [same1, row1]; exact wf.middle
  case poolTable =>
    intro m insideM valid
    by_cases here : poolIdx2 m = poolIdx2 n
    · exact ((same _).mpr (.inl here)).2
    · rw [same2, row2, put_other _ _ _ _ _ _ (.inr here)] at valid ⊢
      exact wf.poolTable m insideM valid
  case apart1 => rw [same1, table]; exact wf.apart1
  case apart2 => rw [same1, same2, table]; exact wf.apart2
  case apart3 =>
    intro j there
    rw [same1, same2, table]
    rcases (same j).mp there with rfl | before
    · rw [new3]
      exact ⟨(fresh _ (.inl rfl)).symm, (fresh _ (.inr (.inl rfl))).symm,
        (fresh _ (.inr (.inr (.inl rfl)))).symm⟩
    · rw [old j before]
      exact wf.apart3 j before
  case distinct3 =>
    intro i j thereI thereJ equal
    rcases (same i).mp thereI with rfl | beforeI <;> rcases (same j).mp thereJ with rfl | beforeJ
    · rfl
    · rw [new3, old j beforeJ] at equal
      exact absurd equal.symm (freshLevel3 j beforeJ)
    · rw [new3, old i beforeI] at equal
      exact absurd equal (freshLevel3 i beforeI)
    · rw [old i beforeI, old j beforeJ] at equal
      exact wf.distinct3 i j beforeI beforeJ equal
  case busy =>
    intro va kernelPage free
    rw [handOutNew_free k n q attr insideN insideQ] at free
    rw [handOutNew_kernelTable k wf n q attr insideQ clearQ missing] at kernelPage
    rcases kernelPage with before | rfl
    · exact wf.busy va before free.1
    · exact free.2.2 rfl
  case unmapped =>
    intro m insideM clear there
    rw [handOutNew_bit k n q m attr insideN insideQ] at clear
    simp only [Bool.or_eq_false_iff, decide_eq_false_iff_not] at clear
    obtain ⟨_, notN, before⟩ := clear
    by_cases here : poolIdx2 m = poolIdx2 n
    · have other : poolIdx3 m ≠ poolIdx3 n := fun third =>
        notN (poolIdx_inj m n insideM insideN here third)
      rw [here, new3, handOutNew_mem, put_other _ _ _ _ _ _ (.inr other), putPage_same]
      exact isValid_zero
    · have was : k.hasLevel3 (poolIdx2 m) := ((same _).mp there).resolve_left here
      rw [old _ was, handOutNew_elsewhere k n q attr _ (freshLevel3 _ was) (wf.apart3 _ was).2.2]
      exact wf.unmapped m insideM before was

theorem handOutNew_settled (missing : ¬ k.hasLevel3 (poolIdx2 n)) (insideN : n < managed) (p : Word)
    (i : Idx) (table : KernelTable k p) (valid : mmuIsValid (k.mem p i) = true) :
    (k.handOutNew n q attr).mem p i = k.mem p i := by
  have notFresh := kernelTable_ne_fresh k wf q insideQ clearQ p table
  rw [handOutNew_mem, put_page_other _ _ _ _ _ notFresh, putPage_other _ _ _ _ notFresh]
  apply put_other
  by_contra both
  push Not at both
  obtain ⟨rfl, rfl⟩ := both
  exact missing ⟨valid, wf.poolTable n insideN valid⟩

theorem handOutNew_backed (insideN : n < managed) : Backed (k.handOutNew n q attr) (poolVa n) := by
  obtain ⟨_, _, new3, _, same⟩ := handOutNew_levels k wf n q attr insideQ clearQ
  refine ⟨n, insideN, rfl, ?_, (same _).mpr (.inl rfl), ?_⟩
  · simp [handOutNew_bit k n q n attr insideN insideQ]
  · rw [new3, handOutNew_mem, put_same]
    exact kernelLeaf_valid _ _

theorem handOutNew_backs (missing : ¬ k.hasLevel3 (poolIdx2 n)) (insideN : n < managed) (p : Word)
    (backed : Backed k p) : Backed (k.handOutNew n q attr) p := by
  obtain ⟨m, insideM, rfl, set, table, valid⟩ := backed
  obtain ⟨_, _, _, same3, same⟩ := handOutNew_levels k wf n q attr insideQ clearQ
  have other : poolIdx2 m ≠ poolIdx2 n := fun here => missing (here ▸ table)
  refine ⟨m, insideM, rfl, ?_, (same _).mpr (.inr table), ?_⟩
  · simp [handOutNew_bit k n q m attr insideN insideQ, set]
  · have kernelPage : KernelTable k (k.level3 (poolIdx2 m)) := .inr (.inr (.inr ⟨_, table, rfl⟩))
    rw [same3 _ other,
      handOutNew_settled k wf n q attr insideQ clearQ missing insideN _ _ kernelPage valid]
    exact valid

theorem handOutNew_backsOnly (insideN : n < managed) (p : Word)
    (backed : Backed (k.handOutNew n q attr) p) : Backed k p ∨ p = poolVa n := by
  obtain ⟨m, insideM, rfl, set, table, valid⟩ := backed
  obtain ⟨_, _, new3, same3, same⟩ := handOutNew_levels k wf n q attr insideQ clearQ
  by_cases here : poolIdx2 m = poolIdx2 n
  · by_cases third : poolIdx3 m = poolIdx3 n
    · exact .inr (by rw [poolIdx_inj m n insideM insideN here third])
    · rw [here, new3, handOutNew_mem, put_other _ _ _ _ _ _ (.inr third), putPage_same,
        isValid_zero] at valid
      cases valid
  · have before : k.hasLevel3 (poolIdx2 m) := ((same _).mp table).resolve_left here
    have kernelPage : KernelTable k (k.level3 (poolIdx2 m)) := .inr (.inr (.inr ⟨_, before, rfl⟩))
    have notFresh := kernelTable_ne_fresh k wf q insideQ clearQ _ kernelPage
    rw [same3 _ here, handOutNew_elsewhere k n q attr _ notFresh (wf.apart3 _ before).2.2] at valid
    refine .inl ⟨m, insideM, rfl, ?_, before, valid⟩
    by_contra clear
    rw [Bool.not_eq_true] at clear
    rw [wf.unmapped m insideM clear before] at valid
    cases valid

theorem handOutNew_allocated (missing : ¬ k.hasLevel3 (poolIdx2 n)) (insideN : n < managed)
    (clearN : marked k.memoryMap n = false) (different : n ≠ q) :
    Allocated k (k.handOutNew n q attr) (poolVa n) := by
  have free : Free k (poolVa n) := ⟨n, insideN, rfl, clearN⟩
  have freeQ : Free k (poolVa q) := ⟨q, insideQ, rfl, clearQ⟩
  have other : poolVa n ≠ poolVa q := fun same => different (poolVa_inj n q insideN insideQ same)
  have tables := handOutNew_kernelTable k wf n q attr insideQ clearQ missing
  have level2 : KernelTable k k.level2 := .inr (.inr (.inl rfl))
  constructor
  case wf => exact handOutNew_wf k wf n q attr insideQ clearQ missing insideN
  case wasFree => exact free
  case inUse =>
    refine ⟨(handOutNew_marked k n q attr insideN insideQ _).mpr (.inr (.inl rfl)), ?_⟩
    rw [tables]
    rintro (before | same)
    · exact wf.busy _ before free
    · exact other same
  case content =>
    have notLevel2 : poolVa n ≠ k.level2 := fun same => wf.busy _ (same ▸ level2) free
    exact handOutNew_elsewhere k n q attr _ other notLevel2
  case keeps =>
    rintro p ⟨used, notTable⟩
    have notFresh : p ≠ poolVa q := fun same => not_free_of_marked k p used (same ▸ freeQ)
    refine ⟨⟨(handOutNew_marked k n q attr insideN insideQ p).mpr (.inl used), ?_⟩, ?_⟩
    · rw [tables]
      exact fun either => either.elim notTable notFresh
    · exact handOutNew_elsewhere k n q attr p notFresh (fun same => notTable (same ▸ level2))
  case shrinks => exact fun p free => ((handOutNew_free k n q attr insideN insideQ p).mp free).1
  case grows =>
    intro p used
    rcases (handOutNew_marked k n q attr insideN insideQ p).mp used with before | same | rfl
    · exact .inl before
    · exact .inr (.inl same)
    · exact .inr (.inr ⟨(tables _).mpr (.inr rfl), fun table => wf.busy _ table freeQ⟩)
  case tables => exact fun p table => (tables p).mpr (.inl table)
  case settled =>
    exact handOutNew_settled k wf n q attr insideQ clearQ missing insideN
  case backed => exact handOutNew_backed k wf n q attr insideQ clearQ insideN
  case backs => exact handOutNew_backs k wf n q attr insideQ clearQ missing insideN
  case backsOnly => exact handOutNew_backsOnly k wf n q attr insideQ clearQ insideN
  case root => rfl
  case trace => rfl

end HandOutNew

/-- mem_kernel_alloc_page either finds no page and changes nothing, or hands one out. -/
theorem memKernelAllocPage_spec (k : Kernel) (wf : KernelWf k) (perm : MemPerm) (attr : Word)
    (known : kernelAttr perm = some attr) :
    memKernelAllocPage k perm = (⟨0, .memOom⟩, k) ∨
      ∃ va k', memKernelAllocPage k perm = (⟨va, .ok⟩, k') ∧ Allocated k k' va := by
  rw [memKernelAllocPage_eq k wf perm attr known]
  rcases found : k.pick with _ | ⟨n, _ | q⟩
  · exact .inl rfl
  · obtain ⟨inside, clear, there⟩ := pick_table k wf n found
    exact .inr ⟨_, _, rfl, handOut_allocated k wf n attr there inside clear⟩
  · obtain ⟨insideN, insideQ, different, clearN, clearQ, missing⟩ := pick_noTable k n q found
    exact .inr ⟨_, _, rfl,
      handOutNew_allocated k wf n q attr insideQ clearQ missing insideN clearN different⟩

end Anthill
