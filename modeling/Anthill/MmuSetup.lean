import Anthill.Munmap
import Anthill.RecursiveWindow
import Mathlib.Tactic.IntervalCases

set_option autoImplicit false

namespace Anthill

open Radix

-- What mmu_setup writes, and the addresses that it calls pmm_mark with, oldest first.
structure Boot where
  mem : Mem
  memoryMap : MemoryMap
  marks : List Word

def Boot.mark (b : Boot) (addr : Word) : Boot :=
  { b with memoryMap := pmmMark b.memoryMap addr, marks := b.marks ++ [addr] }

-- memset(table, 0, PAGESIZE)
def Boot.clear (b : Boot) (table : Word) : Boot := { b with mem := putPage b.mem (physToVirt table) fun _ => 0 }

def slot (n : Nat) : Idx := ⟨n % 512, Nat.mod_lt n (by decide)⟩

-- table[n] = entry, where an index from 512 on is one into the pages that follow.
def Boot.set (b : Boot) (table : Word) (n : Nat) (entry : Word) : Boot :=
  { b with mem := put b.mem (physToVirt (pageAt table (n / 512))) (slot n) entry }

-- The n-th table behind the kernel's data: the kernel's own are 0 to 3, those of user space 4 to 7.
def setupTable (dataEnd : Word) (n : Nat) : Word := pageAt dataEnd n

def setupTables (b : Boot) (tables : List Word) : Boot := tables.foldl Boot.clear (tables.foldl Boot.mark b)

def setupLink (table : Word) : Word := table ||| attValid ||| attPage ||| attAfSet

def linkKernel (b : Boot) (dataEnd : Word) : Boot :=
  let b := b.set (setupTable dataEnd 0) 511 (setupLink (setupTable dataEnd 0))
  let b := b.set (setupTable dataEnd 0) 0 (setupLink (setupTable dataEnd 1))
  let b := b.set (setupTable dataEnd 1) 0 (setupLink (setupTable dataEnd 2))
  b.set (setupTable dataEnd 2) 0 (setupLink (setupTable dataEnd 3))

-- The access flag is not set in these.
def linkUser (b : Boot) (dataEnd : Word) : Boot :=
  let b := b.set (setupTable dataEnd 4) 0 (setupTable dataEnd 5 ||| attValid ||| attPage)
  let b := b.set (setupTable dataEnd 5) 0 (setupTable dataEnd 6 ||| attValid ||| attPage)
  b.set (setupTable dataEnd 6) 0 (setupTable dataEnd 7 ||| attValid ||| attPage)

def setupEntry (addr type memType ap pxn : Word) : Word :=
  addr ||| attValid ||| type ||| memType ||| ap ||| attAfSet ||| pxn ||| attUxnNoexec

-- One page in the level-3 tables of the kernel and of user space.
def mapSetup (b : Boot) (dataEnd : Word) (mapped : Nat) (entry : Word) : Boot :=
  (b.set (setupTable dataEnd 3) mapped entry).set (setupTable dataEnd 7) mapped entry

-- The loop over the text segment, and the one over the data segment.
def segmentSetup (b : Boot) (dataEnd start ap pxn : Word) (mapped pages : Nat) : Boot :=
  (List.range pages).foldl (fun b i =>
    (mapSetup b dataEnd (mapped + i) (setupEntry (pageAt start i) attPage attNormal ap pxn)).mark (pageAt start i)) b

-- The loop over the ramdisk, and the one over the peripherals.
def blockSetup (b : Boot) (dataEnd base memType : Word) (first : Nat) : Boot :=
  (List.range 8).foldl (fun b block =>
    let b := b.set (setupTable dataEnd 2) (first + block)
      (setupEntry (base - memVaKernelStart + BitVec.ofNat 64 block * (pageSize <<< 9)) attBlock memType attApNaRw
        attPxnNoexec)
    (List.range 512).foldl (fun b p => b.mark (virtToPhys base + BitVec.ofNat 64 (block * p))) b) b

def tableSetup (b : Boot) (dataEnd : Word) (mapped : Nat) : Boot :=
  (List.range 8).foldl (fun b i =>
    b.set (setupTable dataEnd 3) (mapped + i) (setupEntry (pageAt dataEnd i) attPage attNormal attApNaRw attPxnNoexec)) b

def mmuSetup (m : Mem) (map : MemoryMap) (dataStart dataEnd : Word) : Boot :=
  let kernel := [setupTable dataEnd 0, setupTable dataEnd 1, setupTable dataEnd 2, setupTable dataEnd 3]
  let user := [setupTable dataEnd 4, setupTable dataEnd 5, setupTable dataEnd 6, setupTable dataEnd 7]
  let b := linkKernel (setupTables ⟨m, map, []⟩ kernel) dataEnd
  let b := linkUser (setupTables b user) dataEnd
  -- Skip unused memory
  let mapped := (memLow / pageSize).toNat - 1
  let b := mapSetup b dataEnd mapped (setupEntry (memLow - pageSize) attPage attNormal attApNaRw attPxnNoexec)
  let mapped := mapped + 1
  let textPages := ((dataStart - memLow) / pageSize).toNat
  let b := segmentSetup b dataEnd memLow attApNaRo attPxnExec mapped textPages
  let mapped := mapped + textPages
  let dataPages := ((dataEnd - dataStart) / pageSize).toNat
  let b := segmentSetup b dataEnd dataStart attApNaRw attPxnNoexec mapped dataPages
  let mapped := mapped + dataPages
  let b := blockSetup b dataEnd memRd attNormal 496
  let b := blockSetup b dataEnd memMmio attDevice 504
  tableSetup b dataEnd mapped

/-- The linker's addresses are page aligned, and all that mmu_setup maps by pages fits in the level-3 table. -/
structure SetupFits (dataStart dataEnd : Word) : Prop where
  alignedStart : dataStart.toNat % 4096 = 0
  alignedEnd : dataEnd.toNat % 4096 = 0
  low : memLow.toNat ≤ dataStart.toNat
  order : dataStart.toNat ≤ dataEnd.toNat
  fits : dataEnd.toNat / 4096 + 8 ≤ 512

/-- From `b` to `b'` the calls of pmm_mark are those for `addrs`. -/
structure Adds (b b' : Boot) (addrs : List Word) : Prop where
  marks : b'.marks = b.marks ++ addrs
  memoryMap : b'.memoryMap = addrs.foldl pmmMark b.memoryMap

theorem Adds.nothing {b b' : Boot} (marks : b'.marks = b.marks) (map : b'.memoryMap = b.memoryMap) : Adds b b' [] :=
  ⟨by rw [marks, List.append_nil], map⟩

theorem Adds.trans {b b' b'' : Boot} {first second : List Word} (one : Adds b b' first) (two : Adds b' b'' second) :
    Adds b b'' (first ++ second) :=
  ⟨by rw [two.marks, one.marks, List.append_assoc], by rw [two.memoryMap, one.memoryMap, List.foldl_append]⟩

theorem Adds.behind {b b' b'' : Boot} {addrs : List Word} (rest : Adds b' b'' addrs) (marks : b'.marks = b.marks)
    (map : b'.memoryMap = b.memoryMap) : Adds b b'' addrs :=
  ⟨by rw [rest.marks, marks], by rw [rest.memoryMap, map]⟩

theorem mark_adds (b : Boot) (addr : Word) : Adds b (b.mark addr) [addr] := ⟨rfl, rfl⟩

theorem foldl_adds {A : Type} (rounds : List A) (step : Boot → A → Boot) (addrs : A → List Word)
    (each : ∀ b a, Adds b (step b a) (addrs a)) (b : Boot) : Adds b (rounds.foldl step b) (rounds.flatMap addrs) := by
  induction rounds generalizing b with
  | nil => exact .nothing rfl rfl
  | cons a rounds ih =>
    rw [List.foldl_cons, List.flatMap_cons]
    exact (each b a).trans (ih _)

theorem foldl_adds_nothing {A : Type} (rounds : List A) (step : Boot → A → Boot) (each : ∀ b a, Adds b (step b a) [])
    (b : Boot) : Adds b (rounds.foldl step b) [] := by
  have all := foldl_adds rounds step (fun _ => []) each b
  rwa [List.flatMap_eq_nil_iff.mpr fun _ _ => rfl] at all

theorem setupTables_adds (b : Boot) (tables : List Word) : Adds b (setupTables b tables) tables := by
  have marks := foldl_adds tables Boot.mark (fun table => [table]) mark_adds b
  rw [List.flatMap_singleton'] at marks
  have both := marks.trans (foldl_adds_nothing tables Boot.clear (fun _ _ => .nothing rfl rfl) (tables.foldl Boot.mark b))
  rw [List.append_nil] at both
  exact both

theorem segmentSetup_adds (b : Boot) (dataEnd start ap pxn : Word) (mapped pages : Nat) :
    Adds b (segmentSetup b dataEnd start ap pxn mapped pages) ((List.range pages).flatMap fun i => [pageAt start i]) :=
  foldl_adds _ _ _ (fun _ _ => ⟨rfl, rfl⟩) b

def blockMarks (base : Word) : List Word :=
  (List.range 8).flatMap fun block => (List.range 512).flatMap fun p =>
    [virtToPhys base + BitVec.ofNat 64 (block * p)]

theorem blockSetup_adds (b : Boot) (dataEnd base memType : Word) (first : Nat) :
    Adds b (blockSetup b dataEnd base memType first) (blockMarks base) := by
  refine foldl_adds _ _ _ (fun b block => ?_) b
  have marks (b : Boot) := foldl_adds (List.range 512)
    (fun b p => b.mark (virtToPhys base + BitVec.ofNat 64 (block * p))) _ (fun b p => mark_adds b _) b
  exact (marks _).behind rfl rfl

theorem tableSetup_adds (b : Boot) (dataEnd : Word) (mapped : Nat) : Adds b (tableSetup b dataEnd mapped) [] := by
  unfold tableSetup
  refine foldl_adds_nothing (List.range 8) _ (fun b i => ?_) b
  exact .nothing rfl rfl

def textPages (dataStart : Word) : Nat := ((dataStart - memLow) / pageSize).toNat

def dataPages (dataStart dataEnd : Word) : Nat := ((dataEnd - dataStart) / pageSize).toNat

section Pages

variable {dataStart dataEnd : Word} (setup : SetupFits dataStart dataEnd)

include setup

theorem SetupFits.textPages : textPages dataStart = (dataStart.toNat - memLow.toNat) / pageSize.toNat := by
  rw [Anthill.textPages, BitVec.toNat_udiv, BitVec.toNat_sub_of_le (BitVec.le_def.mpr setup.low)]

theorem SetupFits.dataPages : dataPages dataStart dataEnd = (dataEnd.toNat - dataStart.toNat) / pageSize.toNat := by
  rw [Anthill.dataPages, BitVec.toNat_udiv, BitVec.toNat_sub_of_le (BitVec.le_def.mpr setup.order)]

end Pages

def setupMarks (dataStart dataEnd : Word) : List Word :=
  (List.range 8).map (setupTable dataEnd) ++ (List.range (textPages dataStart)).map (pageAt memLow) ++
    (List.range (dataPages dataStart dataEnd)).map (pageAt dataStart) ++ blockMarks memRd ++ blockMarks memMmio

theorem mmuSetup_adds (m : Mem) (map : MemoryMap) (dataStart dataEnd : Word) :
    Adds ⟨m, map, []⟩ (mmuSetup m map dataStart dataEnd) (setupMarks dataStart dataEnd) := by
  have linked (b : Boot) : Adds b (linkKernel b dataEnd) [] := .nothing rfl rfl
  have linkedUser (b : Boot) : Adds b (linkUser b dataEnd) [] := .nothing rfl rfl
  have stack (b : Boot) (mapped : Nat) (entry : Word) : Adds b (mapSetup b dataEnd mapped entry) [] := .nothing rfl rfl
  have all := (((((((((setupTables_adds ⟨m, map, []⟩ [setupTable dataEnd 0, setupTable dataEnd 1, setupTable dataEnd 2,
    setupTable dataEnd 3]).trans (linked _)).trans (setupTables_adds _ [setupTable dataEnd 4, setupTable dataEnd 5,
    setupTable dataEnd 6, setupTable dataEnd 7])).trans (linkedUser _)).trans
    (stack _ ((memLow / pageSize).toNat - 1) (setupEntry (memLow - pageSize) attPage attNormal attApNaRw attPxnNoexec))).trans
    (segmentSetup_adds _ dataEnd memLow attApNaRo attPxnExec ((memLow / pageSize).toNat - 1 + 1) (textPages dataStart))).trans
    (segmentSetup_adds _ dataEnd dataStart attApNaRw attPxnNoexec ((memLow / pageSize).toNat - 1 + 1 + textPages dataStart)
      (dataPages dataStart dataEnd))).trans
    (blockSetup_adds _ dataEnd memRd attNormal 496)).trans (blockSetup_adds _ dataEnd memMmio attDevice 504)).trans
    (tableSetup_adds _ dataEnd ((memLow / pageSize).toNat - 1 + 1 + textPages dataStart + dataPages dataStart dataEnd))
  have tables : (List.range 8).map (setupTable dataEnd) = [setupTable dataEnd 0, setupTable dataEnd 1,
    setupTable dataEnd 2, setupTable dataEnd 3] ++ [setupTable dataEnd 4, setupTable dataEnd 5, setupTable dataEnd 6,
    setupTable dataEnd 7] := rfl
  rw [setupMarks, tables, List.map_eq_flatMap, List.map_eq_flatMap]
  simp only [List.append_nil] at all
  exact all

theorem marked_foldl (addrs : List Word) (map : MemoryMap) (n : Nat) :
    marked (addrs.foldl pmmMark map) n = true ↔ marked map n = true ∨ ∃ a, a ∈ addrs ∧ pmmPage a = n := by
  induction addrs generalizing map with
  | nil => simp
  | cons a addrs ih =>
    rw [List.foldl_cons, ih, marked_pmmMark]
    simp only [Bool.or_eq_true, decide_eq_true_eq, List.exists_mem_cons_iff, eq_comm (a := n)]
    tauto

-- The tables as the kernel's linear map shows them.
def setupPage (dataEnd : Word) (n : Nat) : Word := physToVirt (setupTable dataEnd n)

def Boot.kernel (b : Boot) (dataEnd : Word) : Kernel := ⟨b.mem, b.memoryMap, setupPage dataEnd 0, []⟩

structure IsPageEntry (j : Idx) (entry : Word) : Prop where
  valid : mmuIsValid entry = true
  page : mmuIsBlock entry = false
  addr : (entry &&& vaddrMask).toNat = j.val * 4096

structure IsBlockEntry (j : Idx) (entry : Word) : Prop where
  valid : mmuIsValid entry = true
  block : mmuIsBlock entry = true
  addr : (entry &&& vaddrMask).toNat = j.val * 2097152

/-- The kernel's tables, as far as they are filled: each entry of a page or block is for its own address. -/
structure KernelRows (m : Mem) (dataEnd : Word) : Prop where
  row0 : ∀ j, m (setupPage dataEnd 0) j =
    if j = 0 then setupLink (setupTable dataEnd 1) else if j = 511 then setupLink (setupTable dataEnd 0) else 0
  row1 : ∀ j, m (setupPage dataEnd 1) j = if j = 0 then setupLink (setupTable dataEnd 2) else 0
  row2 : ∀ j, (j = 0 ∧ m (setupPage dataEnd 2) j = setupLink (setupTable dataEnd 3)) ∨
    m (setupPage dataEnd 2) j = 0 ∨ IsBlockEntry j (m (setupPage dataEnd 2) j)
  row3 : ∀ j, m (setupPage dataEnd 3) j = 0 ∨ IsPageEntry j (m (setupPage dataEnd 3) j)

theorem KernelRows.away {m m' : Mem} {dataEnd : Word} (rows : KernelRows m dataEnd)
    (same : ∀ n, n < 4 → m' (setupPage dataEnd n) = m (setupPage dataEnd n)) : KernelRows m' dataEnd := by
  refine ⟨?_, ?_, ?_, ?_⟩
  · rw [same 0 (by decide)]
    exact rows.row0
  · rw [same 1 (by decide)]
    exact rows.row1
  · rw [same 2 (by decide)]
    exact rows.row2
  · rw [same 3 (by decide)]
    exact rows.row3

theorem slot_eq (n : Nat) (small : n < 512) : slot n = ⟨n, small⟩ := Fin.ext (Nat.mod_eq_of_lt small)

theorem set_mem (b : Boot) (table : Word) (n : Nat) (small : n < 512) (entry : Word) :
    (b.set table n entry).mem = put b.mem (physToVirt table) ⟨n, small⟩ entry := by
  rw [Boot.set, Nat.div_eq_of_lt small, pageAt_zero, slot_eq n small]

-- The address and the two lowest bits of an entry.
theorem setupEntry_bits (addr type memType ap pxn : Word) (aligned : addr.toNat % 4096 = 0) (small : addr.toNat < 2 ^ 48)
    (clear : (attValid ||| type ||| memType ||| ap ||| attAfSet ||| pxn ||| attUxnNoexec) &&& vaddrMask = 0) :
    setupEntry addr type memType ap pxn &&& vaddrMask = addr ∧
      ∀ b : Word, vaddrMask &&& b = 0 → setupEntry addr type memType ap pxn &&& b =
        (attValid ||| type ||| memType ||| ap ||| attAfSet ||| pxn ||| attUxnNoexec) &&& b := by
  have page : addr &&& vaddrMask = addr := and_vaddrMask addr aligned small
  have split : setupEntry addr type memType ap pxn =
      addr ||| (attValid ||| type ||| memType ||| ap ||| attAfSet ||| pxn ||| attUxnNoexec) := by
    simp only [setupEntry, BitVec.or_assoc]
  rw [split]
  constructor
  · rw [BitVec.and_or_distrib_right, page, clear]
    exact BitVec.or_zero
  · intro b apart
    have gone : addr &&& b = 0 := by
      rw [← page, BitVec.and_assoc, apart]
      exact BitVec.and_zero
    rw [BitVec.and_or_distrib_right, gone]
    exact BitVec.zero_or

theorem isValid_low (entry : Word) : mmuIsValid entry = mmuIsValid (entry &&& 3) := by
  rw [mmuIsValid, mmuIsValid, BitVec.and_assoc, show (3 : Word) &&& ((1 : Word) <<< 0) = (1 : Word) <<< 0 by decide]

theorem isBlock_low (entry : Word) : mmuIsBlock entry = mmuIsBlock (entry &&& 3) := by
  rw [mmuIsBlock, mmuIsBlock, BitVec.and_assoc, show (3 : Word) &&& ((1 : Word) <<< 1) = (1 : Word) <<< 1 by decide]

theorem setupEntry_page (addr memType ap pxn : Word) (j : Idx) (addr_eq : addr.toNat = j.val * 4096)
    (clear : (attValid ||| attPage ||| memType ||| ap ||| attAfSet ||| pxn ||| attUxnNoexec) &&& vaddrMask = 0)
    (low : (attValid ||| attPage ||| memType ||| ap ||| attAfSet ||| pxn ||| attUxnNoexec) &&& 3 = 3) :
    IsPageEntry j (setupEntry addr attPage memType ap pxn) := by
  have bound := j.isLt
  obtain ⟨masked, bits⟩ := setupEntry_bits addr attPage memType ap pxn (by omega) (by omega) clear
  have three := (bits 3 (by decide)).trans low
  refine ⟨?_, ?_, by rw [masked, addr_eq]⟩
  · rw [isValid_low, three]
    decide
  · rw [isBlock_low, three]
    decide

theorem setupEntry_block (addr memType ap pxn : Word) (j : Idx) (addr_eq : addr.toNat = j.val * 2097152)
    (clear : (attValid ||| attBlock ||| memType ||| ap ||| attAfSet ||| pxn ||| attUxnNoexec) &&& vaddrMask = 0)
    (low : (attValid ||| attBlock ||| memType ||| ap ||| attAfSet ||| pxn ||| attUxnNoexec) &&& 3 = 1) :
    IsBlockEntry j (setupEntry addr attBlock memType ap pxn) := by
  have bound := j.isLt
  obtain ⟨masked, bits⟩ := setupEntry_bits addr attBlock memType ap pxn (by omega) (by omega) clear
  have one := (bits 3 (by decide)).trans low
  refine ⟨?_, ?_, by rw [masked, addr_eq]⟩
  · rw [isValid_low, one]
    decide
  · rw [isBlock_low, one]
    decide

theorem setupTables_mem (b : Boot) (tables : List Word) (p : Word) :
    (setupTables b tables).mem p = if p ∈ tables.map physToVirt then fun _ => 0 else b.mem p := by
  have marks (tables : List Word) : (tables.foldl Boot.mark b).mem = b.mem := by
    refine List.foldlRecOn _ _ (motive := fun b' : Boot => b'.mem = b.mem) rfl fun b' same p _ => ?_
    exact same
  have clears (b : Boot) (tables : List Word) :
      (tables.foldl Boot.clear b).mem p = if p ∈ tables.map physToVirt then fun _ => 0 else b.mem p := by
    induction tables generalizing b with
    | nil => simp
    | cons table tables ih =>
      rw [List.foldl_cons, ih]
      simp only [List.map_cons, List.mem_cons]
      by_cases here : p = physToVirt table
      · simp [Boot.clear, putPage, here]
      · simp [Boot.clear, putPage, here]
  rw [setupTables, clears, marks]

section Fits

variable {dataStart dataEnd : Word} (setup : SetupFits dataStart dataEnd)

include setup

theorem SetupFits.table_toNat (n : Nat) (small : n < 8) : (setupTable dataEnd n).toNat = dataEnd.toNat + n * 4096 := by
  have fits := setup.fits
  rw [setupTable, pageAt_toNat]
  omega

theorem SetupFits.link (n : Nat) (small : n < 8) :
    tableNav (setupLink (setupTable dataEnd n)) = some (setupPage dataEnd n) := by
  have page : IsPage (setupPage dataEnd n) := by
    have value := setup.table_toNat n small
    have fits := setup.fits
    have aligned := setup.alignedEnd
    rw [IsPage, setupPage, virtToPhys_physToVirt]
    exact and_vaddrMask _ (by omega) (by omega)
  have same : setupLink (setupTable dataEnd n) = tableEntry (setupPage dataEnd n) := by
    rw [setupPage, tableEntry, virtToPhys_physToVirt, setupLink]
  rw [same, tableNav_some]
  exact ⟨tableEntry_valid _ page, tableEntry_block _ page, tableEntry_vaddr _ page⟩

theorem SetupFits.pages_apart (n n' : Nat) (small : n < 8) (small' : n' < 8) (different : n ≠ n') :
    setupPage dataEnd n ≠ setupPage dataEnd n' := by
  intro same
  have equal := congrArg BitVec.toNat (physToVirt_inj _ _ same)
  rw [setup.table_toNat n small, setup.table_toNat n' small'] at equal
  omega

-- Writes to a table of user space leave the kernel's tables as they are.
theorem SetupFits.set_user (b : Boot) (t n : Nat) (user : 4 ≤ t) (tables : t < 8) (small : n < 512) (entry : Word)
    (rows : KernelRows b.mem dataEnd) : KernelRows (b.set (setupTable dataEnd t) n entry).mem dataEnd := by
  refine rows.away fun n' less => ?_
  rw [set_mem b _ n small]
  exact put_page_other _ _ _ _ _ (setup.pages_apart n' t (by omega) tables (by omega))

theorem SetupFits.set_page (b : Boot) (n : Nat) (small : n < 512) (entry : Word) (fits : IsPageEntry ⟨n, small⟩ entry)
    (rows : KernelRows b.mem dataEnd) : KernelRows (b.set (setupTable dataEnd 3) n entry).mem dataEnd := by
  have other (n' : Nat) (less : n' < 3) :
      (b.set (setupTable dataEnd 3) n entry).mem (setupPage dataEnd n') = b.mem (setupPage dataEnd n') := by
    rw [set_mem b _ n small]
    exact put_page_other _ _ _ _ _ (setup.pages_apart n' 3 (by omega) (by decide) (by omega))
  refine ⟨?_, ?_, ?_, fun j => ?_⟩
  · rw [other 0 (by decide)]
    exact rows.row0
  · rw [other 1 (by decide)]
    exact rows.row1
  · rw [other 2 (by decide)]
    exact rows.row2
  · rw [set_mem b _ n small]
    by_cases here : j = ⟨n, small⟩
    · subst here
      rw [setupPage, put_same]
      exact .inr fits
    · rw [put_other _ _ _ _ _ _ (.inr here)]
      exact rows.row3 j

theorem SetupFits.set_block (b : Boot) (n : Nat) (small : n < 512) (entry : Word)
    (fits : IsBlockEntry ⟨n, small⟩ entry) (rows : KernelRows b.mem dataEnd) :
    KernelRows (b.set (setupTable dataEnd 2) n entry).mem dataEnd := by
  have other (n' : Nat) (less : n' < 4) (away : n' ≠ 2) :
      (b.set (setupTable dataEnd 2) n entry).mem (setupPage dataEnd n') = b.mem (setupPage dataEnd n') := by
    rw [set_mem b _ n small]
    exact put_page_other _ _ _ _ _ (setup.pages_apart n' 2 (by omega) (by decide) away)
  refine ⟨?_, ?_, fun j => ?_, ?_⟩
  · rw [other 0 (by decide) (by decide)]
    exact rows.row0
  · rw [other 1 (by decide) (by decide)]
    exact rows.row1
  · rw [set_mem b _ n small]
    by_cases here : j = ⟨n, small⟩
    · subst here
      rw [setupPage, put_same]
      exact .inr (.inr fits)
    · rw [put_other _ _ _ _ _ _ (.inr here)]
      exact rows.row2 j
  · rw [other 3 (by decide) (by decide)]
    exact rows.row3

theorem SetupFits.segment (b : Boot) (start ap pxn : Word) (mapped pages : Nat) (here : start.toNat = mapped * 4096)
    (room : mapped + pages ≤ 512)
    (clear : (attValid ||| attPage ||| attNormal ||| ap ||| attAfSet ||| pxn ||| attUxnNoexec) &&& vaddrMask = 0)
    (low : (attValid ||| attPage ||| attNormal ||| ap ||| attAfSet ||| pxn ||| attUxnNoexec) &&& 3 = 3)
    (rows : KernelRows b.mem dataEnd) : KernelRows (segmentSetup b dataEnd start ap pxn mapped pages).mem dataEnd := by
  unfold segmentSetup
  refine List.foldlRecOn _ _ (motive := fun b : Boot => KernelRows b.mem dataEnd) rows fun b rows i member => ?_
  have inside := List.mem_range.mp member
  have small : mapped + i < 512 := by omega
  refine setup.set_user _ 7 _ (by decide) (by decide) small _ (setup.set_page b _ small _ ?_ rows)
  refine setupEntry_page _ _ _ _ _ ?_ clear low
  rw [pageAt_toNat]
  show (start.toNat + i * 4096) % 2 ^ 64 = (mapped + i) * 4096
  omega

theorem SetupFits.blocks (b : Boot) (base memType : Word) (first : Nat)
    (here : (base - memVaKernelStart).toNat = first * 2097152) (room : first + 8 ≤ 512)
    (clear : (attValid ||| attBlock ||| memType ||| attApNaRw ||| attAfSet ||| attPxnNoexec ||| attUxnNoexec) &&&
      vaddrMask = 0)
    (valid : (attValid ||| attBlock ||| memType ||| attApNaRw ||| attAfSet ||| attPxnNoexec ||| attUxnNoexec) &&& 3 = 1)
    (rows : KernelRows b.mem dataEnd) : KernelRows (blockSetup b dataEnd base memType first).mem dataEnd := by
  have marks (b : Boot) (addrs : Nat → Word) :
      ((List.range 512).foldl (fun b p => b.mark (addrs p)) b).mem = b.mem := by
    refine List.foldlRecOn _ _ (motive := fun b' : Boot => b'.mem = b.mem) rfl fun b' same p _ => ?_
    exact same
  unfold blockSetup
  refine List.foldlRecOn _ _ (motive := fun b : Boot => KernelRows b.mem dataEnd) rows fun b rows block member => ?_
  have inside := List.mem_range.mp member
  have small : first + block < 512 := by omega
  simp only [marks]
  refine setup.set_block b _ small _ (setupEntry_block _ _ _ _ _ ?_ clear valid) rows
  have size : (pageSize <<< 9).toNat = 2097152 := by decide
  rw [BitVec.toNat_add, BitVec.toNat_mul, BitVec.toNat_ofNat, here, size]
  show (first * 2097152 + block % 2 ^ 64 * 2097152 % 2 ^ 64) % 2 ^ 64 = (first + block) * 2097152
  omega

theorem SetupFits.tables (b : Boot) (mapped : Nat) (here : dataEnd.toNat = mapped * 4096) (rows : KernelRows b.mem dataEnd) :
    KernelRows (tableSetup b dataEnd mapped).mem dataEnd := by
  have fits := setup.fits
  unfold tableSetup
  refine List.foldlRecOn _ _ (motive := fun b : Boot => KernelRows b.mem dataEnd) rows fun b rows i member => ?_
  have inside := List.mem_range.mp member
  have small : mapped + i < 512 := by omega
  refine setup.set_page b _ small _ (setupEntry_page _ _ _ _ _ ?_ (by decide) (by decide)) rows
  rw [pageAt_toNat]
  show (dataEnd.toNat + i * 4096) % 2 ^ 64 = (mapped + i) * 4096
  omega

theorem SetupFits.linked (b : Boot) (zero : ∀ n, n < 4 → b.mem (setupPage dataEnd n) = fun _ => 0) :
    KernelRows (linkKernel b dataEnd).mem dataEnd := by
  have apart (n n' : Nat) (small : n < 4) (small' : n' < 4) (different : n ≠ n') :
      setupPage dataEnd n ≠ setupPage dataEnd n' := setup.pages_apart n n' (by omega) (by omega) different
  have mem : (linkKernel b dataEnd).mem = put (put (put (put b.mem (setupPage dataEnd 0) 511
      (setupLink (setupTable dataEnd 0))) (setupPage dataEnd 0) 0 (setupLink (setupTable dataEnd 1)))
      (setupPage dataEnd 1) 0 (setupLink (setupTable dataEnd 2))) (setupPage dataEnd 2) 0
      (setupLink (setupTable dataEnd 3)) := by
    simp only [linkKernel, set_mem _ _ _ (show 0 < 512 by decide), set_mem _ _ _ (show 511 < 512 by decide)]
    rfl
  rw [mem]
  refine ⟨fun j => ?_, fun j => ?_, fun j => ?_, fun j => ?_⟩
  · rw [put_page_other _ _ _ _ _ (apart 0 2 (by decide) (by decide) (by decide)),
      put_page_other _ _ _ _ _ (apart 0 1 (by decide) (by decide) (by decide))]
    by_cases first : j = 0
    · rw [first, put_same]
      rfl
    · rw [put_other _ _ _ _ _ _ (.inr first), if_neg first]
      by_cases last : j = 511
      · rw [last, put_same]
        rfl
      · rw [put_other _ _ _ _ _ _ (.inr last), if_neg last, zero 0 (by decide)]
  · rw [put_page_other _ _ _ _ _ (apart 1 2 (by decide) (by decide) (by decide))]
    by_cases first : j = 0
    · rw [first, put_same]
      rfl
    · rw [put_other _ _ _ _ _ _ (.inr first), if_neg first,
        put_page_other _ _ _ _ _ (apart 1 0 (by decide) (by decide) (by decide)),
        put_page_other _ _ _ _ _ (apart 1 0 (by decide) (by decide) (by decide)), zero 1 (by decide)]
  · by_cases first : j = 0
    · rw [first, put_same]
      exact .inl ⟨rfl, rfl⟩
    · rw [put_other _ _ _ _ _ _ (.inr first), put_page_other _ _ _ _ _ (apart 2 1 (by decide) (by decide) (by decide)),
        put_page_other _ _ _ _ _ (apart 2 0 (by decide) (by decide) (by decide)),
        put_page_other _ _ _ _ _ (apart 2 0 (by decide) (by decide) (by decide)), zero 2 (by decide)]
      exact .inr (.inl rfl)
  · rw [put_page_other _ _ _ _ _ (apart 3 2 (by decide) (by decide) (by decide)),
      put_page_other _ _ _ _ _ (apart 3 1 (by decide) (by decide) (by decide)),
      put_page_other _ _ _ _ _ (apart 3 0 (by decide) (by decide) (by decide)),
      put_page_other _ _ _ _ _ (apart 3 0 (by decide) (by decide) (by decide)), zero 3 (by decide)]
    exact .inl rfl

/-- Each valid entry that mmu_setup leaves in the kernel's tables is for its own address. -/
theorem mmuSetup_rows (m : Mem) (map : MemoryMap) : KernelRows (mmuSetup m map dataStart dataEnd).mem dataEnd := by
  have fits := setup.fits
  have low := setup.low
  have order := setup.order
  have alignedStart := setup.alignedStart
  have alignedEnd := setup.alignedEnd
  have base : memLow.toNat = 524288 := by decide
  have size : pageSize.toNat = 4096 := by decide
  have first : (memLow / pageSize).toNat - 1 = 127 := by decide
  have text : ((dataStart - memLow) / pageSize).toNat = (dataStart.toNat - 524288) / 4096 := by
    rw [← base, ← size]
    exact setup.textPages
  have data : ((dataEnd - dataStart) / pageSize).toNat = (dataEnd.toNat - dataStart.toNat) / 4096 := by
    rw [← size]
    exact setup.dataPages
  unfold mmuSetup
  simp only [first, text, data]
  refine setup.tables _ _ (by omega) (setup.blocks _ _ _ _ (by decide) (by decide) (by decide) (by decide)
    (setup.blocks _ _ _ _ (by decide) (by decide) (by decide) (by decide)
      (setup.segment _ _ _ _ _ _ (by omega) (by omega) (by decide) (by decide)
        (setup.segment _ _ _ _ _ _ (by decide) (by omega) (by decide) (by decide) ?_))))
  refine setup.set_user _ 7 _ (by decide) (by decide) (by decide) _ (setup.set_page _ _ (by decide) _
    (setupEntry_page _ _ _ _ _ (by decide) (by decide) (by decide)) ?_)
  unfold linkUser
  refine setup.set_user _ 6 0 (by decide) (by decide) (by decide) _ (setup.set_user _ 5 0 (by decide) (by decide)
    (by decide) _ (setup.set_user _ 4 0 (by decide) (by decide) (by decide) _ ?_))
  refine (setup.linked (setupTables ⟨m, map, []⟩ [setupTable dataEnd 0, setupTable dataEnd 1, setupTable dataEnd 2,
    setupTable dataEnd 3]) fun n less => ?_).away fun n less => ?_
  · rw [setupTables_mem, if_pos]
    interval_cases n <;> simp [setupPage]
  · rw [setupTables_mem, if_neg]
    simp only [List.map_cons, List.map_nil, List.mem_cons, List.not_mem_nil, or_false, not_or]
    exact ⟨setup.pages_apart n 4 (by omega) (by decide) (by omega), setup.pages_apart n 5 (by omega) (by decide) (by omega),
      setup.pages_apart n 6 (by omega) (by decide) (by omega), setup.pages_apart n 7 (by omega) (by decide) (by omega)⟩

end Fits

-- The address of an entry, with the offset of the address that is translated.
theorem physAddr_toNat (va entry : Word) (level shift : Nat) (mask : (offsetMask level).toNat = 2 ^ shift - 1)
    (aligned : (entry &&& vaddrMask).toNat % 2 ^ shift = 0) :
    (physAddr va (level, entry)).toNat = (entry &&& vaddrMask).toNat + va.toNat % 2 ^ shift := by
  have offset : (va &&& offsetMask level).toNat = va.toNat % 2 ^ shift := by
    rw [BitVec.toNat_and, mask, Nat.and_two_pow_sub_one_eq_mod]
  have low : (entry &&& vaddrMask) &&& offsetMask level = 0 := by
    apply BitVec.eq_of_toNat_eq
    rw [BitVec.toNat_and, mask, Nat.and_two_pow_sub_one_eq_mod]
    exact aligned
  have whole : (entry &&& vaddrMask) &&& ~~~offsetMask level = entry &&& vaddrMask := by
    have split : (entry &&& vaddrMask) &&& (offsetMask level ||| ~~~offsetMask level) = entry &&& vaddrMask := by
      rw [BitVec.or_not_self, BitVec.and_allOnes]
    rw [BitVec.and_or_distrib_left, low] at split
    exact BitVec.zero_or.symm.trans split
  have parts : (entry &&& vaddrMask).toNat = 2 ^ shift * ((entry &&& vaddrMask).toNat / 2 ^ shift) :=
    (Nat.mul_div_cancel' (Nat.dvd_of_mod_eq_zero aligned)).symm
  have under : va.toNat % 2 ^ shift < 2 ^ shift := Nat.mod_lt _ (Nat.two_pow_pos shift)
  show ((entry &&& vaddrMask) &&& ~~~offsetMask level ||| va &&& offsetMask level).toNat = _
  rw [whole, BitVec.toNat_or, offset, parts, ← Nat.two_pow_add_eq_or_of_lt under]

theorem walk_missing (m : Mem) (level : Nat) (p : Word) (i : Idx) (idx : List Idx) (zero : m p i = 0) :
    walk m level p (i :: idx) = none := by
  rw [walk, zero, isValid_zero]
  rfl

section Promises

variable (m : Mem) (map : MemoryMap) (dataStart dataEnd : Word)

/-- The pages that the kernel's text, its data and the eight tables take. -/
def SetupPage (dataEnd addr : Word) : Prop :=
  addr.toNat % 4096 = 0 ∧ memLow.toNat ≤ addr.toNat ∧ addr.toNat < dataEnd.toNat + 8 * 4096

def MarksInside : Prop :=
  ∀ addr, addr ∈ (mmuSetup m map dataStart dataEnd).marks → pmmPage addr / bitsOf < memMapSize

def KernelMarked : Prop :=
  ∀ addr, SetupPage dataEnd addr → marked (mmuSetup m map dataStart dataEnd).memoryMap (pmmPage addr) = true ∧
    ∀ map', pmmGet (mmuSetup m map dataStart dataEnd).memoryMap ≠ some (addr, map')

-- Beside the recursive slot, what is translated is translated to the physical address itself.
def LinearMap : Prop :=
  ∀ p found, p.toNat < 2 ^ 48 → tableIdx (physToVirt p) 39 ≠ 511 →
    ((mmuSetup m map dataStart dataEnd).kernel dataEnd).translation (physToVirt p) = some found →
      physAddr (physToVirt p) found = p

variable {dataStart dataEnd} (setup : SetupFits dataStart dataEnd)

include setup

theorem mmuSetup_marked : KernelMarked m map dataStart dataEnd := by
  have fits := setup.fits
  have low := setup.low
  have order := setup.order
  have alignedStart := setup.alignedStart
  have alignedEnd := setup.alignedEnd
  have base : memLow.toNat = 524288 := by decide
  have size : pageSize.toNat = 4096 := by decide
  rintro addr ⟨aligned, above, below⟩
  have listed : addr ∈ setupMarks dataStart dataEnd := by
    simp only [setupMarks, List.mem_append, List.mem_map, List.mem_range]
    have at' (start : Word) (i : Nat) (value : addr.toNat = start.toNat + i * 4096) : pageAt start i = addr := by
      apply BitVec.eq_of_toNat_eq
      rw [pageAt_toNat]
      omega
    by_cases text : addr.toNat < dataStart.toNat
    · refine .inl (.inl (.inl (.inr ⟨(addr.toNat - 524288) / 4096, ?_, at' _ _ (by omega)⟩)))
      rw [setup.textPages, base, size]
      omega
    · by_cases data : addr.toNat < dataEnd.toNat
      · refine .inl (.inl (.inr ⟨(addr.toNat - dataStart.toNat) / 4096, ?_, at' _ _ (by omega)⟩))
        rw [setup.dataPages, size]
        omega
      · exact .inl (.inl (.inl (.inl ⟨(addr.toNat - dataEnd.toNat) / 4096, by omega, at' _ _ (by omega)⟩)))
  have set : marked (mmuSetup m map dataStart dataEnd).memoryMap (pmmPage addr) = true := by
    rw [(mmuSetup_adds m map dataStart dataEnd).memoryMap]
    exact (marked_foldl _ _ _).mpr (.inr ⟨addr, listed, rfl⟩)
  refine ⟨set, fun map' found => ?_⟩
  obtain ⟨n, inside, rfl, clear, -⟩ := pmmGet_some _ _ _ found
  rw [pmmPage_poolPage n inside, clear] at set
  cases set

/-- The recursive slot is there from the start. -/
theorem mmuSetup_recursive : tableNav ((mmuSetup m map dataStart dataEnd).mem (setupPage dataEnd 0) 511) =
    some (setupPage dataEnd 0) := by
  rw [(mmuSetup_rows setup m map).row0 511, if_neg (by decide), if_pos rfl]
  exact setup.link 0 (by decide)

theorem mmuSetup_linear : LinearMap m map dataStart dataEnd := by
  have rows := mmuSetup_rows setup m map
  have link := setup.link
  intro p found small notSlot here
  have start : memVaKernelStart.toNat = 0xffff000000000000 := by decide
  have value : (physToVirt p).toNat = p.toNat + 0xffff000000000000 := by
    rw [physToVirt, BitVec.toNat_add, start]
    omega
  have index (shift : Nat) := tableIdx_val (physToVirt p) shift
  generalize physToVirt p = va at notSlot here value index ⊢
  have path : mmuGetTableIdx va = [tableIdx va 39, tableIdx va 30, tableIdx va 21, tableIdx va 12] := rfl
  change walk (mmuSetup m map dataStart dataEnd).mem 0 (setupPage dataEnd 0) (mmuGetTableIdx va) = some found at here
  generalize (mmuSetup m map dataStart dataEnd).mem = tables at rows here
  rw [path] at here
  have entry0 := rows.row0 (tableIdx va 39)
  by_cases zero0 : tableIdx va 39 = 0
  case neg =>
    rw [if_neg zero0, if_neg notSlot] at entry0
    rw [walk_missing _ _ _ _ _ entry0] at here
    cases here
  rw [if_pos zero0] at entry0
  rw [walk_table _ 0 _ _ _ _ (by decide) ((congrArg tableNav entry0).trans (link 1 (by decide)))] at here
  have entry1 := rows.row1 (tableIdx va 30)
  by_cases zero1 : tableIdx va 30 = 0
  case neg =>
    rw [if_neg zero1] at entry1
    rw [walk_missing _ _ _ _ _ entry1] at here
    cases here
  rw [if_pos zero1] at entry1
  rw [walk_table _ 1 _ _ _ _ (by decide) ((congrArg tableNav entry1).trans (link 2 (by decide)))] at here
  have index0 := (index 39).symm.trans (congrArg Fin.val zero0)
  have index1 := (index 30).symm.trans (congrArg Fin.val zero1)
  have none : (0 : Idx).val = 0 := rfl
  rw [none] at index0 index1
  rcases rows.row2 (tableIdx va 21) with ⟨zero2, entry2⟩ | missing | block
  · rw [walk_table _ 2 _ _ _ _ (by decide) ((congrArg tableNav entry2).trans (link 3 (by decide)))] at here
    have index2 := (index 21).symm.trans (congrArg Fin.val zero2)
    rw [none] at index2
    rcases rows.row3 (tableIdx va 12) with missing | page
    · rw [walk_missing _ _ _ _ _ missing] at here
      cases here
    · obtain rfl : (3, tables (setupPage dataEnd 3) (tableIdx va 12)) = found := by
        simpa [walk, page.valid] using here
      have addr := page.addr
      rw [index] at addr
      apply BitVec.eq_of_toNat_eq
      rw [physAddr_toNat va _ 3 12 (by decide) (by rw [addr]; omega), addr]
      omega
  · rw [walk_missing _ _ _ _ _ missing] at here
    cases here
  · obtain rfl : (2, tables (setupPage dataEnd 2) (tableIdx va 21)) = found := by
      simpa [walk, block.valid, block.block] using here
    have addr := block.addr
    rw [index] at addr
    apply BitVec.eq_of_toNat_eq
    rw [physAddr_toNat va _ 2 21 (by decide) (by rw [addr]; omega), addr]
    omega

omit setup in
/-- The first address that the ramdisk's loop marks lies behind all words of the memory map. -/
theorem mmuSetup_outside : ¬ MarksInside m map dataStart dataEnd := by
  intro inside
  have marks := (mmuSetup_adds m map dataStart dataEnd).marks
  have listed : virtToPhys memRd + BitVec.ofNat 64 (0 * 0) ∈ blockMarks memRd :=
    List.mem_flatMap.mpr ⟨0, List.mem_range.mpr (by decide), List.mem_flatMap.mpr ⟨0, List.mem_range.mpr (by decide),
      List.mem_singleton_self _⟩⟩
  have fits := inside (virtToPhys memRd + BitVec.ofNat 64 (0 * 0)) (by
    rw [marks, setupMarks]
    simp only [List.mem_append]
    exact .inr (.inl (.inr listed)))
  exact absurd fits (by decide)

end Promises

/-- What the boot's tables and its memory map promise of each other. -/
structure BootAgrees (m : Mem) (map : MemoryMap) (dataStart dataEnd : Word) : Prop where
  inside : MarksInside m map dataStart dataEnd
  marked : KernelMarked m map dataStart dataEnd
  linear : LinearMap m map dataStart dataEnd

/-- No kernel is small enough for the marks to stay inside; the rest of the promise holds for all of them. -/
theorem mmuSetup_agrees (m : Mem) (map : MemoryMap) (dataStart dataEnd : Word) (setup : SetupFits dataStart dataEnd) :
    ¬ BootAgrees m map dataStart dataEnd ∧ KernelMarked m map dataStart dataEnd ∧ LinearMap m map dataStart dataEnd :=
  ⟨fun agrees => mmuSetup_outside m map agrees.inside, mmuSetup_marked m map setup, mmuSetup_linear m map setup⟩

theorem smallSetup : SetupFits 0x90000 0xa0000 :=
  ⟨by decide, by decide, by decide, by decide, by decide⟩

theorem mmuSetup_agrees_small : ¬ BootAgrees (fun _ _ => 0) (fun _ => 0) 0x90000 0xa0000 ∧
    KernelMarked (fun _ _ => 0) (fun _ => 0) 0x90000 0xa0000 ∧ LinearMap (fun _ _ => 0) (fun _ => 0) 0x90000 0xa0000 :=
  mmuSetup_agrees _ _ _ _ smallSetup

theorem ramdisk_marks_outside : ¬ ∀ (m : Mem) (map : MemoryMap) (dataStart dataEnd : Word),
    SetupFits dataStart dataEnd → BootAgrees m map dataStart dataEnd :=
  fun claim => mmuSetup_outside (fun _ _ => 0) (fun _ => 0) (claim _ _ _ _ smallSetup).inside

end Anthill
