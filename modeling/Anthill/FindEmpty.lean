import Anthill.FirstFit
import Anthill.KernelTree
import Anthill.Munmap
import Anthill.UnmapPage

set_option autoImplicit false

namespace Anthill

open FirstFit

-- What the hardware finds for an address in a process's table.
def userTranslation (m : Mem) (tranTable va : Word) : Option (Nat × Word) := walk m 0 tranTable (mmuGetTableIdx va)

-- The page with a number, as its address.
def pageNumber (n : Nat) : Word := BitVec.ofNat 64 (n * 4096)

/-- `cnt` pages from page `page` on lie below 2^48, and none of them is mapped. -/
structure FreeWindow (m : Mem) (tranTable : Word) (cnt page : Nat) : Prop where
  below : (page + cnt) * 4096 ≤ 2 ^ 48
  unmapped : ∀ p, p < cnt → userTranslation m tranTable (pageNumber (page + p)) = none

/-- mem_user_find_empty ends, and returns `result`. -/
def FindsEmpty (m : Mem) (tranTable : Word) (pageCnt : Nat) (addr result : Word) : Prop :=
  ∃ enough, ∀ fuel, enough ≤ fuel → memUserFindEmpty m tranTable pageCnt fuel addr = some result

-- Whether the n-th page from `addr` on is taken, as the search sees it.
def takenFrom (m : Mem) (tranTable addr : Word) (n : Nat) : Bool := pageBusy m tranTable (pageAt addr n)

/-- The top-level entries that are valid name tables; blocks are for levels 1 and 2. -/
def NoTopBlocks (m : Mem) (tranTable : Word) : Prop :=
  ∀ i, mmuIsValid (m tranTable i) = true → mmuIsBlock (m tranTable i) = false

theorem pageBusy_translation (m : Mem) (tranTable va : Word) (top : NoTopBlocks m tranTable) :
    pageBusy m tranTable va = (userTranslation m tranTable va).isSome := by
  unfold pageBusy userWalk userTranslation
  rw [mmuGetTableIdx_eq]
  simp only [walk]
  cases valid0 : mmuIsValid (m tranTable (tableIdx va 39)) with
  | false => rfl
  | true =>
    rw [top _ valid0]
    -- The two walks read the same entries, and decide by the same bits of them.
    generalize m (mmuGetVaddr (m tranTable (tableIdx va 39))) (tableIdx va 30) = entry1
    generalize m (mmuGetVaddr entry1) (tableIdx va 21) = entry2
    generalize m (mmuGetVaddr entry2) (leafIdx va) = entry3
    cases mmuIsValid entry1 <;> cases mmuIsBlock entry1 <;> cases mmuIsValid entry2 <;>
      cases mmuIsBlock entry2 <;> cases mmuIsValid entry3 <;> rfl

theorem pageAt_pageAt (addr : Word) (n p : Nat) : pageAt (pageAt addr n) p = pageAt addr (n + p) := by
  apply BitVec.eq_of_toNat_eq
  rw [pageAt_toNat, pageAt_toNat, pageAt_toNat]
  omega

theorem firstBusy_eq (m : Mem) (tranTable addr : Word) (place p count : Nat) :
    (firstBusy m tranTable (pageAt addr place) p count).map (place + ·) =
      firstTaken (takenFrom m tranTable addr) (place + p) count := by
  induction count generalizing p with
  | zero => rfl
  | succ count ih =>
    rw [firstBusy, firstTaken, pageAt_pageAt, takenFrom]
    split_ifs
    · rfl
    · exact ih (p + 1)

theorem memUserFindEmpty_search (m : Mem) (tranTable addr : Word) (pageCnt fuel place : Nat) :
    memUserFindEmpty m tranTable pageCnt fuel (pageAt addr place) =
      (search (takenFrom m tranTable addr) pageCnt fuel place).map (pageAt addr) := by
  induction fuel generalizing place with
  | zero => rfl
  | succ fuel ih =>
    have round := firstBusy_eq m tranTable addr place 0 pageCnt
    rw [memUserFindEmpty, search, ← Nat.add_zero place, ← round, Nat.add_zero]
    cases firstBusy m tranTable (pageAt addr place) 0 pageCnt with
    | none => rfl
    | some p =>
      simp only [Option.map_some]
      rw [pageAt_pageAt, ← Nat.add_assoc]
      exact ih _

/-- The search is first fit over the pages from `addr` on. -/
theorem findsEmpty_iff (m : Mem) (tranTable addr result : Word) (pageCnt : Nat) :
    FindsEmpty m tranTable pageCnt addr result ↔
      ∃ n, result = pageAt addr n ∧ Least (takenFrom m tranTable addr) pageCnt 0 n := by
  have run (fuel : Nat) := memUserFindEmpty_search m tranTable addr pageCnt fuel 0
  simp only [pageAt_zero] at run
  constructor
  · rintro ⟨enough, found⟩
    have first := found enough (Nat.le_refl _)
    rw [run, Option.map_eq_some_iff] at first
    obtain ⟨n, least, rfl⟩ := first
    exact ⟨n, rfl, search_least _ _ _ _ _ least⟩
  · rintro ⟨n, rfl, least⟩
    obtain ⟨enough, found⟩ := (search_iff _ _ _ _).mpr least
    refine ⟨enough, fun fuel more => ?_⟩
    rw [run, found fuel more]
    rfl

-- The indices of an address are those of its page in each range of 2^48 bytes.
theorem mmuGetTableIdx_number (u v : Word) (same : u.toNat / 4096 % 2 ^ 36 = v.toNat / 4096 % 2 ^ 36) :
    mmuGetTableIdx u = mmuGetTableIdx v := by
  have equal (shift : Nat) (level : shift = 39 ∨ shift = 30 ∨ shift = 21 ∨ shift = 12) :
      tableIdx u shift = tableIdx v shift := by
    apply Fin.ext
    rw [tableIdx_val, tableIdx_val]
    rcases level with rfl | rfl | rfl | rfl <;> omega
  rw [mmuGetTableIdx_eq, mmuGetTableIdx_eq, leafIdx, leafIdx, equal 39 (by decide), equal 30 (by decide),
    equal 21 (by decide), equal 12 (by decide)]

theorem mmuGetTableIdx_pageAt (addr : Word) (n : Nat) :
    mmuGetTableIdx (pageAt addr n) = mmuGetTableIdx (pageNumber (addr.toNat / 4096 + n)) := by
  apply mmuGetTableIdx_number
  rw [pageAt_toNat, pageNumber, BitVec.toNat_ofNat]
  omega

-- The first place with enough free pages is found, be it the one that is known or one before it.
theorem findsEmpty_least (m : Mem) (tranTable start : Word) (pageCnt later : Nat)
    (room : Room (takenFrom m tranTable start) pageCnt later) : ∃ k, k ≤ later ∧
      FindsEmpty m tranTable pageCnt start (BitVec.ofNat 64 (start.toNat + k * 4096)) ∧
      Least (takenFrom m tranTable start) pageCnt 0 k := by
  obtain ⟨k, before, least⟩ := exists_least _ pageCnt 0 later (Nat.zero_le _) room
  refine ⟨k, before, (findsEmpty_iff m tranTable start _ pageCnt).mpr ⟨k, ?_, least⟩, least⟩
  apply BitVec.eq_of_toNat_eq
  rw [pageAt_toNat, BitVec.toNat_ofNat]

section Search

variable (m : Mem) (tranTable start : Word) (top : NoTopBlocks m tranTable)

include top

theorem takenFrom_page (n : Nat) :
    takenFrom m tranTable start n = (userTranslation m tranTable (pageNumber (start.toNat / 4096 + n))).isSome := by
  rw [takenFrom, pageBusy_translation m tranTable _ top, userTranslation, userTranslation, mmuGetTableIdx_pageAt]

-- The windows are the places with enough free pages that end below 2^48.
theorem freeWindow_iff (pageCnt k : Nat) : FreeWindow m tranTable pageCnt (start.toNat / 4096 + k) ↔
    Room (takenFrom m tranTable start) pageCnt k ∧ (start.toNat / 4096 + k + pageCnt) * 4096 ≤ 2 ^ 48 := by
  have page (p : Nat) : takenFrom m tranTable start (k + p) = false ↔
      userTranslation m tranTable (pageNumber (start.toNat / 4096 + k + p)) = none := by
    rw [takenFrom_page m tranTable start top, ← Nat.add_assoc, Option.isSome_eq_false_iff, Option.isNone_iff_eq_none]
  constructor
  · intro window
    exact ⟨fun p less => (page p).mpr (window.unmapped p less), window.below⟩
  · rintro ⟨room, below⟩
    exact ⟨below, fun p less => (page p).mp (room p less)⟩

/-- mem_user_find_empty returns the first window from `start` on, whatever is mapped before it. -/
theorem memUserFindEmpty_firstFit (pageCnt : Nat)
    (some_window : ∃ k, FreeWindow m tranTable pageCnt (start.toNat / 4096 + k)) :
    ∃ k, FindsEmpty m tranTable pageCnt start (BitVec.ofNat 64 (start.toNat + k * 4096)) ∧
      FreeWindow m tranTable pageCnt (start.toNat / 4096 + k) ∧
      ∀ j, j < k → ¬ FreeWindow m tranTable pageCnt (start.toNat / 4096 + j) := by
  obtain ⟨later, window⟩ := some_window
  obtain ⟨room, below⟩ := (freeWindow_iff m tranTable start top pageCnt later).mp window
  obtain ⟨k, before, found, least⟩ := findsEmpty_least m tranTable start pageCnt later room
  refine ⟨k, found, ?_, fun j less earlier => ?_⟩
  · refine (freeWindow_iff m tranTable start top pageCnt k).mpr ⟨least.fits, le_trans ?_ below⟩
    exact Nat.mul_le_mul_right 4096 (by omega)
  · exact least.first j (Nat.zero_le j) less ((freeWindow_iff m tranTable start top pageCnt j).mp earlier).1

-- A request of 2^36 pages comes round to every page, so one mapped page keeps the search going.
theorem findsEmpty_never (pageCnt : Nat) (huge : 2 ^ 36 ≤ pageCnt) (va : Word)
    (mapped : userTranslation m tranTable va ≠ none) (result : Word) :
    ¬ FindsEmpty m tranTable pageCnt start result := by
  intro found
  obtain ⟨n, -, least⟩ := (findsEmpty_iff m tranTable start result pageCnt).mp found
  obtain ⟨p, less, here⟩ : ∃ p, p < 2 ^ 36 ∧
      (start.toNat / 4096 + (n + p)) % 2 ^ 36 = va.toNat / 4096 % 2 ^ 36 :=
    ⟨(va.toNat / 4096 + 2 ^ 36 - (start.toNat / 4096 + n) % 2 ^ 36) % 2 ^ 36, by omega, by omega⟩
  have free := least.fits p (by omega)
  rw [takenFrom_page m tranTable start top, Option.isSome_eq_false_iff, Option.isNone_iff_eq_none] at free
  refine mapped ?_
  rw [← free, userTranslation, userTranslation]
  congr 1
  apply mmuGetTableIdx_number
  rw [pageNumber, BitVec.toNat_ofNat]
  omega

end Search

theorem onePage_top : NoTopBlocks (machine (onePage 0) []).mem (poolVa 4) := by
  unfold NoTopBlocks
  decide +kernel

theorem firstFit_onePage : ∃ k,
    FindsEmpty (machine (onePage 0) []).mem (poolVa 4) 2 0x1ff000 (BitVec.ofNat 64 ((0x1ff000 : Word).toNat + k * 4096)) ∧
      FreeWindow (machine (onePage 0) []).mem (poolVa 4) 2 ((0x1ff000 : Word).toNat / 4096 + k) ∧
      ∀ j, j < k → ¬ FreeWindow (machine (onePage 0) []).mem (poolVa 4) 2 ((0x1ff000 : Word).toNat / 4096 + j) :=
  memUserFindEmpty_firstFit _ _ _ onePage_top 2 ⟨2, by decide, by decide +kernel⟩

/-- mem_user_find_empty ends, and returns NULL where no window at or above `start` is free. -/
def EndsOrNull (m : Mem) (tranTable : Word) (pageCnt : Nat) (start : Word) : Prop :=
  (∃ result, FindsEmpty m tranTable pageCnt start result) ∧
    ((¬ ∃ k, FreeWindow m tranTable pageCnt (start.toNat / 4096 + k)) → FindsEmpty m tranTable pageCnt start 0)

/-- The pages that follow `start`, counted on through 2^64, have their first free run at address 0. -/
def FirstAtNull (m : Mem) (tranTable : Word) (pageCnt : Nat) (start : Word) : Prop :=
  ∃ n, pageAt start n = 0 ∧ Room (takenFrom m tranTable start) pageCnt n ∧
    ∀ j, j < n → ¬ Room (takenFrom m tranTable start) pageCnt j

theorem memUserFindEmpty_ends (m : Mem) (tranTable start : Word) (top : NoTopBlocks m tranTable) (pageCnt : Nat) :
    EndsOrNull m tranTable pageCnt start ↔
      (∃ k, FreeWindow m tranTable pageCnt (start.toNat / 4096 + k)) ∨ FirstAtNull m tranTable pageCnt start := by
  constructor
  · rintro ⟨-, null⟩
    by_cases room : ∃ k, FreeWindow m tranTable pageCnt (start.toNat / 4096 + k)
    · exact .inl room
    · obtain ⟨n, zero, least⟩ := (findsEmpty_iff m tranTable start 0 pageCnt).mp (null room)
      exact .inr ⟨n, zero.symm, least.fits, fun j => least.first j (Nat.zero_le j)⟩
  · rintro (⟨later, window⟩ | ⟨n, zero, fits, first⟩)
    · have room := ((freeWindow_iff m tranTable start top pageCnt later).mp window).1
      obtain ⟨k, -, found, -⟩ := findsEmpty_least m tranTable start pageCnt later room
      exact ⟨⟨_, found⟩, fun full => absurd ⟨later, window⟩ full⟩
    · have null : FindsEmpty m tranTable pageCnt start 0 := (findsEmpty_iff m tranTable start 0 pageCnt).mpr
        ⟨n, zero.symm, Nat.zero_le n, fits, fun j _ => first j⟩
      exact ⟨⟨0, null⟩, fun _ => null⟩

theorem ends_onePage : EndsOrNull (machine (onePage 0) []).mem (poolVa 4) 2 0x1ff000 ↔
    (∃ k, FreeWindow (machine (onePage 0) []).mem (poolVa 4) 2 ((0x1ff000 : Word).toNat / 4096 + k)) ∨
      FirstAtNull (machine (onePage 0) []).mem (poolVa 4) 2 0x1ff000 :=
  memUserFindEmpty_ends _ _ _ onePage_top 2

-- The page at 0x200000 keeps a request for 2^48 bytes searching, and above 2^48 the search comes round.
theorem findEmpty_no_room :
    ¬ (∃ result, FindsEmpty (machine (onePage 0) []).mem (poolVa 4) (memSizeToPages (1 <<< 48)).toNat 0 result) ∧
      (¬ ∃ k, FreeWindow (machine (onePage 0) []).mem (poolVa 4) 1 ((1 <<< 48 : Word).toNat / 4096 + k)) ∧
      FindsEmpty (machine (onePage 0) []).mem (poolVa 4) 1 (1 <<< 48) (1 <<< 48) := by
  refine ⟨fun ⟨result, found⟩ => ?_, fun ⟨k, window⟩ => ?_, 1, fun fuel enough => ?_⟩
  · exact findsEmpty_never _ _ 0 onePage_top _ (by decide) 0x200000 (by decide +kernel) result found
  · have below := window.below
    have high : (1 <<< 48 : Word).toNat = 2 ^ 48 := by decide
    rw [high] at below
    omega
  · obtain ⟨fuel, rfl⟩ : ∃ f, fuel = f + 1 := ⟨fuel - 1, by omega⟩
    have free : firstBusy (machine (onePage 0) []).mem (poolVa 4) (1 <<< 48) 0 1 = none := by decide +kernel
    rw [memUserFindEmpty, free]

end Anthill
