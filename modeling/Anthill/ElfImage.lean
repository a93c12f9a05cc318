import Anthill.FindEmpty
import Anthill.LeafEntries
import Anthill.Munmap

set_option autoImplicit false

namespace Anthill

open Radix

-- The page of a user table that an address names: no walk looks at its top 16 bits.
def userPage (v : Word) : Nat := v.toNat / 4096 % 2 ^ 36

-- What a process reads at an address.
def userByte (k : Kernel) (t a : Word) : Option (BitVec 8) := byteAt k t a (a.toNat % 4096)

namespace Elf64Phdr

variable (phdr : Elf64Phdr)

-- The addresses whose bytes come from the segment's part of the file.
def Fills (a : Word) : Prop := phdr.pVaddr ≤ a ∧ a < phdr.vaddrEnd

-- The pages from the one that holds p_vaddr to the one that holds p_vaddr + p_filesz - 1.
def Occupies (page : Nat) : Prop :=
  phdr.pVaddr.toNat / 4096 ≤ page ∧ page ≤ (phdr.pVaddr.toNat + phdr.pFilesz.toNat - 1) / 4096

-- How many rounds the loop over the segment's pages makes from `vaddr` on.
def rounds (vaddr : Word) : Nat := (phdr.vaddrEnd.toNat - vaddr.toNat + 4095) / 4096

-- The copy for the page at `vaddr` stays in the page.
def CopyFits (vaddr : Word) : Prop := phdr.pageOffset vaddr + phdr.dataSize vaddr ≤ 4096

def newPage (file : ElfFile) (perm : MemPerm) (vaddr : Word) : NewPage :=
  ⟨vaddr, perm, phdr.pageOffset vaddr, phdr.fileBytes file vaddr⟩

def newPages (file : ElfFile) : List NewPage :=
  match elfPerm phdr.pFlags with
  | none => []
  | some perm => (List.range (phdr.rounds (alignDown phdr.pVaddr))).map fun j =>
      phdr.newPage file perm (pageAt (alignDown phdr.pVaddr) j)

/-- The segment is one that the loops get through. -/
structure Accepted (fuel : Nat) : Prop where
  known : (elfPerm phdr.pFlags).isSome
  ends : phdr.vaddrEnd.toNat ≤ 2 ^ 64 - 4096
  enough : phdr.rounds (alignDown phdr.pVaddr) < fuel
  fits : ∀ j, j < phdr.rounds (alignDown phdr.pVaddr) → phdr.CopyFits (pageAt (alignDown phdr.pVaddr) j)

end Elf64Phdr

namespace ElfFile

variable (file : ElfFile)

def Loads (i : Nat) : Prop := i < file.ePhnum.toNat ∧ (file.phdr i).pType = ptLoad

def phdrNewPages (i : Nat) : List NewPage :=
  if (file.phdr i).pType = ptLoad then (file.phdr i).newPages file else []

-- Every page of the image: the stack first, then those of the segments.
def image : List NewPage :=
  .anonymous file.stackAddr .rw :: (List.range file.ePhnum.toNat).flatMap file.phdrNewPages

end ElfFile

theorem userPage_eq (u v : Word) : mmuGetTableIdx u = mmuGetTableIdx v ↔ userPage u = userPage v := by
  refine ⟨fun same => ?_, mmuGetTableIdx_number u v⟩
  simp only [mmuGetTableIdx_eq, List.cons.injEq, and_true, leafIdx, Fin.ext_iff, tableIdx_val] at same
  unfold userPage
  omega

theorem userPage_alignDown (a : Word) : userPage (alignDown a) = userPage a := by
  rw [userPage, userPage, alignDown_toNat]
  omega

theorem pageOffset_eq (x : Word) : (x &&& (pageSize - 1)).toNat = x.toNat % 4096 := by
  rw [BitVec.toNat_and]
  exact Nat.and_two_pow_sub_one_eq_mod x.toNat 12

section Segment

variable (file : ElfFile) (phdr : Elf64Phdr) (perm : MemPerm)

theorem rounds_zero (v : Word) : phdr.rounds v = 0 ↔ ¬ v < phdr.vaddrEnd := by
  rw [Elf64Phdr.rounds, BitVec.lt_def]
  omega

theorem aligned_next (v : Word) (aligned : v.toNat % 4096 = 0) (more : v < phdr.vaddrEnd)
    (ends : phdr.vaddrEnd.toNat ≤ 2 ^ 64 - 4096) : (v + pageSize).toNat = v.toNat + 4096 := by
  rw [BitVec.lt_def] at more
  have size : pageSize.toNat = 4096 := rfl
  rw [BitVec.toNat_add, size]
  omega

theorem rounds_succ (v : Word) (aligned : v.toNat % 4096 = 0) (more : v < phdr.vaddrEnd)
    (ends : phdr.vaddrEnd.toNat ≤ 2 ^ 64 - 4096) : phdr.rounds v = phdr.rounds (v + pageSize) + 1 := by
  rw [Elf64Phdr.rounds, Elf64Phdr.rounds, aligned_next phdr v aligned more ends]
  rw [BitVec.lt_def] at more
  omega

-- Where the last page of the address space is among the segment's, the loop goes round it without an end.
theorem segmentPages_ends (fuel : Nat) : ∀ v pages, v.toNat % 4096 = 0 →
    segmentPages file phdr perm fuel v = some pages → phdr.vaddrEnd.toNat ≤ 2 ^ 64 - 4096 := by
  induction fuel with
  | zero =>
    intro v pages _ listed
    cases listed
  | succ fuel ih =>
    intro v pages aligned listed
    by_contra last
    have more : v < phdr.vaddrEnd := by
      rw [BitVec.lt_def]
      omega
    rw [segmentPages, if_pos more] at listed
    split_ifs at listed
    obtain ⟨rest, next, _⟩ := Option.map_eq_some_iff.mp listed
    refine last (ih (v + pageSize) rest ?_ next)
    have size : pageSize.toNat = 4096 := rfl
    rw [BitVec.toNat_add, size]
    omega

theorem pageAt_succ (v : Word) (j : Nat) : pageAt v (j + 1) = pageAt (v + pageSize) j := by
  have one : v + pageSize = pageAt v 1 := by simp [pageAt]
  rw [one, pageAt_pageAt, Nat.add_comm]

theorem segmentPages_iff (ends : phdr.vaddrEnd.toNat ≤ 2 ^ 64 - 4096) (fuel : Nat) :
    ∀ v pages, v.toNat % 4096 = 0 → (segmentPages file phdr perm fuel v = some pages ↔
      (phdr.rounds v < fuel ∧ (∀ j, j < phdr.rounds v → phdr.CopyFits (pageAt v j))) ∧
        pages = (List.range (phdr.rounds v)).map fun j => phdr.newPage file perm (pageAt v j)) := by
  induction fuel with
  | zero =>
    intro v pages _
    simp [segmentPages]
  | succ fuel ih =>
    intro v pages aligned
    rw [segmentPages]
    by_cases more : v < phdr.vaddrEnd
    · have next := aligned_next phdr v aligned more ends
      rw [if_pos more, rounds_succ phdr v aligned more ends, List.range_succ_eq_map, List.map_cons, List.map_map]
      rw [Nat.forall_lt_succ_left]
      simp only [Function.comp_def, pageAt_succ, pageAt_zero, Nat.add_lt_add_iff_right]
      by_cases fits : phdr.pageOffset v + phdr.dataSize v ≤ pageSize.toNat
      · have here : phdr.CopyFits v := fits
        rw [if_pos fits, Option.map_eq_some_iff]
        simp only [here, true_and]
        constructor
        · rintro ⟨rest, listed, rfl⟩
          obtain ⟨good, rfl⟩ := (ih (v + pageSize) rest (by rw [next]; omega)).mp listed
          exact ⟨good, rfl⟩
        · rintro ⟨good, rfl⟩
          exact ⟨_, (ih (v + pageSize) _ (by rw [next]; omega)).mpr ⟨good, rfl⟩, rfl⟩
      · have here : ¬ phdr.CopyFits v := fits
        simp [fits, here]
    · rw [if_neg more, (rounds_zero phdr v).mpr more]
      simp [eq_comm]

end Segment

theorem forall_from_succ (P : Nat → Prop) (i count : Nat) : (∀ j, i ≤ j → j < i + (count + 1) → P j) ↔
    P i ∧ ∀ j, i + 1 ≤ j → j < i + 1 + count → P j := by
  constructor
  · exact fun all => ⟨all i le_rfl (by omega), fun j low high => all j (by omega) (by omega)⟩
  · rintro ⟨here, rest⟩ j low high
    rcases Nat.eq_or_lt_of_le low with rfl | later
    · exact here
    · exact rest j later (by omega)

theorem phdrPages_iff (fuel : Nat) (file : ElfFile) (count : Nat) : ∀ i pages,
    phdrPages fuel file i count = some pages ↔
      (∀ j, i ≤ j → j < i + count → (file.phdr j).pType = ptLoad → (file.phdr j).Accepted fuel) ∧
        pages = (List.range' i count).flatMap file.phdrNewPages := by
  induction count with
  | zero =>
    intro i pages
    simp only [phdrPages, Option.some.injEq, List.range'_zero, List.flatMap_nil, eq_comm]
    exact (and_iff_right fun j low high => absurd high (by omega)).symm
  | succ count ih =>
    intro i pages
    rw [forall_from_succ, phdrPages, List.range'_succ, List.flatMap_cons, ElfFile.phdrNewPages]
    by_cases skip : (file.phdr i).pType = ptLoad
    · rw [if_neg (not_not.mpr skip), if_pos skip]
      have base : (alignDown (file.phdr i).pVaddr).toNat % 4096 = 0 := by
        rw [alignDown_toNat]
        omega
      cases known : elfPerm (file.phdr i).pFlags with
      | none =>
        simp only [reduceCtorEq, false_iff]
        rintro ⟨⟨accepted, _⟩, _⟩
        have some := (accepted skip).known
        rw [known] at some
        cases some
      | some perm =>
        have listed := segmentPages_iff file (file.phdr i) perm
        have all : (file.phdr i).newPages file = (List.range ((file.phdr i).rounds (alignDown (file.phdr i).pVaddr))).map
            fun j => (file.phdr i).newPage file perm (pageAt (alignDown (file.phdr i).pVaddr) j) := by
          rw [Elf64Phdr.newPages, known]
        simp only [Option.bind_eq_some_iff, Option.map_eq_some_iff, ih]
        constructor
        · rintro ⟨own, there, _, ⟨later, rfl⟩, rfl⟩
          have ends := segmentPages_ends file _ perm fuel _ own base there
          obtain ⟨⟨enough, fits⟩, rfl⟩ := (listed ends fuel _ own base).mp there
          exact ⟨⟨fun _ => ⟨by rw [known]; rfl, ends, enough, fits⟩, later⟩, by rw [all]⟩
        · rintro ⟨⟨accepted, later⟩, rfl⟩
          obtain ⟨_, ends, enough, fits⟩ := accepted skip
          exact ⟨_, (listed ends fuel _ _ base).mpr ⟨⟨enough, fits⟩, rfl⟩, _, ⟨later, rfl⟩, by rw [all]⟩
    · rw [if_pos skip, if_neg skip, List.nil_append, ih]
      simp only [skip, false_implies, true_and]

-- Which pages an image has, where the file is not refused.
theorem imagePages_iff (fuel : Nat) (file : ElfFile) (pages : List NewPage) : imagePages fuel file = some pages ↔
    (∀ i, file.Loads i → (file.phdr i).Accepted fuel) ∧ pages = file.image := by
  rw [imagePages, Option.map_eq_some_iff, ElfFile.image, List.range_eq_range']
  simp only [phdrPages_iff]
  constructor
  · rintro ⟨_, ⟨accepted, rfl⟩, rfl⟩
    exact ⟨fun i loads => accepted i (Nat.zero_le i) (by have := loads.1; omega) loads.2, rfl⟩
  · rintro ⟨accepted, rfl⟩
    exact ⟨_, ⟨fun i _ inside load => accepted i ⟨by omega, load⟩, rfl⟩, rfl⟩

/-- A page of the segment, with some of its addresses. -/
structure Elf64Phdr.Page (phdr : Elf64Phdr) (v : Word) : Prop where
  aligned : v.toNat % 4096 = 0
  starts : phdr.pVaddr.toNat < v.toNat + 4096
  more : v.toNat < phdr.vaddrEnd.toNat

theorem dataStart_toNat (phdr : Elf64Phdr) (v : Word) : (phdr.dataStart v).toNat = max v.toNat phdr.pVaddr.toNat := by
  rw [Elf64Phdr.dataStart]
  split_ifs with before <;> rw [BitVec.lt_def] at before <;> omega

section Page

variable {phdr : Elf64Phdr} (ends : phdr.vaddrEnd.toNat ≤ 2 ^ 64 - 4096)

include ends

theorem pageAt_rounds (j : Nat) (inside : j < phdr.rounds (alignDown phdr.pVaddr)) :
    (pageAt (alignDown phdr.pVaddr) j).toNat = (alignDown phdr.pVaddr).toNat + j * 4096 ∧
      (alignDown phdr.pVaddr).toNat + j * 4096 < phdr.vaddrEnd.toNat := by
  rw [Elf64Phdr.rounds] at inside
  rw [pageAt_toNat]
  omega

theorem page_iff (v : Word) :
    phdr.Page v ↔ ∃ j, j < phdr.rounds (alignDown phdr.pVaddr) ∧ v = pageAt (alignDown phdr.pVaddr) j := by
  have base := alignDown_toNat phdr.pVaddr
  constructor
  · rintro ⟨aligned, starts, more⟩
    refine ⟨(v.toNat - (alignDown phdr.pVaddr).toNat) / 4096, ?_, ?_⟩
    · rw [Elf64Phdr.rounds]
      omega
    · apply BitVec.eq_of_toNat_eq
      rw [pageAt_toNat]
      omega
  · rintro ⟨j, inside, rfl⟩
    obtain ⟨here, before⟩ := pageAt_rounds ends j inside
    constructor <;> omega

variable {v : Word} (page : phdr.Page v)

include page

omit ends in
theorem pageOffset_toNat : v.toNat + phdr.pageOffset v = max v.toNat phdr.pVaddr.toNat := by
  have start := dataStart_toNat phdr v
  obtain ⟨aligned, starts, _⟩ := page
  rw [Elf64Phdr.pageOffset, pageOffset_eq, start]
  omega

/-- A copy that stays in its page starts where the segment does, or with the page, and ends likewise. -/
theorem dataSize_toNat (fits : phdr.CopyFits v) : max v.toNat phdr.pVaddr.toNat + phdr.dataSize v =
    min (v.toNat + 4096) phdr.vaddrEnd.toNat := by
  have start := dataStart_toNat phdr v
  have offset := pageOffset_toNat page
  have next := aligned_next phdr v page.aligned (BitVec.lt_def.mpr page.more) ends
  obtain ⟨aligned, starts, more⟩ := page
  have last : (if v + pageSize < phdr.vaddrEnd then v + pageSize else phdr.vaddrEnd).toNat =
      min (v.toNat + 4096) phdr.vaddrEnd.toNat := by
    split_ifs with before <;> rw [BitVec.lt_def] at before <;> omega
  have size : phdr.dataSize v = (2 ^ 64 - max v.toNat phdr.pVaddr.toNat + min (v.toNat + 4096) phdr.vaddrEnd.toNat) %
      2 ^ 64 := by
    rw [Elf64Phdr.dataSize, BitVec.toNat_sub, start, last]
  rw [Elf64Phdr.CopyFits] at fits
  omega

theorem fills_iff (fits : phdr.CopyFits v) (a : Word) (low : v.toNat ≤ a.toNat) (high : a.toNat < v.toNat + 4096) :
    phdr.Fills a ↔ phdr.pageOffset v ≤ a.toNat - v.toNat ∧
      a.toNat - v.toNat < phdr.pageOffset v + phdr.dataSize v := by
  have offset := pageOffset_toNat page
  have size := dataSize_toNat ends page fits
  rw [Elf64Phdr.Fills, BitVec.le_def, BitVec.lt_def]
  omega

/-- The file gives the process the bytes at the addresses that the segment fills, and no others. -/
theorem newPage_byte (file : ElfFile) (fits : phdr.CopyFits v) (row : Idx → Word) (a : Word) (low : v.toNat ≤ a.toNat)
    (high : a.toNat < v.toNat + 4096) :
    (phdr.Fills a →
      pageByte (copyBytes row (phdr.pageOffset v) (phdr.fileBytes file v)) (a.toNat - v.toNat) =
        file (phdr.pOffset + (a - phdr.pVaddr))) ∧
    (¬ phdr.Fills a → ∀ perm, (phdr.newPage file perm v).Rest (a.toNat - v.toNat)) := by
  have offset := pageOffset_toNat page
  have start := dataStart_toNat phdr v
  have length : (phdr.fileBytes file v).length = phdr.dataSize v := by
    simp [Elf64Phdr.fileBytes, ElfFile.bytes]
  rw [fills_iff ends page fits a low high]
  constructor
  · rintro ⟨after, before⟩
    have inside : a.toNat - v.toNat - phdr.pageOffset v < phdr.dataSize v := by omega
    have place : a = phdr.dataStart v + BitVec.ofNat 64 (a.toNat - v.toNat - phdr.pageOffset v) := by
      apply BitVec.eq_of_toNat_eq
      rw [BitVec.toNat_add, BitVec.toNat_ofNat, start]
      have small := a.isLt
      omega
    have source : phdr.pOffset + (a - phdr.pVaddr) = phdr.pOffset + phdr.dataStart v - phdr.pVaddr +
        BitVec.ofNat 64 (a.toNat - v.toNat - phdr.pageOffset v) := by
      conv_lhs => rw [place]
      ring
    rw [pageByte_copyBytes _ _ _ _ (by omega), if_pos after, List.getD_eq_getElem?_getD, Elf64Phdr.fileBytes,
      ElfFile.bytes, List.getElem?_map, List.getElem?_range inside, Option.map_some, Option.getD_some, source]
  · rintro outside perm
    refine ⟨?_, fun both => outside ?_⟩
    · have size : pageSize.toNat = 4096 := rfl
      omega
    · rw [← length]
      exact both

end Page

theorem elfCreateProcImage_iff (fuel : Nat) (file : ElfFile) (k k₁ : Kernel) (t addr : Word) :
    elfCreateProcImage fuel file k t = some (.ok (⟨addr, .ok⟩, k₁)) ↔ addr = file.stackAddr ∧
      (∀ i, file.Loads i → (file.phdr i).Accepted fuel) ∧ placePages t k file.image = some k₁ := by
  rw [elfCreateProcImage_places]
  simp only [imagePages_iff]
  constructor
  · rintro ⟨here, _, ⟨accepted, rfl⟩, placed⟩
    exact ⟨here, accepted, placed⟩
  · rintro ⟨here, accepted, placed⟩
    exact ⟨here, _, ⟨accepted, rfl⟩, placed⟩

theorem mem_image (fuel : Nat) (file : ElfFile) (accepted : ∀ i, file.Loads i → (file.phdr i).Accepted fuel)
    (page : NewPage) : page ∈ file.image ↔ page = .anonymous file.stackAddr .rw ∨ ∃ i perm v, file.Loads i ∧
      elfPerm (file.phdr i).pFlags = some perm ∧ (file.phdr i).Page v ∧ page = (file.phdr i).newPage file perm v := by
  rw [ElfFile.image, List.mem_cons, List.mem_flatMap]
  refine or_congr_right ⟨?_, ?_⟩
  · rintro ⟨i, inside, listed⟩
    rw [ElfFile.phdrNewPages] at listed
    split_ifs at listed with load
    · have loads : file.Loads i := ⟨List.mem_range.mp inside, load⟩
      obtain ⟨perm, known⟩ := Option.isSome_iff_exists.mp (accepted i loads).known
      simp only [Elf64Phdr.newPages, known, List.mem_map, List.mem_range] at listed
      obtain ⟨j, before, rfl⟩ := listed
      exact ⟨i, perm, _, loads, known, (page_iff (accepted i loads).ends _).mpr ⟨j, before, rfl⟩, rfl⟩
    · cases listed
  · rintro ⟨i, perm, v, loads, known, here, rfl⟩
    obtain ⟨j, before, rfl⟩ := (page_iff (accepted i loads).ends v).mp here
    refine ⟨i, List.mem_range.mpr loads.1, ?_⟩
    rw [ElfFile.phdrNewPages, if_pos loads.2]
    simp only [Elf64Phdr.newPages, known, List.mem_map, List.mem_range]
    exact ⟨j, before, rfl⟩

theorem byteAt_congr (k : Kernel) (t u v : Word) (b : Nat) (same : userPage u = userPage v) :
    byteAt k t u b = byteAt k t v b := by
  rw [byteAt, byteAt, (userPage_eq u v).mpr same]

-- What a process reads in a page of the list: the file's bytes over what the pool page held.
theorem placePages_bytes {k k₁ : Kernel} {pos : Pos} {t : Word} {pages : List NewPage} (process : Process k pos t)
    (placed : placePages t k pages = some k₁) (page : NewPage) (listed : page ∈ pages) : ∃ va, ∀ b,
      byteAt k₁ t page.vaddr b = some (pageByte (copyBytes (k.mem va) page.start page.bytes) b) := by
  obtain ⟨_, _, _, runs⟩ := process.placed (fun _ none => none.elim) (.refl (fun _ => False) k) pages k₁ placed
  obtain ⟨i, there⟩ := List.getElem?_of_mem listed
  obtain ⟨sees, _, _, _, row, _⟩ := runs.placed i page there
  rw [Sees] at sees
  exact ⟨_, fun b => by rw [byteAt, sees, Option.map_some, row]⟩

theorem Process.empty_entries {k : Kernel} {pos : Pos} {t : Word} (process : Process k pos t)
    (empty : ∀ i, mmuIsValid (k.mem t i) = false) (u : Word) : userEntry k.mem t u = 0 := by
  rw [← process.lacks_entry, mmuGetTableIdx_eq, node_cons, nav_of_invalid _ (empty _)]
  rfl

end Anthill
