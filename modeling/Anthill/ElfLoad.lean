import Anthill.ElfImage

set_option autoImplicit false

namespace Anthill

open Radix

/-- Program headers whose segments have bytes in the file, known flags, and pages of their own below 2^48. -/
structure ElfFile.WellFormed (file : ElfFile) : Prop where
  some : ∀ i, file.Loads i → 1 ≤ (file.phdr i).pFilesz.toNat
  flags : ∀ i, file.Loads i → (elfPerm (file.phdr i).pFlags).isSome
  below : ∀ i, file.Loads i → (file.phdr i).pVaddr.toNat + (file.phdr i).pFilesz.toNat ≤ 2 ^ 48
  apart : ∀ i j, file.Loads i → file.Loads j → i ≠ j → ∀ page, (file.phdr i).Occupies page →
    ¬ (file.phdr j).Occupies page
  stack : ∀ i, file.Loads i → ¬ (file.phdr i).Occupies (userPage file.stackAddr)

/-- The process has the segments of the file at their addresses, with their permissions, and its stack. -/
structure ImageLoaded (file : ElfFile) (k : Kernel) (t : Word) : Prop where
  bytes : ∀ i, file.Loads i → ∀ n : Word, n < (file.phdr i).pFilesz →
    userByte k t ((file.phdr i).pVaddr + n) = some (file ((file.phdr i).pOffset + n))
  perms : ∀ i, file.Loads i → ∀ perm, elfPerm (file.phdr i).pFlags = some perm → ∀ u,
    (file.phdr i).Occupies (userPage u) → userAttr perm = some (userEntry k.mem t u &&& leafPermMask)
  mapped : ∀ u, pageBusy k.mem t u = true ↔
    userPage u = userPage file.stackAddr ∨ ∃ i, file.Loads i ∧ (file.phdr i).Occupies (userPage u)

section WellFormed

variable {file : ElfFile} (wellFormed : file.WellFormed)

include wellFormed

theorem vaddrEnd_toNat (i : Nat) (loads : file.Loads i) :
    (file.phdr i).vaddrEnd.toNat = (file.phdr i).pVaddr.toNat + (file.phdr i).pFilesz.toNat := by
  have below := wellFormed.below i loads
  rw [Elf64Phdr.vaddrEnd, BitVec.toNat_add]
  omega

theorem occupies_iff (i : Nat) (loads : file.Loads i) (page : Nat) :
    (file.phdr i).Occupies page ↔ ∃ v, (file.phdr i).Page v ∧ userPage v = page := by
  have below := wellFormed.below i loads
  have some := wellFormed.some i loads
  have last := vaddrEnd_toNat wellFormed i loads
  constructor
  · rintro ⟨low, high⟩
    have small : page * 4096 < 2 ^ 64 := by omega
    have value : (pageNumber page).toNat = page * 4096 := by
      rw [pageNumber, BitVec.toNat_ofNat, Nat.mod_eq_of_lt small]
    refine ⟨pageNumber page, ⟨?_, ?_, ?_⟩, ?_⟩
    · omega
    · omega
    · omega
    · rw [userPage, value]
      omega
  · rintro ⟨v, ⟨aligned, starts, more⟩, rfl⟩
    rw [Elf64Phdr.Occupies, userPage]
    omega

theorem wellFormed_accepted (fuel : Nat) (enough : 2 ^ 36 < fuel) (i : Nat) (loads : file.Loads i) :
    (file.phdr i).Accepted fuel := by
  have below := wellFormed.below i loads
  have some := wellFormed.some i loads
  have last := vaddrEnd_toNat wellFormed i loads
  have ends : (file.phdr i).vaddrEnd.toNat ≤ 2 ^ 64 - 4096 := by omega
  refine ⟨wellFormed.flags i loads, ends, ?_, fun j inside => ?_⟩
  · rw [Elf64Phdr.rounds]
    omega
  · have page := (page_iff ends _).mpr ⟨j, inside, rfl⟩
    generalize pageAt (alignDown (file.phdr i).pVaddr) j = v at page ⊢
    have offset := pageOffset_toNat page
    have start := dataStart_toNat (file.phdr i) v
    have next := aligned_next _ v page.aligned (BitVec.lt_def.mpr page.more) ends
    have size : ((if v + pageSize < (file.phdr i).vaddrEnd then v + pageSize else (file.phdr i).vaddrEnd) -
        (file.phdr i).dataStart v).toNat = min (v.toNat + 4096) (file.phdr i).vaddrEnd.toNat -
          max v.toNat (file.phdr i).pVaddr.toNat := by
      rw [BitVec.toNat_sub_of_le, start]
      · split_ifs with before <;> rw [BitVec.lt_def] at before <;> omega
      · rw [BitVec.le_def, start]
        obtain ⟨_, starts, more⟩ := page
        split_ifs with before <;> rw [BitVec.lt_def] at before <;> omega
    obtain ⟨_, starts, more⟩ := page
    rw [Elf64Phdr.CopyFits, Elf64Phdr.dataSize, size]
    omega

theorem image_apart : file.image.Pairwise fun page page' => mmuGetTableIdx page.vaddr ≠ mmuGetTableIdx page'.vaddr := by
  have accepted := wellFormed_accepted wellFormed (2 ^ 36 + 1) (by omega)
  have inSegment (i : Nat) (page : NewPage) (loads : file.Loads i) (listed : page ∈ (file.phdr i).newPages file) :
      ∃ v, (file.phdr i).Page v ∧ page.vaddr = v := by
    obtain ⟨perm, known⟩ := Option.isSome_iff_exists.mp (accepted i loads).known
    simp only [Elf64Phdr.newPages, known, List.mem_map, List.mem_range] at listed
    obtain ⟨j, before, rfl⟩ := listed
    exact ⟨_, (page_iff (accepted i loads).ends _).mpr ⟨j, before, rfl⟩, rfl⟩
  have load (i : Nat) (inside : i < file.ePhnum.toNat) (page : NewPage) (listed : page ∈ file.phdrNewPages i) :
      file.Loads i ∧ (file.phdr i).Occupies (userPage page.vaddr) := by
    rw [ElfFile.phdrNewPages] at listed
    split_ifs at listed with known
    · obtain ⟨v, here, same⟩ := inSegment i page ⟨inside, known⟩ listed
      exact ⟨⟨inside, known⟩, (occupies_iff wellFormed i ⟨inside, known⟩ _).mpr ⟨v, here, by rw [same]⟩⟩
    · cases listed
  simp only [ne_eq, userPage_eq]
  rw [ElfFile.image, List.pairwise_cons]
  refine ⟨fun page listed same => ?_, List.pairwise_flatMap.mpr ⟨fun i inside => ?_, ?_⟩⟩
  · obtain ⟨i, inside, listed⟩ := List.mem_flatMap.mp listed
    obtain ⟨loads, occupies⟩ := load i (List.mem_range.mp inside) page listed
    rw [← same] at occupies
    exact wellFormed.stack i loads occupies
  · rw [ElfFile.phdrNewPages]
    split_ifs with known
    · have loads : file.Loads i := ⟨List.mem_range.mp inside, known⟩
      obtain ⟨perm, known⟩ := Option.isSome_iff_exists.mp (accepted i loads).known
      have ends := (accepted i loads).ends
      simp only [Elf64Phdr.newPages, known]
      rw [List.pairwise_map]
      refine List.Pairwise.imp_of_mem ?_ (List.pairwise_lt_range (n := _))
      intro j j' first second before same
      obtain ⟨place, inside⟩ := pageAt_rounds ends j (List.mem_range.mp first)
      obtain ⟨place', inside'⟩ := pageAt_rounds ends j' (List.mem_range.mp second)
      have below := wellFormed.below i loads
      have last := vaddrEnd_toNat wellFormed i loads
      simp only [Elf64Phdr.newPage, userPage, place, place'] at same
      omega
    · exact List.Pairwise.nil
  · refine List.Pairwise.imp_of_mem ?_ List.pairwise_lt_range
    intro i j first second before page there page' there' same
    obtain ⟨loads, occupies⟩ := load i (List.mem_range.mp first) page there
    obtain ⟨loads', occupies'⟩ := load j (List.mem_range.mp second) page' there'
    rw [same] at occupies
    exact wellFormed.apart i j loads loads' (Nat.ne_of_lt before) _ occupies occupies'

end WellFormed

section Image

variable {fuel : Nat} {file : ElfFile} (accepted : ∀ i, file.Loads i → (file.phdr i).Accepted fuel)

include accepted

/-- An address that a segment fills is on a page of the image, which has the segment's permission. -/
theorem fills_page (i : Nat) (loads : file.Loads i) (a : Word) (fills : (file.phdr i).Fills a) : ∃ perm,
    elfPerm (file.phdr i).pFlags = some perm ∧ (file.phdr i).Page (alignDown a) ∧ (file.phdr i).CopyFits (alignDown a) ∧
      (file.phdr i).newPage file perm (alignDown a) ∈ file.image := by
  obtain ⟨perm, known⟩ := Option.isSome_iff_exists.mp (accepted i loads).known
  have down := alignDown_toNat a
  have page : (file.phdr i).Page (alignDown a) := by
    rw [Elf64Phdr.Fills, BitVec.le_def, BitVec.lt_def] at fills
    constructor <;> omega
  obtain ⟨j, before, place⟩ := (page_iff (accepted i loads).ends _).mp page
  refine ⟨perm, known, page, ?_, (mem_image fuel file accepted _).mpr (.inr ⟨i, perm, _, loads, known, page, rfl⟩)⟩
  rw [place]
  exact (accepted i loads).fits j before

/-- The process reads there the byte of the file, also at an address that differs in the top 16 bits alone. -/
theorem fills_byte {k k₁ : Kernel} {pos : Pos} {t : Word} (process : Process k pos t)
    (placed : placePages t k file.image = some k₁) (i : Nat) (loads : file.Loads i) (a u : Word)
    (fills : (file.phdr i).Fills a) (twin : a.toNat % 2 ^ 48 = u.toNat % 2 ^ 48) :
    userByte k₁ t u = some (file ((file.phdr i).pOffset + (a - (file.phdr i).pVaddr))) := by
  obtain ⟨perm, _, here, fits, listed⟩ := fills_page accepted i loads a fills
  obtain ⟨va, read⟩ := placePages_bytes process placed _ listed
  have down := alignDown_toNat a
  have byte := (newPage_byte (accepted i loads).ends here file fits (k.mem va) a (by omega) (by omega)).1 fills
  have page : userPage u = userPage (alignDown a) := by
    rw [userPage_alignDown, userPage, userPage]
    omega
  rw [userByte, byteAt_congr k₁ t u (alignDown a) _ page]
  rw [show a.toNat - (alignDown a).toNat = u.toNat % 4096 by omega] at byte
  exact (read _).trans (congrArg some byte)

-- A byte of one of the segment's pages that the file gives.
theorem fills_of_rest (i : Nat) (loads : file.Loads i) (perm : MemPerm) (v : Word) (here : (file.phdr i).Page v) (b : Nat)
    (inside : b < 4096) (fromFile : ¬ ((file.phdr i).newPage file perm v).Rest b) :
    ∃ a, (file.phdr i).Fills a ∧ a.toNat = v.toNat + b := by
  have ends := (accepted i loads).ends
  obtain ⟨j, before, place⟩ := (page_iff ends v).mp here
  have fits : (file.phdr i).CopyFits v := place ▸ (accepted i loads).fits j before
  have aligned := here.aligned
  have value : (v + BitVec.ofNat 64 b).toNat = v.toNat + b := by
    rw [BitVec.toNat_add, BitVec.toNat_ofNat]
    omega
  refine ⟨_, ?_, value⟩
  by_contra outside
  have rest := (newPage_byte ends here file fits (fun _ => 0) _ (by omega) (by omega)).2 outside perm
  rw [value, Nat.add_sub_cancel_left] at rest
  exact fromFile rest

end Image

theorem elfPerm_attr (pFlags : BitVec 32) (perm : MemPerm) (known : elfPerm pFlags = some perm) :
    (userAttr perm).isSome := by
  unfold elfPerm at known
  split_ifs at known <;> cases known <;> rfl

-- With memory for its pages, the image is created.
theorem elfCreateProcImage_returns {file : ElfFile} (wellFormed : file.WellFormed) {k : Kernel} {pos : Pos} {t : Word}
    (process : Process k pos t) (empty : ∀ i, mmuIsValid (k.mem t i) = false)
    (memory : canAlloc (file.image.length + tablesLackedBy k.mem t (file.image.map NewPage.vaddr)) k = true) :
    ∃ k', placePages t k file.image = some k' ∧
      ∀ fuel, 2 ^ 36 < fuel → elfCreateProcImage fuel file k t = some (.ok (⟨file.stackAddr, .ok⟩, k')) := by
  have accepted := wellFormed_accepted wellFormed
  have pages := mem_image (2 ^ 36 + 1) file (accepted _ (by omega))
  have ready (page : NewPage) (listed : page ∈ file.image) :
      (userAttr page.perm).isSome ∧ userEntry k.mem t page.vaddr = 0 := by
    refine ⟨?_, process.empty_entries empty _⟩
    rcases (pages page).mp listed with rfl | ⟨i, perm, v, _, known, _, rfl⟩
    · rfl
    · exact elfPerm_attr _ perm known
  obtain ⟨k', placed⟩ := placePages_lasts file.image process ready (image_apart wellFormed) memory
  exact ⟨k', placed, fun fuel enough => (elfCreateProcImage_iff ..).mpr ⟨rfl, accepted fuel enough, placed⟩⟩

/-- With memory for the image, elf_create_proc_image loads every file whose segments have pages of their own. -/
theorem elfCreateProcImage_loads (file : ElfFile) (wellFormed : file.WellFormed) (k : Kernel) (t : Word)
    (tree : TableTree k t) (empty : ∀ i, mmuIsValid (k.mem t i) = false)
    (memory : canAlloc (file.image.length + tablesLackedBy k.mem t (file.image.map NewPage.vaddr)) k = true) :
    ∃ k', (∀ fuel, 2 ^ 36 < fuel → elfCreateProcImage fuel file k t = some (.ok (⟨file.stackAddr, .ok⟩, k'))) ∧
      ImageLoaded file k' t := by
  obtain ⟨wf, pos, layout, root⟩ := tree
  have process : Process k pos t := ⟨wf, layout, root⟩
  have accepted := wellFormed_accepted wellFormed
  have pages := mem_image (2 ^ 36 + 1) file (accepted _ (by omega))
  have blank := process.empty_entries empty
  obtain ⟨k', placed, returns⟩ := elfCreateProcImage_returns wellFormed process empty memory
  obtain ⟨_, process', gains⟩ := placePages_gains file.image process placed
  have entry (i : Nat) (loads : file.Loads i) (perm : MemPerm) (known : elfPerm (file.phdr i).pFlags = some perm)
      (u : Word) (occupies : (file.phdr i).Occupies (userPage u)) : ∃ page : NewPage, page.Leaf (userEntry k'.mem t u) ∧
        page.perm = perm := by
    obtain ⟨v, here, same⟩ := (occupies_iff wellFormed i loads _).mp occupies
    refine ⟨(file.phdr i).newPage file perm v, ?_, rfl⟩
    rw [userEntry_congr k'.mem t u v ((userPage_eq u v).mpr same.symm)]
    exact gains.entry _ ((pages _).mpr (.inr ⟨i, perm, v, loads, known, here, rfl⟩))
  refine ⟨k', returns, ?_, ?_, ?_⟩
  · intro i loads n inside
    have below := wellFormed.below i loads
    have last := vaddrEnd_toNat wellFormed i loads
    rw [BitVec.lt_def] at inside
    have value : ((file.phdr i).pVaddr + n).toNat = (file.phdr i).pVaddr.toNat + n.toNat := by
      rw [BitVec.toNat_add]
      omega
    have source : (file.phdr i).pVaddr + n - (file.phdr i).pVaddr = n := by ring
    have fills : (file.phdr i).Fills ((file.phdr i).pVaddr + n) := by
      rw [Elf64Phdr.Fills, BitVec.le_def, BitVec.lt_def]
      omega
    have byte := fills_byte (accepted _ (Nat.lt_succ_self _)) process placed i loads _ _ fills rfl
    rwa [source] at byte
  · intro i loads perm known u occupies
    obtain ⟨page, ⟨va, _, leaf⟩, rfl⟩ := entry i loads perm known u occupies
    exact leaf.bits.1
  · intro u
    rw [process'.busy_entry]
    constructor
    · intro busy
      by_contra none
      push Not at none
      refine busy ((gains.others u fun page listed same => ?_).trans (blank u))
      rw [userPage_eq] at same
      rcases (pages page).mp listed with rfl | ⟨i, perm, v, loads, _, here, rfl⟩
      · exact none.1 same.symm
      · exact none.2 i loads ((occupies_iff wellFormed i loads _).mpr ⟨v, here, same⟩)
    · rintro (same | ⟨i, loads, occupies⟩)
      · rw [userEntry_congr k'.mem t u file.stackAddr ((userPage_eq _ _).mpr same)]
        exact NewPage.Leaf.ne_zero _ _ (gains.entry (.anonymous file.stackAddr .rw) List.mem_cons_self)
      · obtain ⟨perm, known⟩ := Option.isSome_iff_exists.mp (wellFormed.flags i loads)
        obtain ⟨page, leaf, _⟩ := entry i loads perm known u occupies
        exact leaf.ne_zero

-- A file with one segment: 16 bytes at 0x1ff8 of the file that go to 0x401ff8, on two pages.
def smallElf (memsz : BitVec 8) : ElfFile := fun a =>
  ([(32, 64), (56, 1), (64, 1), (68, 6), (72, 0xf8), (73, 0x1f), (80, 0xf8), (81, 0x1f), (82, 0x40), (96, 16),
    (104, memsz), (0x1ffa, 7)].lookup a.toNat).getD 0

theorem smallElf_phdr (i : Nat) (loads : (smallElf 16).Loads i) : i = 0 := by
  have count : (smallElf 16).ePhnum.toNat = 1 := by decide +kernel
  have inside := loads.1
  omega

theorem smallElf_wellFormed : (smallElf 16).WellFormed := by
  have size : ((smallElf 16).phdr 0).pFilesz = 16 := by decide +kernel
  have start : ((smallElf 16).phdr 0).pVaddr = 0x401ff8 := by decide +kernel
  have stack : userPage (smallElf 16).stackAddr = 0x3ff := by decide +kernel
  constructor
  case some =>
    intro i loads
    rw [smallElf_phdr i loads, size]
    decide
  case flags =>
    intro i loads
    rw [smallElf_phdr i loads]
    decide +kernel
  case below =>
    intro i loads
    rw [smallElf_phdr i loads, size, start]
    decide
  case apart =>
    intro i j loads loads' other
    exact absurd ((smallElf_phdr i loads).trans (smallElf_phdr j loads').symm) other
  case stack =>
    intro i loads
    rw [smallElf_phdr i loads, Elf64Phdr.Occupies, size, start, stack]
    decide

theorem smallElf_loads : ∃ k', elfCreateProcImage (2 ^ 36 + 1) (smallElf 16) (machine [] [8, 9, 10, 11, 12, 13, 14])
    (poolVa 4) = some (.ok (⟨0x3ff000, .ok⟩, k')) ∧ userByte k' (poolVa 4) 0x401ffa = some 7 := by
  have fits : Fits [] [8, 9, 10, 11, 12, 13, 14] [(4, [])] := by decide +kernel
  have process := machine_process _ _ _ fits (poolVa 4) (by decide +kernel)
  have stocked := machine_stocked [] _ fits.1
  obtain ⟨k', result, loaded⟩ := elfCreateProcImage_loads (smallElf 16) smallElf_wellFormed _ (poolVa 4)
    ⟨process.wf, _, process.layout, process.root⟩ (by decide +kernel) (stocked.allocs _ (by decide +kernel))
  have read := loaded.bytes 0 ⟨by decide +kernel, by decide +kernel⟩ 2 (by decide +kernel)
  have place : ((smallElf 16).phdr 0).pVaddr + 2 = 0x401ffa := by decide +kernel
  have byte : (smallElf 16) (((smallElf 16).phdr 0).pOffset + 2) = 7 := by decide +kernel
  have stack : (smallElf 16).stackAddr = 0x3ff000 := by decide +kernel
  rw [place, byte] at read
  refine ⟨k', ?_, read⟩
  rw [← stack]
  exact result _ (by omega)

-- p_memsz of program header `i`, which elf_create_proc_image does not read.
def ElfFile.pMemsz (file : ElfFile) (i : Nat) : Word := file.read 64 (file.ePhoff + BitVec.ofNat 64 i * phdrSize + 40)

/-- Each segment has its p_memsz bytes in user memory with its permission, and those past p_filesz are zero. -/
def ZeroFilled (file : ElfFile) (k : Kernel) (t : Word) : Prop :=
  ∀ i, file.Loads i → (file.phdr i).pFilesz.toNat ≤ (file.pMemsz i).toNat → ∀ n, n < (file.pMemsz i).toNat →
    (file.phdr i).pVaddr.toNat + n < 2 ^ 48 ∧
    (∃ perm, elfPerm (file.phdr i).pFlags = some perm ∧
      userAttr perm = some (userEntry k.mem t ((file.phdr i).pVaddr + BitVec.ofNat 64 n) &&& leafPermMask)) ∧
    ((file.phdr i).pFilesz.toNat ≤ n → userByte k t ((file.phdr i).pVaddr + BitVec.ofNat 64 n) = some 0)

/-- The segments end below 2^48, and the bytes between p_filesz and p_memsz are zeroes that the file has for segments
of the same permission: in particular where the two sizes agree. -/
def TailsInFile (file : ElfFile) : Prop :=
  ∀ i, file.Loads i → (file.phdr i).pFilesz.toNat ≤ (file.pMemsz i).toNat → ∀ n, n < (file.pMemsz i).toNat →
    (file.phdr i).pVaddr.toNat + n < 2 ^ 48 ∧
    ((file.phdr i).pFilesz.toNat ≤ n → ∃ j a, file.Loads j ∧ elfPerm (file.phdr j).pFlags = elfPerm (file.phdr i).pFlags ∧
      (file.phdr j).Fills a ∧ a.toNat % 2 ^ 48 = (file.phdr i).pVaddr.toNat + n ∧
      file ((file.phdr j).pOffset + (a - (file.phdr j).pVaddr)) = 0)

theorem userAttr_inj (perm perm' : MemPerm) (pattr : Word) (known : userAttr perm = some pattr)
    (known' : userAttr perm' = some pattr) : perm = perm' := by
  cases perm <;> cases known <;> cases perm' <;> first | rfl | exact absurd known' (by decide) | cases known'

theorem userAttr_ne_zero (perm : MemPerm) : userAttr perm ≠ some 0 := by
  cases perm <;> first | decide | exact fun none => by cases none

theorem tail_of_run {k k₁ : Kernel} {pos : Pos} {t : Word} {fuel : Nat} {file : ElfFile} (process : Process k pos t)
    (empty : ∀ i, mmuIsValid (k.mem t i) = false) (accepted : ∀ i, file.Loads i → (file.phdr i).Accepted fuel)
    (placed : placePages t k file.image = some k₁)
    (all : ∀ k' k₁', Recycled (Free k) k k' → placePages t k' file.image = some k₁' → ZeroFilled file k₁' t) :
    TailsInFile file := by
  obtain ⟨_, process₁, gains⟩ := placePages_gains file.image process placed
  intro i loads sizes n inside
  obtain ⟨below, ⟨perm, known, bits⟩, zero⟩ := all k k₁ (.refl _ k) placed i loads sizes n inside
  refine ⟨below, fun tail => ?_⟩
  set u := (file.phdr i).pVaddr + BitVec.ofNat 64 n with named
  have value : u.toNat = (file.phdr i).pVaddr.toNat + n := by
    rw [named, BitVec.toNat_add, BitVec.toNat_ofNat]
    omega
  -- The address is mapped, so one of the image's pages is there.
  obtain ⟨page, listed, same⟩ : ∃ page, page ∈ file.image ∧ userPage page.vaddr = userPage u := by
    by_contra none
    push Not at none
    have missing := (gains.others u fun page listed same => none page listed ((userPage_eq _ _).mp same)).trans
      (process.empty_entries empty u)
    have clear : (0 : Word) &&& leafPermMask = 0 := BitVec.zero_and
    rw [missing, clear] at bits
    exact userAttr_ne_zero perm bits
  have within : u.toNat % 4096 < 4096 := Nat.mod_lt _ (by decide)
  -- If the file did not give the byte, another run would find a one there.
  have fromFile : ¬ page.Rest (u.toNat % 4096) := by
    intro rest
    obtain ⟨m, there⟩ := List.getElem?_of_mem listed
    obtain ⟨_, _, _, again⟩ := process.placed (fun _ => id) (.refl (Free k) k) file.image k₁ placed
    obtain ⟨_, k₁', recycled, placed', read⟩ := process.rest_reads (fun _ => id) placed m page there _ rest
      (again.placed m page there).free 1
    have clear := (all _ k₁' recycled placed' i loads sizes n inside).2.2 tail
    rw [userByte, byteAt_congr k₁' t u page.vaddr _ same.symm, read] at clear
    cases clear
  rcases (mem_image fuel file accepted page).mp listed with rfl | ⟨j, perm', v, loads', known', here, rfl⟩
  · exact absurd ⟨within, fun both => Nat.not_lt_zero _ both.2⟩ fromFile
  · obtain ⟨a, fills, place⟩ := fills_of_rest accepted j loads' perm' v here _ within fromFile
    have aligned := here.aligned
    have twin : a.toNat % 2 ^ 48 = u.toNat % 2 ^ 48 := by
      have pages : userPage v = userPage u := same
      unfold userPage at pages
      omega
    refine ⟨j, a, loads', ?_, fills, by omega, ?_⟩
    · obtain ⟨_, _, leaf⟩ := gains.entry _ listed
      rw [userEntry_congr k₁.mem t _ u ((userPage_eq _ _).mpr same)] at leaf
      rw [known, known']
      exact congrArg some (userAttr_inj perm' perm _ leaf.bits.1 bits)
    · exact Option.some.inj ((fills_byte accepted process placed j loads' a u fills twin).symm.trans (zero tail))

theorem run_of_tail {k k₁ : Kernel} {pos : Pos} {t : Word} {fuel : Nat} {file : ElfFile} (process : Process k pos t)
    (accepted : ∀ i, file.Loads i → (file.phdr i).Accepted fuel) (placed : placePages t k file.image = some k₁)
    (tails : TailsInFile file) : ZeroFilled file k₁ t := by
  obtain ⟨_, _, gains⟩ := placePages_gains file.image process placed
  intro i loads sizes n inside
  obtain ⟨below, tail⟩ := tails i loads sizes n inside
  set u := (file.phdr i).pVaddr + BitVec.ofNat 64 n with named
  have value : u.toNat = (file.phdr i).pVaddr.toNat + n := by
    rw [named, BitVec.toNat_add, BitVec.toNat_ofNat]
    omega
  obtain ⟨j, a, loads', same, fills, twin, zero⟩ : ∃ j a, file.Loads j ∧
      elfPerm (file.phdr j).pFlags = elfPerm (file.phdr i).pFlags ∧ (file.phdr j).Fills a ∧
      a.toNat % 2 ^ 48 = u.toNat ∧ ((file.phdr i).pFilesz.toNat ≤ n →
        file ((file.phdr j).pOffset + (a - (file.phdr j).pVaddr)) = 0) := by
    by_cases past : (file.phdr i).pFilesz.toNat ≤ n
    · obtain ⟨j, a, loads', same, fills, twin, zero⟩ := tail past
      exact ⟨j, a, loads', same, fills, by omega, fun _ => zero⟩
    · have last := (tails i loads sizes ((file.pMemsz i).toNat - 1) (by omega)).1
      have total : (file.phdr i).vaddrEnd.toNat = (file.phdr i).pVaddr.toNat + (file.phdr i).pFilesz.toNat := by
        rw [Elf64Phdr.vaddrEnd, BitVec.toNat_add]
        omega
      refine ⟨i, u, loads, rfl, ?_, by omega, fun tail => absurd tail past⟩
      rw [Elf64Phdr.Fills, BitVec.le_def, BitVec.lt_def]
      omega
  obtain ⟨perm, known, _, _, listed⟩ := fills_page accepted j loads' a fills
  refine ⟨below, ⟨perm, by rw [← same, known], ?_⟩, fun past => ?_⟩
  · have page : userPage (alignDown a) = userPage u := by
      rw [userPage_alignDown, userPage, userPage]
      omega
    obtain ⟨_, _, leaf⟩ : ((file.phdr j).newPage file perm (alignDown a)).Leaf (userEntry k₁.mem t (alignDown a)) :=
      gains.entry _ listed
    rw [userEntry_congr k₁.mem t _ u ((userPage_eq _ _).mpr page)] at leaf
    exact leaf.bits.1
  · rw [fills_byte accepted process placed j loads' a u fills (by omega), zero past]

/-- Whatever the pool pages held, the bytes past p_filesz are zero exactly where the file itself has zeroes for them. -/
theorem elfCreateProcImage_zeroes (fuel : Nat) (file : ElfFile) (k k₁ : Kernel) (t addr : Word) (tree : TableTree k t)
    (empty : ∀ i, mmuIsValid (k.mem t i) = false)
    (done : elfCreateProcImage fuel file k t = some (.ok (⟨addr, .ok⟩, k₁))) :
    (∀ k' k₁', Recycled (Free k) k k' → elfCreateProcImage fuel file k' t = some (.ok (⟨addr, .ok⟩, k₁')) →
      ZeroFilled file k₁' t) ↔ TailsInFile file := by
  obtain ⟨wf, pos, layout, root⟩ := tree
  have process : Process k pos t := ⟨wf, layout, root⟩
  obtain ⟨rfl, accepted, placed⟩ := (elfCreateProcImage_iff ..).mp done
  constructor
  · intro all
    exact tail_of_run process empty accepted placed fun k' k₁' recycled placed' =>
      all k' k₁' recycled ((elfCreateProcImage_iff ..).mpr ⟨rfl, accepted, placed'⟩)
  · intro tails k' k₁' recycled done'
    have process' := process.twin (recycled.same process.wf fun _ => id) (recycled.agree process.layout fun _ => id)
    exact run_of_tail process' accepted ((elfCreateProcImage_iff ..).mp done').2.2 tails

theorem smallElf_zeroes : ∃ k₁, elfCreateProcImage 3 (smallElf 16) (machine [] [8, 9, 10, 11, 12, 13, 14]) (poolVa 4) =
      some (.ok (⟨0x3ff000, .ok⟩, k₁)) ∧ ZeroFilled (smallElf 16) k₁ (poolVa 4) := by
  have fits : Fits [] [8, 9, 10, 11, 12, 13, 14] [(4, [])] := by decide +kernel
  have process := machine_process _ _ _ fits (poolVa 4) (by decide +kernel)
  obtain ⟨⟨⟨addr, err⟩, k₁⟩, done, check⟩ := returns_of_any
    (elfCreateProcImage 3 (smallElf 16) (machine [] [8, 9, 10, 11, 12, 13, 14]) (poolVa 4))
    (fun r => decide (r.1 = ⟨0x3ff000, .ok⟩)) (by decide +kernel)
  obtain ⟨rfl, rfl⟩ := ElfRAddr.mk.inj (of_decide_eq_true check)
  have start : ((smallElf 16).phdr 0).pVaddr.toNat = 0x401ff8 := by decide +kernel
  have size : ((smallElf 16).phdr 0).pFilesz.toNat = 16 := by decide +kernel
  have memory : ((smallElf 16).pMemsz 0).toNat = 16 := by decide +kernel
  have tails : TailsInFile (smallElf 16) := by
    intro i loads _ n inside
    rw [smallElf_phdr i loads, memory] at inside
    rw [smallElf_phdr i loads, start, size]
    exact ⟨by omega, fun past => absurd inside (by omega)⟩
  exact ⟨k₁, done, (elfCreateProcImage_zeroes 3 (smallElf 16) _ k₁ (poolVa 4) _
    ⟨process.wf, _, process.layout, process.root⟩ (by decide +kernel) done).mpr tails _ _ (.refl _ _) done⟩

/-- The last eight bytes of the segment are those that pool page 14 held. -/
theorem small_bss_not_zeroed : ¬ ∀ (fuel : Nat) (file : ElfFile) (k k₁ : Kernel) (t addr : Word), TableTree k t →
    (∀ i, mmuIsValid (k.mem t i) = false) → elfCreateProcImage fuel file k t = some (.ok (⟨addr, .ok⟩, k₁)) →
      ZeroFilled file k₁ t := by
  intro claim
  have fits : Fits [⟨14, 1, 42⟩] [8, 9, 10, 11, 12, 13, 14] [(4, [])] := by decide +kernel
  have process := machine_process _ _ _ fits (poolVa 4) (by decide +kernel)
  obtain ⟨⟨⟨addr, err⟩, k₁⟩, done, check⟩ := returns_of_any
    (elfCreateProcImage 3 (smallElf 24) (machine [⟨14, 1, 42⟩] [8, 9, 10, 11, 12, 13, 14]) (poolVa 4))
    (fun r => decide (r.1 = ⟨0x3ff000, .ok⟩) && (userByte r.2 (poolVa 4) 0x402008 == some 42)) (by decide +kernel)
  rw [Bool.and_eq_true] at check
  obtain ⟨rfl, rfl⟩ := ElfRAddr.mk.inj (of_decide_eq_true check.1)
  have zero := (claim _ _ _ _ _ _ ⟨process.wf, _, process.layout, process.root⟩ (by decide +kernel) done 0
    ⟨by decide +kernel, by decide +kernel⟩ (by decide +kernel) 16 (by decide +kernel)).2.2 (by decide +kernel)
  have place : ((smallElf 24).phdr 0).pVaddr + BitVec.ofNat 64 16 = 0x402008 := by decide +kernel
  rw [place, beq_iff_eq.mp check.2] at zero
  exact absurd zero (by decide)

end Anthill
