import Anthill.Bytes
import Anthill.UserPages

set_option autoImplicit false

namespace Anthill

open Radix Bytes

-- A byte of a page, which is read by words.
def pageByte (row : Idx → Word) (b : Nat) : BitVec 8 := (split (row (Fin.ofNat 512 (b / 8))) 8).getD (b % 8) 0

-- memcpy to `start` of a page that it does not leave.
def copyBytes (row : Idx → Word) (start : Nat) (bytes : List (BitVec 8)) : Idx → Word := fun i =>
  combine 64 ((List.range 8).map fun j =>
    if start ≤ 8 * i.val + j then bytes.getD (8 * i.val + j - start) (pageByte row (8 * i.val + j))
    else pageByte row (8 * i.val + j))

theorem pageByte_copyBytes (row : Idx → Word) (start : Nat) (bytes : List (BitVec 8)) (b : Nat) (inside : b < 4096) :
    pageByte (copyBytes row start bytes) b =
      if start ≤ b then bytes.getD (b - start) (pageByte row b) else pageByte row b := by
  have word : (Fin.ofNat 512 (b / 8)).val = b / 8 := Nat.mod_eq_of_lt (by omega)
  have byte : b % 8 < 8 := Nat.mod_lt b (by decide)
  rw [pageByte, copyBytes, word]
  set new := (List.range 8).map fun j =>
    if start ≤ 8 * (b / 8) + j then bytes.getD (8 * (b / 8) + j - start) (pageByte row (8 * (b / 8) + j))
    else pageByte row (8 * (b / 8) + j) with spelled
  have eight : new.length = 8 := by rw [spelled, List.length_map, List.length_range]
  have back : split (combine 64 new) 8 = new := by
    have written := split_combine (w := 64) new (by omega)
    rwa [eight] at written
  rw [back, spelled, List.getD_eq_getElem?_getD, List.getElem?_map, List.getElem?_range byte, Option.map_some,
    Option.getD_some, Nat.div_add_mod]

theorem copyBytes_nil (row : Idx → Word) (start : Nat) : copyBytes row start [] = row := by
  funext i
  have read (j : Nat) (low : j < 8) : pageByte row (8 * i.val + j) = (split (row i) 8).getD j 0 := by
    have word : Fin.ofNat 512 ((8 * i.val + j) / 8) = i := by
      have whole : (8 * i.val + j) / 8 = i.val := by omega
      rw [whole]
      exact Fin.ofNat_val_eq_self i
    rw [pageByte, word, Nat.mul_add_mod, Nat.mod_eq_of_lt low]
  have bytes : (List.range 8).map (fun j => pageByte row (8 * i.val + j)) = split (row i) 8 := by
    refine List.ext_getElem (by simp) fun j low _ => ?_
    rw [List.length_map, List.length_range] at low
    rw [List.getElem_map, List.getElem_range, read j low, List.getD_eq_getElem?_getD, List.getElem?_eq_getElem (by simpa),
      Option.getD_some]
  simp only [copyBytes, List.getD_nil, ite_self]
  rw [bytes, combine_split _ _ (row i).isLt]

-- The file is the memory that starts at its header, which no call writes.
abbrev ElfFile := Word → BitVec 8

def ElfFile.bytes (file : ElfFile) (offset : Word) (count : Nat) : List (BitVec 8) :=
  (List.range count).map fun j => file (offset + BitVec.ofNat 64 j)

def ElfFile.read (file : ElfFile) (w : Nat) (offset : Word) : BitVec w := combine w (file.bytes offset (w / 8))

def ElfFile.ePhoff (file : ElfFile) : Word := file.read 64 32
def ElfFile.ePhnum (file : ElfFile) : BitVec 16 := file.read 16 56

structure Elf64Phdr where
  pType : BitVec 32
  pFlags : BitVec 32
  pOffset : Word
  pVaddr : Word
  pFilesz : Word

def phdrSize : Word := 56

-- Program header `i`, also where the file has no such header.
def ElfFile.phdr (file : ElfFile) (i : Nat) : Elf64Phdr :=
  let header := file.ePhoff + BitVec.ofNat 64 i * phdrSize
  ⟨file.read 32 header, file.read 32 (header + 4), file.read 64 (header + 8), file.read 64 (header + 16),
    file.read 64 (header + 32)⟩

def ptLoad : BitVec 32 := 1

def elfPerm (pFlags : BitVec 32) : Option MemPerm :=
  if pFlags = 4 then some .ro
  else if pFlags = 5 then some .ex
  else if pFlags = 6 then some .rw
  else none

structure ElfRAddr where
  addr : Word
  err : KernErr
deriving DecidableEq

-- A page of the image; `.error` is an early return.
def imagePage (k : Kernel) (tranTable vaddr : Word) (perm : MemPerm) :
    Except (Except Halt (ElfRAddr × Kernel)) (Word × Kernel) :=
  match memKernelAllocPage k .rw with
  | (⟨page, .ok⟩, k) =>
    match memUserMapPage k tranTable vaddr (virtToPhys page) perm .norm with
    | .error halt => .error (.error halt)
    | .ok (.ok, k) => .ok (page, k)
    | .ok (err, k) => .error (.ok (⟨0, err⟩, k))
  | (⟨_, err⟩, k) => .error (.ok (⟨0, err⟩, k))

namespace Elf64Phdr

variable (phdr : Elf64Phdr)

def vaddrEnd : Word := phdr.pVaddr + phdr.pFilesz

-- The part of the file that goes to the page at `vaddr`: data_start, and data_end - data_start.
def dataStart (vaddr : Word) : Word := if phdr.pVaddr < vaddr then vaddr else phdr.pVaddr

def dataSize (vaddr : Word) : Nat :=
  ((if vaddr + pageSize < phdr.vaddrEnd then vaddr + pageSize else phdr.vaddrEnd) - phdr.dataStart vaddr).toNat

def pageOffset (vaddr : Word) : Nat := (phdr.dataStart vaddr &&& (pageSize - 1)).toNat

def fileBytes (file : ElfFile) (vaddr : Word) : List (BitVec 8) :=
  file.bytes (phdr.pOffset + phdr.dataStart vaddr - phdr.pVaddr) (phdr.dataSize vaddr)

end Elf64Phdr

-- One round of the loop over a segment's pages. Past the end of the page memcpy writes to memory of
-- the kernel that is not the page's, which is a fault here.
def segmentStep (file : ElfFile) (phdr : Elf64Phdr) (perm : MemPerm) (tranTable : Word) (k : Kernel) (vaddr : Word) :
    Except (Except Halt (ElfRAddr × Kernel)) Kernel :=
  match imagePage k tranTable vaddr perm with
  | .error early => .error early
  | .ok (page, k) =>
    if phdr.pageOffset vaddr + phdr.dataSize vaddr ≤ pageSize.toNat then
      .ok (k.writePage page (copyBytes (k.mem page) (phdr.pageOffset vaddr) (phdr.fileBytes file vaddr)))
    else .error (.error .fault)

-- The loop is bounded by nothing but the pages that are left, so it runs on fuel.
def segmentLoop (file : ElfFile) (phdr : Elf64Phdr) (perm : MemPerm) (tranTable : Word) :
    Nat → Kernel → Word → Option (Except (Except Halt (ElfRAddr × Kernel)) Kernel)
  | 0, _, _ => none
  | fuel + 1, k, vaddr =>
    if vaddr < phdr.vaddrEnd then
      match segmentStep file phdr perm tranTable k vaddr with
      | .error early => some (.error early)
      | .ok k => segmentLoop file phdr perm tranTable fuel k (vaddr + pageSize)
    else some (.ok k)

-- Program headers `i`, `i + 1`, and so on, `count` of them.
def phdrLoop (fuel : Nat) (file : ElfFile) (tranTable : Word) :
    Kernel → Nat → Nat → Option (Except (Except Halt (ElfRAddr × Kernel)) Kernel)
  | k, _, 0 => some (.ok k)
  | k, i, count + 1 =>
    let phdr := file.phdr i
    if phdr.pType ≠ ptLoad then phdrLoop fuel file tranTable k (i + 1) count
    else
      match elfPerm phdr.pFlags with
      | none => some (.error (.ok (⟨0, .elfInv⟩, k)))
      | some perm =>
        match segmentLoop file phdr perm tranTable fuel k (phdr.pVaddr &&& ~~~(pageSize - 1)) with
        | none => none
        | some (.error early) => some (.error early)
        | some (.ok k) => phdrLoop fuel file tranTable k (i + 1) count

def ElfFile.stackAddr (file : ElfFile) : Word := (file.phdr 0).pVaddr - (file.phdr 0).pOffset - pageSize

def elfCreateProcImage (fuel : Nat) (file : ElfFile) (k : Kernel) (tranTable : Word) :
    Option (Except Halt (ElfRAddr × Kernel)) :=
  match imagePage k tranTable file.stackAddr .rw with
  | .error early => some early
  | .ok (_, k) =>
    match phdrLoop fuel file tranTable k 0 file.ePhnum.toNat with
    | none => none
    | some (.error early) => some early
    | some (.ok k) => some (.ok (⟨file.stackAddr, .ok⟩, k))

end Anthill
