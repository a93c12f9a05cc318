import Anthill.Stdio
import Anthill.Ustar

set_option autoImplicit false

namespace Anthill

open Bytes (Store)

/-- What rd_read_file returns, where its memcpy reads from, and what it leaves in memory. -/
structure FileRead where
  len : BitVec 32
  src : Nat
  mem : Store

def rdReadFile (m : Store) (header buf : Nat) (offset : BitVec 64) (count : BitVec 32) : FileRead :=
  let fileSize := rdGetSize m header
  let len := if offset + count.setWidth 64 < fileSize then count else (fileSize - offset).setWidth 32
  let src := header + sizeofHeader + offset.toNat
  ⟨len, src, m.write buf (m.bytes src len.toNat)⟩

/-- The part of the file at the offset is delivered, as far as the file goes, and nothing else is read or written. -/
structure ReadsFile (m : Store) (header buf size : Nat) (offset : BitVec 64) (count : BitVec 32) (r : FileRead) : Prop where
  returned : r.len.toNat = if offset.toNat < size then min count.toNat (size - offset.toNat) else 0
  delivered : r.mem.bytes buf r.len.toNat =
    ((m.bytes (header + sizeofHeader) size).drop offset.toNat).take r.len.toNat
  inside : ∀ a, r.src ≤ a → a < r.src + r.len.toNat → header + sizeofHeader ≤ a ∧ a < header + sizeofHeader + size
  bounded : r.len.toNat ≤ vfsMaxIounit

/-- The part asked for fits in the buffer, and an offset behind the file is away from its end by a multiple of 2^32. -/
structure ReadFits (size offset count : Nat) : Prop where
  bounded : min count (size - offset) ≤ vfsMaxIounit
  behind : size ≤ offset → (offset - size) % 2 ^ 32 = 0 ∧ offset + count < 2 ^ 64

section Read

variable {m : Store} {header buf size : Nat} {offset : BitVec 64} {count : BitVec 32}

theorem rdReadFile_len (is : (rdGetSize m header).toNat = size) (small : size < 2 ^ 36) :
    (rdReadFile m header buf offset count).len.toNat =
      if (offset.toNat + count.toNat) % 2 ^ 64 < size then count.toNat
      else (2 ^ 64 + size - offset.toNat) % 2 ^ 32 := by
  have bound := offset.isLt
  have width : (count.setWidth 64).toNat = count.toNat := by
    rw [BitVec.toNat_setWidth, Nat.mod_eq_of_lt (Nat.lt_trans count.isLt (by decide))]
  have below : offset + count.setWidth 64 < rdGetSize m header ↔ (offset.toNat + count.toNat) % 2 ^ 64 < size := by
    rw [BitVec.lt_def, BitVec.toNat_add, width, is]
  have rest : ((rdGetSize m header - offset).setWidth 32).toNat = (2 ^ 64 + size - offset.toNat) % 2 ^ 32 := by
    rw [BitVec.toNat_setWidth, BitVec.toNat_sub, is]
    omega
  simp only [rdReadFile, below]
  split_ifs
  · rfl
  · exact rest

/-- What a copy from within the file delivers. -/
theorem readsFile_of_len (len : (rdReadFile m header buf offset count).len.toNat =
      if offset.toNat < size then min count.toNat (size - offset.toNat) else 0)
    (bounded : min count.toNat (size - offset.toNat) ≤ vfsMaxIounit) :
    ReadsFile m header buf size offset count (rdReadFile m header buf offset count) := by
  generalize is : rdReadFile m header buf offset count = r at len
  have src : r.src = header + sizeofHeader + offset.toNat := by rw [← is, rdReadFile]
  have mem : r.mem = m.write buf (m.bytes r.src r.len.toNat) := by rw [← is, rdReadFile]
  refine ⟨len, ?_, fun a low high => ?_, ?_⟩
  · have written := m.bytes_write buf (m.bytes r.src r.len.toNat)
    rw [Store.length_bytes, ← mem] at written
    rw [written, src]
    split_ifs at len with within
    · obtain ⟨rest, is⟩ := Nat.exists_eq_add_of_le (Nat.le_of_lt within)
      have long := m.length_bytes (header + sizeofHeader) offset.toNat
      rw [is, Store.bytes_add, List.drop_left' long, Store.take_bytes, Nat.min_eq_left (by omega)]
    · rw [len]
      rfl
  · split_ifs at len with within <;> omega
  · split_ifs at len with within
    · rwa [len]
    · rw [len]
      exact Nat.zero_le _

end Read

/-- rd_read_file reads a file right exactly where the offset and the count let it. -/
theorem rdReadFile_reads_iff {m : Store} {header : Nat} {e : Entry} (at' : e.At m header) (buf : Nat) (offset : BitVec 64)
    (count : BitVec 32) : ReadsFile m header buf e.size offset count (rdReadFile m header buf offset count) ↔
      ReadFits e.size offset.toNat count.toNat := by
  have len : (rdReadFile m header buf offset count).len.toNat = _ := rdReadFile_len at'.rdGetSize_toNat e.size_lt
  have small := e.size_lt
  have bound := offset.isLt
  have counted := count.isLt
  constructor
  · intro reads
    have returned := reads.returned
    have bounded := reads.bounded
    rw [returned] at bounded
    rw [len] at returned
    refine ⟨?_, fun behind => ?_⟩
    · split_ifs at bounded <;> omega
    · split_ifs at returned <;> omega
  · rintro ⟨bounded, behind⟩
    refine readsFile_of_len (len.trans ?_) bounded
    split_ifs <;> omega

theorem rdReadFile_reads_boot : ReadsFile (archiveImage ramdisk [bootFile]) ramdisk 4096 3 1 5
    (rdReadFile (archiveImage ramdisk [bootFile]) ramdisk 4096 1 5) :=
  (rdReadFile_reads_iff (bootFile_at []) 4096 1 5).mpr ⟨by decide, fun behind => absurd behind (by decide)⟩

/-- A read behind the end of a file copies nearly 2^32 bytes. -/
theorem rdReadFile_overruns : ¬ ReadsFile (archiveImage ramdisk [bootFile]) ramdisk 4096 3 4 1
    (rdReadFile (archiveImage ramdisk [bootFile]) ramdisk 4096 4 1) := by
  intro reads
  have len : (rdReadFile (archiveImage ramdisk [bootFile]) ramdisk 4096 4 1).len.toNat = _ :=
    rdReadFile_len (bootFile_at []).rdGetSize_toNat bootFile.size_lt
  exact absurd (len.symm.trans reads.returned) (by decide)

end Anthill
