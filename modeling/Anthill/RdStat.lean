import Anthill.PathSplit
import Anthill.RdFind

set_option autoImplicit false

namespace Anthill

open Bytes (Store split)

-- The bytes put at a destination with room for `n`, or NULL.
def pstrconv (src : List Byte) (n : Nat) : Option (List Byte) :=
  if shrtMax < src.length then none
  else if n < src.length + shrtSize then none
  else some (split (BitVec.ofNat 16 src.length) shrtSize ++ src)

/-- How a call that puts a file's name or its stat at a buffer ends: it reads behind the header, it follows a NULL, or it
returns the size with what it has put there, and with the number of bytes of the header's name that it has read. -/
inductive RdPut where
  | overread
  | fault
  | ret (size : Nat) (buffer : List Byte) (reads : Nat)
deriving DecidableEq

-- pstrlen of what pstrconv returns.
def rdPutName (reads n : Nat) (name : List Byte) : RdPut :=
  match pstrconv name n with
  | none => .fault
  | some res => .ret (shrtSize + name.length) res reads

/-- rd_get_name, where `allocated` tells if strdup gets its memory. -/
def rdGetName (m : Store) (allocated : Bool) (header n : Nat) : RdPut :=
  match strlen (m.bytes header sizeofHeader) with
  | none => .overread
  | some len =>
    if !allocated then .fault
    else
      let temp := m.bytes header len
      match strrchr temp 0x2f with
      | none => .fault
      | some name =>
        if name + 1 = len then
          match strrchr (temp.take name) 0x2f with
          | none => .fault
          | some name' => rdPutName (len + 1) n ((temp.take name).drop (name' + 1))
        else rdPutName (len + 1) n (temp.drop (name + 1))

-- The types of headers: files, links, devices, directories and pipes.
def rdType (type : Byte) : BitVec 32 :=
  match type with
  | 0x30 | 0x31 | 0x32 | 0x33 | 0x34 | 0x36 => 0
  | 0x35 => 0x80000000
  | _ => 0xffffffff

def rdGetType (m : Store) (header : Nat) : BitVec 32 := rdType (m (header + headerTypeOff))

def sizeofLength : Nat := 8

-- The part of rd_get_stat behind the fixed one.
def rdStatEnd (head : List Byte) (n : Nat) : RdPut → RdPut
  | .ret res name reads =>
    let size := sizeofQid + sizeofLength + res
    if res = 0 ∨ n < size then .ret 0 (head ++ name) reads else .ret size (head ++ name) reads
  | .fault => .fault
  | .overread => .overread

def rdGetStat (m : Store) (allocated : Bool) (header n : Nat) : RdPut :=
  if n < sizeofQid then .ret 0 [] 0
  else
    let qid : Qid := ⟨rdGetType m header, 0, 0⟩
    if n < sizeofQid + sizeofLength then .ret 0 qid.wire 0
    else rdStatEnd (qid.wire ++ split (rdGetSize m header) sizeofLength) n
      (rdGetName m allocated header (n - (sizeofQid + sizeofLength)))

-- The name field as far as its NUL, if it has one.
def headerName (m : Store) (header : Nat) : List Byte := (m.bytes header headerNameSize).takeWhile (· ≠ 0)

def lastComponent (name : List Byte) : List Byte := afterLast 0x2f (dropSlash name)

/-- A result of 0, or the size of what has been put within `n` bytes, with the name behind the fixed part, and without a
read behind the name field. -/
def RdPut.Right (name : List Byte) (n : Nat) : RdPut → Prop
  | .ret size buffer reads => reads ≤ headerNameSize ∧ (size = 0 ∨ size = buffer.length ∧ size ≤ n ∧
      buffer.drop (sizeofQid + sizeofLength) = split (BitVec.ofNat 16 name.length) shrtSize ++ name)
  | .fault | .overread => False

/-- rd_get_stat puts the last component of the name. -/
def StatRight (m : Store) (allocated : Bool) (header n : Nat) : Prop :=
  (rdGetStat m allocated header n).Right (lastComponent (headerName m header)) n

section Stat

theorem strlen_found {s rest : List (BitVec 8)} (nonzero : 0 ∉ s) : strlen (s ++ 0 :: rest) = some s.length := by
  induction s with
  | nil => rfl
  | cons d ds ih =>
    obtain ⟨first, later⟩ := List.ne_and_not_mem_of_not_mem_cons nonzero
    rw [List.cons_append, strlen, if_neg first.symm, ih later]
    rfl

theorem dropSlash_slash (s : List Byte) : dropSlash (s ++ [0x2f]) = s := by
  rw [dropSlash, List.getLast?_concat, if_pos rfl, List.dropLast_concat]

theorem dropSlash_other (s : List Byte) (other : s.getLast? ≠ some 0x2f) : dropSlash s = s := if_neg other

/-- The name that rd_get_name cuts out of a string is its last component, and it follows a NULL if there is no slash. -/
theorem rdGetName_cut {m : Store} {header len : Nat} (found : strlen (m.bytes header sizeofHeader) = some len) (n : Nat) :
    rdGetName m true header n = if 0x2f ∈ dropSlash (m.bytes header len) then
      rdPutName (len + 1) n (lastComponent (m.bytes header len)) else .fault := by
  have length := m.length_bytes header len
  simp only [rdGetName, found, Bool.not_true, Bool.false_eq_true, if_false]
  generalize m.bytes header len = temp at length ⊢
  by_cases slash : (0x2f : Byte) ∈ temp
  · obtain ⟨u, t, rfl, last⟩ := exists_last_of_mem slash
    simp only [strrchr_last u t 0x2f last]
    rw [List.length_append, List.length_cons] at length
    cases t with
    | nil =>
      have whole : u.length + 1 = len := length
      rw [if_pos whole, dropSlash_slash, lastComponent, dropSlash_slash, List.take_left' rfl]
      by_cases again : (0x2f : Byte) ∈ u
      · obtain ⟨u', t', rfl, last'⟩ := exists_last_of_mem again
        simp only [strrchr_last u' t' 0x2f last', if_pos again, afterLast_last u' t' 0x2f last']
        rw [List.append_cons, List.drop_left' (by simp)]
      · rw [strrchr_absent u 0x2f again, if_neg again]
    | cons ch t =>
      have short : ¬u.length + 1 = len := by
        rw [List.length_cons] at length
        omega
      have other : (u ++ 0x2f :: ch :: t).getLast? ≠ some 0x2f := by
        intro is
        have member := List.mem_of_getLast? (l := ch :: t) (by simpa using is)
        exact last member
      rw [if_neg short, lastComponent, dropSlash_other _ other, if_pos slash, afterLast_last u _ 0x2f last, List.append_cons,
        List.drop_left' (by simp)]
  · have none : (0x2f : Byte) ∉ dropSlash temp := by
      rw [dropSlash]
      split_ifs
      · exact fun member => slash (List.mem_of_mem_dropLast member)
      · exact slash
    rw [strrchr_absent temp 0x2f slash, if_neg none]

theorem rdPutName_eq (reads n : Nat) (name : List Byte) (short : name.length ≤ shrtMax) : rdPutName reads n name =
    if n < name.length + shrtSize then .fault
    else .ret (shrtSize + name.length) (split (BitVec.ofNat 16 name.length) shrtSize ++ name) reads := by
  rw [rdPutName, pstrconv, if_neg (Nat.not_lt.mpr short)]
  by_cases full : n < name.length + shrtSize
  · rw [if_pos full, if_pos full]
  · rw [if_neg full, if_neg full]

theorem length_lastComponent (name : List Byte) : (lastComponent name).length ≤ name.length := by
  have cut : (dropSlash name).length ≤ name.length := by
    rw [dropSlash]
    split_ifs
    · rw [List.length_dropLast]
      exact Nat.sub_le ..
    · exact Nat.le_refl _
  have part := (List.takeWhile_sublist (l := (dropSlash name).reverse) (fun c => decide (c ≠ 0x2f))).length_le
  rw [List.length_reverse] at part
  rw [lastComponent, afterLast, List.length_reverse]
  exact Nat.le_trans part cut

/-- The NUL of the magic ends a name that has none of its own. -/
theorem strlen_header {m : Store} {header : Nat} (valid : isHeader m header = true) :
    ∃ len, strlen (m.bytes header sizeofHeader) = some len ∧ len < headerMagicOff + 6 ∧
      (len < headerNameSize → headerName m header = m.bytes header len) ∧
      (headerNameSize ≤ len → (headerName m header).length = headerNameSize) := by
  have magic : m (header + (headerMagicOff + 5)) = 0 := by
    rw [isHeader, decide_eq_true_iff, memcmp_eq_zero] at valid
    exact (Nat.add_assoc ..).symm ▸ valid 5 (by decide)
  have nul := m.bytes_get header (headerMagicOff + 6) (headerMagicOff + 5) (Nat.lt_succ_self _)
  rw [magic] at nul
  obtain ⟨s, rest, is, nonzero⟩ := List.eq_append_cons_of_mem (List.mem_of_getElem? nul)
  have whole := m.bytes_add header (headerMagicOff + 6) (sizeofHeader - (headerMagicOff + 6))
  rw [is, List.append_assoc, List.cons_append] at whole
  obtain ⟨front, -⟩ := Store.bytes_append is
  have short : s.length < headerMagicOff + 6 := by
    have total := congrArg List.length is
    rw [Store.length_bytes, List.length_append, List.length_cons] at total
    omega
  have all (c : Byte) (hc : c ∈ s) : decide (c ≠ 0) = true := decide_eq_true fun zero => nonzero (zero ▸ hc)
  have field : m.bytes header headerNameSize = (s ++ 0 :: rest).take headerNameSize := by
    rw [← is, Store.take_bytes]
    rfl
  refine ⟨s.length, (congrArg strlen whole).trans (strlen_found nonzero), short, fun fits => ?_, fun fills => ?_⟩
  · rw [headerName, field, front, List.take_append, List.take_of_length_le (Nat.le_of_lt fits)]
    obtain ⟨k, more⟩ : ∃ k, headerNameSize - s.length = k + 1 := ⟨headerNameSize - s.length - 1, by omega⟩
    rw [more, List.take_succ_cons, List.takeWhile_append_of_pos all, List.takeWhile_cons_of_neg (by simp), List.append_nil]
  · have cut : (s ++ 0 :: rest).take headerNameSize = s.take headerNameSize := List.take_append_of_le_length fills
    have taken : (s.take headerNameSize).takeWhile (fun c => decide (c ≠ 0)) = s.take headerNameSize :=
      List.takeWhile_eq_self_iff.mpr fun c hc => all c (List.mem_of_mem_take hc)
    rw [headerName, field, cut, taken, List.length_take, Nat.min_eq_left fills]

end Stat

/-- There is no room for the stat's fixed part, or there is room for the whole, a name with a NUL and with more than one
component, and memory for its copy. -/
def StatFits (m : Store) (allocated : Bool) (header n : Nat) : Prop :=
  n < sizeofQid + sizeofLength ∨ allocated = true ∧ (headerName m header).length < headerNameSize ∧
    0x2f ∈ dropSlash (headerName m header) ∧
    sizeofQid + sizeofLength + shrtSize + (lastComponent (headerName m header)).length ≤ n

-- The fixed part of the stat of a file.
def statHead (m : Store) (header : Nat) : List Byte :=
  (⟨rdGetType m header, 0, 0⟩ : Qid).wire ++ split (rdGetSize m header) sizeofLength

theorem length_statHead (m : Store) (header : Nat) : (statHead m header).length = sizeofQid + sizeofLength := by
  simp only [statHead, Qid.wire, List.length_append, Bytes.length_split, sizeofQid, sizeofLength]

theorem rdGetStat_large {m : Store} {header n : Nat} (allocated : Bool) (large : ¬n < sizeofQid + sizeofLength) :
    rdGetStat m allocated header n =
      rdStatEnd (statHead m header) n (rdGetName m allocated header (n - (sizeofQid + sizeofLength))) := by
  have some : ¬n < sizeofQid := fun none => large (Nat.lt_of_lt_of_le none (Nat.le_add_right ..))
  rw [rdGetStat, if_neg some]
  exact if_neg large

theorem rdGetStat_small {m : Store} {header n : Nat} (allocated : Bool) (small : n < sizeofQid + sizeofLength) :
    ∃ buffer, rdGetStat m allocated header n = .ret 0 buffer 0 := by
  by_cases none : n < sizeofQid
  · exact ⟨[], if_pos none⟩
  · refine ⟨(⟨rdGetType m header, 0, 0⟩ : Qid).wire, ?_⟩
    rw [rdGetStat, if_neg none]
    exact if_pos small

-- What becomes of a name that the stat ends with.
theorem rdStatEnd_put {head name : List Byte} {n reads : Nat} (large : ¬n < sizeofQid + sizeofLength)
    (short : name.length ≤ shrtMax) : rdStatEnd head n (rdPutName reads (n - (sizeofQid + sizeofLength)) name) =
      if n < sizeofQid + sizeofLength + shrtSize + name.length then .fault
      else .ret (sizeofQid + sizeofLength + (shrtSize + name.length))
        (head ++ (split (BitVec.ofNat 16 name.length) shrtSize ++ name)) reads := by
  rw [rdPutName_eq _ _ _ short]
  by_cases full : n - (sizeofQid + sizeofLength) < name.length + shrtSize
  · rw [if_pos full, if_pos (by omega)]
    rfl
  · have room : ¬(shrtSize + name.length = 0 ∨ n < sizeofQid + sizeofLength + (shrtSize + name.length)) := by
      rw [shrtSize] at *
      omega
    rw [if_neg full, if_neg (by omega)]
    simp only [rdStatEnd, if_neg room]

theorem rdStatEnd_right_iff {head name : List Byte} (whole : head.length = sizeofQid + sizeofLength) {n len : Nat}
    (large : ¬n < sizeofQid + sizeofLength) (short : name.length ≤ shrtMax) (fits : len < headerNameSize) :
    (rdStatEnd head n (rdPutName (len + 1) (n - (sizeofQid + sizeofLength)) name)).Right name n ↔
      sizeofQid + sizeofLength + shrtSize + name.length ≤ n := by
  rw [rdStatEnd_put large short]
  split_ifs with full
  · simp only [RdPut.Right, false_iff]
    omega
  · simp only [RdPut.Right, List.length_append, whole, Bytes.length_split, List.drop_left' whole]
    exact ⟨fun _ => by omega, fun enough => ⟨fits, .inr ⟨trivial, by omega, trivial⟩⟩⟩

/-- rd_get_stat does what it says exactly where the stat has its room and the name has an end. -/
theorem rdGetStat_right_iff {m : Store} {header : Nat} (valid : isHeader m header = true) (allocated : Bool) (n : Nat) :
    StatRight m allocated header n ↔ StatFits m allocated header n := by
  by_cases small : n < sizeofQid + sizeofLength
  · obtain ⟨buffer, is⟩ : ∃ buffer, rdGetStat m allocated header n = .ret 0 buffer 0 := rdGetStat_small allocated small
    rw [StatRight, is]
    exact ⟨fun _ => .inl small, fun _ => ⟨Nat.zero_le _, .inl rfl⟩⟩
  have whole := length_statHead m header
  obtain ⟨len, found, -, fits, fills⟩ := strlen_header valid
  rw [StatRight, StatFits, rdGetStat_large allocated small, or_iff_right small]
  cases allocated with
  | false =>
    have name (k : Nat) : rdGetName m false header k = .fault := by
      simp only [rdGetName, found, Bool.not_false, if_true]
    rw [name]
    simp [rdStatEnd, RdPut.Right]
  | true =>
    rw [rdGetName_cut found]
    by_cases ends : len < headerNameSize
    · have length := m.length_bytes header len
      rw [fits ends]
      generalize m.bytes header len = s at length ⊢
      have part := length_lastComponent s
      have short : (lastComponent s).length ≤ shrtMax := by
        rw [headerNameSize] at ends
        rw [shrtMax]
        omega
      by_cases slash : (0x2f : Byte) ∈ dropSlash s
      · rw [if_pos slash, rdStatEnd_right_iff whole small short ends, length]
        exact ⟨fun enough => ⟨rfl, ends, slash, enough⟩, fun fits => fits.2.2.2⟩
      · rw [if_neg slash]
        exact ⟨False.elim, fun fits => slash fits.2.2.1⟩
    · -- The name goes on behind its field.
      have field := fills (Nat.not_lt.mp ends)
      rw [field]
      simp only [Nat.lt_irrefl, false_and, and_false, iff_false]
      split_ifs
      · rw [rdPutName]
        cases pstrconv (lastComponent (m.bytes header len)) (n - (sizeofQid + sizeofLength)) with
        | none => exact id
        | some res =>
          simp only [rdStatEnd]
          split_ifs <;> exact fun right => ends right.1
      · exact id

theorem rdGetStat_right_boot : StatRight (archiveImage ramdisk [bootFile]) true ramdisk 100 := by
  refine (rdGetStat_right_iff (bootFile_at []).magic true 100).mpr (.inr ?_)
  have name : headerName (archiveImage ramdisk [bootFile]) ramdisk = bootFile.name.1 := by decide +kernel
  rw [name]
  decide

-- The root, "./".
def rootDir : Entry := ⟨⟨[0x2e, 0x2f], by decide⟩, [0x30], 0x35, rfl, by decide, by decide, by decide⟩

/-- The name of the root has no slash left when its last is cut. -/
theorem rdGetStat_root : ¬ StatRight (archiveImage ramdisk [rootDir]) true ramdisk 100 := by
  intro right
  have fault : rdGetStat (archiveImage ramdisk [rootDir]) true ramdisk 100 = .fault := by decide +kernel
  rw [StatRight, fault] at right
  exact right

end Anthill
