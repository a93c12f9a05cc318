import Anthill.RdServer

set_option autoImplicit false

namespace Anthill

open Bytes (Store)

/-- An entry of the ramdisk with what its blocks hold. -/
structure RdFile extends Node where
  data : List Byte
  whole : data.length = toEntry.size

-- The files with the places of their headers.
def places : Nat → List RdFile → List (Nat × RdFile)
  | _, [] => []
  | h, f :: fs => (h, f) :: places (f.next h) fs

def RdFile.entries (fs : List RdFile) : List Entry := fs.map fun f => f.toEntry

def RdFile.nodes (fs : List RdFile) : List Node := fs.map RdFile.toNode

/-- The ramdisk holds the files. -/
structure Holds (m : Store) (fs : List RdFile) : Prop where
  disk : Ramdisk m (RdFile.nodes fs)
  contents : ∀ x, x ∈ places ramdisk fs → m.bytes (x.1 + sizeofHeader) x.2.data.length = x.2.data

def fileAt (fs : List RdFile) (header : Nat) : Option RdFile :=
  ((places ramdisk fs).find? fun x => x.1 == header).map Prod.snd

def filesBehind (fs : List RdFile) (header : Nat) : List RdFile :=
  ((places ramdisk fs).filter fun x => header < x.1).map Prod.snd

/-- The disk by its files. A path stands for the first file whose name begins with it. Of a directory the entries behind
it are read, those after the one at the offset. The root has no stat record. -/
def archiveDisk (fs : List RdFile) : Disk where
  find _ path := some (((places ramdisk fs).find? fun x => path <+: x.2.name.1.tail).elim 0 Prod.fst)
  kind header := ((fileAt fs header).map fun f => f.type).getD 0
  type header := rdType (((fileAt fs header).map fun f => f.type).getD 0)
  readFile _ header offset count :=
    (fileAt fs header).map fun f => (f.data.drop offset.toNat).take count.toNat
  readDir _ header offset count :=
    (fileAt fs header).bind fun f => pack vfsMaxIounit
      (if offset.toNat ≤ count.toNat then
        (((RdFile.nodes (filesBehind fs header)).filter f.accepts).drop (offset.toNat + 1)).map Node.record
      else [])
  stat _ header := (fileAt fs header).bind fun f => if f.path = [] then none else pack vfsMaxIounit [f.record]

section Places

variable {fs : List RdFile}

theorem places_headers (h : Nat) (fs : List RdFile) :
    (places h fs).map (fun x => (x.1, x.2.toEntry)) = headers h (RdFile.entries fs) := by
  induction fs generalizing h with
  | nil => rfl
  | cons f fs ih =>
    rw [places, List.map_cons, ih]
    rfl

theorem mem_headers {h : Nat} {x : Nat × RdFile} (inside : x ∈ places h fs) :
    (x.1, x.2.toEntry) ∈ headers h (RdFile.entries fs) := by
  rw [← places_headers]
  exact List.mem_map_of_mem inside

theorem places_low {h : Nat} {x : Nat × RdFile} (inside : x ∈ places h fs) : h ≤ x.1 := headers_le _ (mem_headers inside)

/-- What a place splits the files into. -/
theorem places_split {h : Nat} {x : Nat × RdFile} (inside : x ∈ places h fs) : ∃ before after,
    fs = before ++ x.2 :: after ∧ x.1 = archiveEnd h (RdFile.entries before) ∧
      ((places h fs).find? fun y => y.1 == x.1) = some x ∧
        ((places h fs).filter fun y => x.1 < y.1) = places (x.2.next x.1) after := by
  induction fs generalizing h with
  | nil => cases inside
  | cons f fs ih =>
    have behind (y : Nat × RdFile) (member : y ∈ places (f.next h) fs) : h < y.1 := by
      have next := Nat.le_trans (f.le_next h) (places_low member)
      rw [sizeofHeader] at next
      omega
    rcases List.mem_cons.mp inside with rfl | inside
    · refine ⟨[], fs, rfl, rfl, List.find?_cons_of_pos (beq_self_eq_true _), ?_⟩
      rw [places, List.filter_cons_of_neg (by simp)]
      exact List.filter_eq_self.mpr fun y member => decide_eq_true (behind y member)
    · obtain ⟨before, after, is, at_, found, rest⟩ := ih inside
      have low := behind x inside
      refine ⟨f :: before, after, congrArg (f :: ·) is, at_, ?_, ?_⟩
      · rw [places, List.find?_cons_of_neg (by simpa using low.ne), found]
      · rw [places, List.filter_cons_of_neg (by simpa using Nat.le_of_lt low), rest]

theorem map_snd_places (h : Nat) (fs : List RdFile) : (places h fs).map Prod.snd = fs := by
  induction fs generalizing h with
  | nil => rfl
  | cons f fs ih => rw [places, List.map_cons, ih]

variable {m : Store} (holds : Holds m fs) {x : Nat × RdFile} (inside : x ∈ places ramdisk fs)

include inside in
theorem fileAt_place : fileAt fs x.1 = some x.2 := by
  obtain ⟨-, -, -, -, found, -⟩ := places_split inside
  rw [fileAt, found]
  rfl

include holds in
theorem Holds.archive : Archive m ramdisk (RdFile.entries fs) := by
  have archive := holds.disk.archive
  rwa [RdFile.nodes, List.map_map] at archive

include holds inside

theorem Holds.at_place : x.2.At m x.1 := holds.archive.at_headers _ (mem_headers inside)

theorem kind_place : (rdDisk m).kind x.1 = x.2.type ∧ (archiveDisk fs).kind x.1 = x.2.type := by
  refine ⟨(holds.at_place inside).type, ?_⟩
  simp only [archiveDisk, fileAt_place inside, Option.map_some, Option.getD_some]

theorem type_place : (rdDisk m).type x.1 = (archiveDisk fs).type x.1 :=
  congrArg rdType ((kind_place holds inside).1.trans (kind_place holds inside).2.symm)

/-- What is read of a file from an offset that is not behind its end. -/
theorem readFile_place (r : RdRequest) {offset : BitVec 64} (count : BitVec 32) (within : offset.toNat ≤ x.2.data.length) :
    (rdDisk m).readFile r x.1 offset count = some ((x.2.data.drop offset.toNat).take count.toNat) := by
  have at' := holds.at_place inside
  have small := x.2.size_lt
  have bound := offset.isLt
  have counted := count.isLt
  have whole := x.2.whole
  have len : (rdReadFile m x.1 r.readBuf offset count).len.toNat = _ := rdReadFile_len at'.rdGetSize_toNat small
  have long : (rdReadFile m x.1 r.readBuf offset count).len.toNat = min count.toNat (x.2.data.length - offset.toNat) := by
    rw [len, whole]
    split_ifs <;> omega
  have written := m.bytes_write r.readBuf
    (m.bytes (x.1 + sizeofHeader + offset.toNat) (rdReadFile m x.1 r.readBuf offset count).len.toNat)
  rw [Store.length_bytes] at written
  refine congrArg some (written.trans ?_)
  obtain ⟨rest, is⟩ := Nat.exists_eq_add_of_le within
  have contents := holds.contents x inside
  rw [is, Store.bytes_add] at contents
  rw [long, is, Nat.add_sub_cancel_left, ← contents, List.drop_left' (m.length_bytes ..), Store.take_bytes]

theorem readDir_place (r : RdRequest) (dir : x.2.type = rdtDir) (offset : BitVec 64) (count : BitVec 32)
    (allocated : r.allocated = true) (enough : fs.length < r.fuel) :
    (rdDisk m).readDir r x.1 offset count = (archiveDisk fs).readDir r x.1 offset count := by
  obtain ⟨before, after, is, at_, -, rest⟩ := places_split inside
  have nodes : RdFile.nodes fs = RdFile.nodes before ++ x.2.toNode :: RdFile.nodes after := by
    rw [is]
    exact List.map_append
  have behind : RdFile.nodes (filesBehind fs x.1) = RdFile.nodes after := by
    rw [filesBehind, rest, map_snd_places]
  have few : (RdFile.nodes after).length < r.fuel := by
    rw [is, List.length_append, List.length_cons] at enough
    rw [RdFile.nodes, List.length_map]
    omega
  have header : x.1 = archiveEnd ramdisk ((RdFile.nodes before).map Node.toEntry) := by
    rw [at_, RdFile.nodes, List.map_map]
    rfl
  have packs := rdReadDir_packs holds.disk nodes dir offset count vfsMaxIounit few
  rw [← header] at packs
  simp only [rdDisk, archiveDisk, fileAt_place inside, Option.bind_some, behind, allocated, packs, DirRead.packed]
  generalize pack vfsMaxIounit _ = packed
  cases packed with
  | none => rfl
  | some bytes => exact congrArg some (List.nil_append bytes)

/-- The name of the root has no component for rd_get_name to cut out. -/
theorem rdGetStat_rootless (root : x.2.path = []) : rdGetStat m true x.1 vfsMaxIounit = .fault := by
  have at' := holds.at_place inside
  obtain ⟨rest, whole⟩ := at'.whole
  have own := (Store.bytes_append at'.name).1
  have found : strlen (m.bytes x.1 sizeofHeader) = some x.2.name.1.length := whole ▸ strlen_found x.2.name.2
  have dir : x.2.type = rdtDir := Decidable.byContradiction fun other => x.2.file other root
  have name : x.2.name.1 = [0x2e, 0x2f] := by
    rw [x.2.named', root, if_pos dir]
    rfl
  rw [rdGetStat_large true (by decide), rdGetName_cut found, own, name, if_neg (by decide)]
  rfl

theorem stat_place (r : RdRequest) (allocated : r.allocated = true) :
    (rdDisk m).stat r x.1 = (archiveDisk fs).stat r x.1 := by
  simp only [rdDisk, archiveDisk, fileAt_place inside, Option.bind_some, allocated]
  split_ifs with root
  · rw [rdGetStat_rootless holds inside root]
  · have large : ¬vfsMaxIounit < sizeofQid + sizeofLength := by decide
    obtain ⟨reads, put⟩ := x.2.toNode.stat (holds.at_place inside) root large
    rw [put, pack, if_neg large]
    split_ifs
    · rfl
    · simp [pack]

end Places

section Find

variable {m : Store} {fs : List RdFile} (holds : Holds m fs) (r : RdRequest)

-- The header behind the last entry too is as it was.
theorem Archive.keep {m m' : Store} {h : Nat} {es : List Entry} (archive : Archive m h es)
    (same : ∀ x, h ≤ x → x < archiveEnd h es + sizeofHeader → m' x = m x) : Archive m' h es := by
  induction es generalizing h with
  | nil => exact (isHeader_congr same).trans archive
  | cons e es ih =>
    have next := e.le_next h
    have last := le_archiveEnd (e.next h) es
    refine ⟨archive.1.congr fun x low high => same x low ?_, ih archive.2 fun x low high => same x (by omega) high⟩
    rw [archiveEnd]
    omega

/-- The path that is put before a search. -/
theorem pstringAt_put (m : Store) (at_ : Nat) (path : List Byte) (short : path.length < 2 ^ 16) :
    (pstringAt (m.write at_ (Bytes.split (BitVec.ofNat 16 path.length) shrtSize ++ path)) at_).1 = path := by
  have size : (BitVec.ofNat 16 path.length).toNat = path.length := by
    rw [BitVec.toNat_ofNat, Nat.mod_eq_of_lt short]
  have stored := Store.bytes_append (m.bytes_write at_ (Bytes.split (BitVec.ofNat 16 path.length) shrtSize ++ path))
  rw [Bytes.length_split] at stored
  have length : getUshort (m.write at_ (Bytes.split (BitVec.ofNat 16 path.length) shrtSize ++ path)) at_ =
      BitVec.ofNat 16 path.length := by
    rw [getUshort_eq]
    exact (congrArg (Bytes.combine 16) stored.1).trans (Bytes.combine_split _ _ (BitVec.isLt _))
  show Store.bytes _ (at_ + shrtSize) (getUshort _ at_).toNat = path
  rw [length, size]
  exact stored.2

include holds in
/-- A path without a NUL is looked for by its name, wherever it lies outside of the disk. -/
theorem find_place {path : List Byte} (nonzero : 0 ∉ path) (short : path.length < 2 ^ 16)
    (outside : r.path + shrtSize + path.length ≤ ramdisk ∨
      archiveEnd ramdisk (RdFile.entries fs) + sizeofHeader ≤ r.path) (enough : fs.length < r.fuel) :
    (rdDisk m).find r path = (archiveDisk fs).find r path := by
  have size : (Bytes.split (BitVec.ofNat 16 path.length) shrtSize ++ path).length = shrtSize + path.length := by
    rw [List.length_append, Bytes.length_split]
  have archive : Archive (m.write r.path (Bytes.split (BitVec.ofNat 16 path.length) shrtSize ++ path)) ramdisk
      (RdFile.entries fs) := holds.archive.keep fun x low high => m.write_outside _ _ x (by rw [size]; omega)
  have few : (RdFile.entries fs).length < r.fuel := by rwa [RdFile.entries, List.length_map]
  have found :
      (rdFindLoop (m.write r.path (Bytes.split (BitVec.ofNat 16 path.length) shrtSize ++ path)) r.path r.fuel ramdisk).map
        _ = _ := rdFindLoop_archive archive (by decide) few
  rw [pstringAt_put m r.path path short] at found
  have same : (places ramdisk fs).find? (fun x => decide (path <+: x.2.name.1.tail)) =
      (places ramdisk fs).find? fun x => begins
        (m.write r.path (Bytes.split (BitVec.ofNat 16 path.length) shrtSize ++ path)) path (x.1, x.2.toEntry) := by
    refine List.find?_congr fun x member => Bool.eq_iff_iff.mpr ?_
    rw [decide_eq_true_iff]
    exact (begins_name_iff (archive.at_headers _ (mem_headers member)) nonzero).symm
  have answer (first : Option (Nat × RdFile)) :
      (first.map fun x => (x.1, x.2.toEntry)).elim 0 Prod.fst = first.elim 0 Prod.fst := by cases first <;> rfl
  rw [← places_headers, List.find?_map] at found
  simp only [archiveDisk, same]
  exact found.trans (congrArg some (answer _))

end Find

end Anthill
