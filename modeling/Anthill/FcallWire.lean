import Anthill.Fcall

set_option autoImplicit false

namespace Anthill

open Bytes (Store Counted Delimited split combine)

-- What a message carries, in the words of the union, with the variable data in place of the pointers to it.
inductive Field where
  | fid | msize | version | ename | afid | uname | aname | qid | iounit | newfid | wname | wqid | name | perm | mode
  | offset | count | data | stat | mfid
deriving DecidableEq

abbrev Field.Value : Field → Type
  | .fid | .msize | .afid | .iounit | .newfid | .perm | .count | .mfid => BitVec 32
  | .version | .ename | .uname | .aname | .name | .stat => Counted 16 Byte
  | .qid => Qid
  | .wname => Counted 16 (Counted 16 Byte)
  | .wqid => Counted 16 Qid
  | .mode => Byte
  | .offset => BitVec 64
  | .data => Counted 32 Byte

def pstringWire (s : Counted 16 Byte) : List Byte := s.wire shrtSize fun b => [b]

def Qid.wire (qid : Qid) : List Byte := split qid.type 4 ++ (split qid.version 4 ++ split qid.id 8)

def Field.wire : (d : Field) → d.Value → List Byte
  | .fid, v | .msize, v | .afid, v | .iounit, v | .newfid, v | .perm, v | .count, v | .mfid, v => split v intSize
  | .version, s | .ename, s | .uname, s | .aname, s | .name, s | .stat, s => pstringWire s
  | .qid, q => q.wire
  | .wname, names => names.wire shrtSize pstringWire
  | .wqid, qids => qids.wire shrtSize Qid.wire
  | .mode, v => split v charSize
  | .offset, v => split v longSize
  | .data, bs => bs.wire intSize fun b => [b]

def FcallType.fields : FcallType → Option (List Field)
  | .tversion | .rversion => some [.msize, .version]
  | .terror => none
  | .rerror => some [.ename]
  | .tattach => some [.fid, .afid, .uname, .aname]
  | .rattach | .rmount => some [.qid]
  | .twalk => some [.fid, .newfid, .wname]
  | .rwalk => some [.wqid]
  | .topen => some [.fid, .mode]
  | .ropen | .rcreate => some [.qid, .iounit]
  | .tcreate => some [.fid, .name, .perm, .mode]
  | .tread => some [.fid, .offset, .count]
  | .rread => some [.data]
  | .twrite => some [.fid, .offset, .data]
  | .rwrite => some [.count]
  | .tclunk | .tstat => some [.fid]
  | .rclunk => some []
  | .rstat => some [.stat]
  | .tmount => some [.fid, .mfid]

theorem pstringWire_delimited : Delimited pstringWire :=
  Counted.delimited shrtSize (by decide) Bytes.singleton_delimited

theorem Qid.wire_delimited : Delimited Qid.wire := by
  have parts : Delimited fun x : BitVec 32 × BitVec 32 × BitVec 64 => split x.1 4 ++ (split x.2.1 4 ++ split x.2.2 8) :=
    (Bytes.split_delimited 4 (by decide)).append
      ((Bytes.split_delimited 4 (by decide)).append (Bytes.split_delimited 8 (by decide)))
  refine parts.map (f := fun qid : Qid => (qid.type, qid.version, qid.id)) fun x y same => ?_
  cases x
  cases y
  simpa using same

theorem Field.wire_delimited (d : Field) : Delimited d.wire := by
  cases d with
  | fid | msize | afid | iounit | newfid | perm | count | mfid => exact Bytes.split_delimited (w := 32) intSize (by decide)
  | version | ename | uname | aname | name | stat => exact pstringWire_delimited
  | qid => exact Qid.wire_delimited
  | wname => exact Counted.delimited shrtSize (by decide) pstringWire_delimited
  | wqid => exact Counted.delimited shrtSize (by decide) Qid.wire_delimited
  | mode => exact Bytes.split_delimited (w := 8) charSize (by decide)
  | offset => exact Bytes.split_delimited (w := 64) longSize (by decide)
  | data => exact Counted.delimited intSize (by decide) Bytes.singleton_delimited

def bodyWire (values : (d : Field) → d.Value) (ds : List Field) : List Byte := ds.flatMap fun d => d.wire (values d)

theorem bodyWire_delimited (u v : (d : Field) → d.Value) (ds : List Field) (r s : List Byte)
    (same : bodyWire u ds ++ r = bodyWire v ds ++ s) : (∀ d, d ∈ ds → u d = v d) ∧ r = s := by
  induction ds with
  | nil => exact ⟨fun d member => absurd member List.not_mem_nil, same⟩
  | cons d ds ih =>
    rw [bodyWire, bodyWire, List.flatMap_cons, List.flatMap_cons, List.append_assoc, List.append_assoc] at same
    obtain ⟨head, same⟩ := d.wire_delimited _ _ _ _ same
    obtain ⟨tail, rest⟩ := ih same
    refine ⟨fun e member => ?_, rest⟩
    rcases List.mem_cons.mp member with rfl | later
    · exact head
    · exact tail e later

-- What lies in memory.

theorem getUshort_eq (m : Store) (p : Nat) : getUshort m p = combine 16 (m.bytes p 2) := by
  simp [getUshort, Store.bytes, combine]

theorem getUint_eq (m : Store) (p : Nat) : getUint m p = combine 32 (m.bytes p 4) := by
  simp only [getUint, Store.bytes, combine, BitVec.zero_shiftLeft, BitVec.or_zero, BitVec.shiftLeft_or_distrib,
    ← BitVec.shiftLeft_add, BitVec.or_assoc]

theorem getUlong_eq (m : Store) (p : Nat) : getUlong m p = combine 64 (m.bytes p 8) := by
  rw [getUlong, getUint_eq, getUint_eq, Bytes.combine_setWidth 64 _ (by simp), Bytes.combine_setWidth 64 _ (by simp),
    m.bytes_add p 4 4, Bytes.combine_append, Store.length_bytes]

theorem split_getUshort (m : Store) (p : Nat) : split (getUshort m p) 2 = m.bytes p 2 := by
  have back := Bytes.split_combine (w := 16) (m.bytes p 2) (by simp)
  rwa [Store.length_bytes, ← getUshort_eq] at back

theorem split_getUint (m : Store) (p : Nat) : split (getUint m p) 4 = m.bytes p 4 := by
  have back := Bytes.split_combine (w := 32) (m.bytes p 4) (by simp)
  rwa [Store.length_bytes, ← getUint_eq] at back

theorem split_getUlong (m : Store) (p : Nat) : split (getUlong m p) 8 = m.bytes p 8 := by
  have back := Bytes.split_combine (w := 64) (m.bytes p 8) (by simp)
  rwa [Store.length_bytes, ← getUlong_eq] at back

theorem flatMap_byte (bs : List Byte) : (bs.flatMap fun b => [b]) = bs := by
  induction bs with
  | nil => rfl
  | cons b bs ih => rw [List.flatMap_cons, ih, List.singleton_append]

-- The string, path, qid list and block of data at an address.

def pstringAt (m : Store) (s : Nat) : Counted 16 Byte :=
  ⟨m.bytes (s + shrtSize) (getUshort m s).toNat, by simpa using (getUshort m s).isLt⟩

def pathAt (m : Store) : Nat → Nat → List (Counted 16 Byte)
  | _, 0 => []
  | ptr, n + 1 => pstringAt m ptr :: pathAt m (ptr + pstrlen m ptr) n

def qidAt (m : Store) (ptr : Nat) : Qid := ⟨getUint m ptr, getUint m (ptr + 4), getUlong m (ptr + 8)⟩

def qidsAt (m : Store) : Nat → Nat → List Qid
  | _, 0 => []
  | ptr, n + 1 => qidAt m ptr :: qidsAt m (ptr + sizeofQid) n

@[simp] theorem length_pathAt (m : Store) (ptr n : Nat) : (pathAt m ptr n).length = n := by
  induction n generalizing ptr with
  | zero => rfl
  | succ n ih => rw [pathAt, List.length_cons, ih]

@[simp] theorem length_qidsAt (m : Store) (ptr n : Nat) : (qidsAt m ptr n).length = n := by
  induction n generalizing ptr with
  | zero => rfl
  | succ n ih => rw [qidsAt, List.length_cons, ih]

theorem pstringAt_wire (m : Store) (s : Nat) : pstringWire (pstringAt m s) = m.bytes s (pstrlen m s) := by
  rw [pstringWire, Counted.wire, flatMap_byte, pstringAt, Store.length_bytes, BitVec.ofNat_toNat, BitVec.setWidth_eq,
    pstrlen, Store.bytes_add]
  exact congrArg (· ++ _) (split_getUshort m s)

theorem pathAt_wire (m : Store) (ptr n : Nat) :
    (pathAt m ptr n).flatMap pstringWire = m.bytes ptr (pathLength m ptr n) := by
  induction n generalizing ptr with
  | zero => rfl
  | succ n ih => rw [pathAt, List.flatMap_cons, ih, pstringAt_wire, pathLength, Store.bytes_add]

theorem qidAt_wire (m : Store) (ptr : Nat) : (qidAt m ptr).wire = m.bytes ptr sizeofQid := by
  have parts := m.bytes_add ptr 4 (4 + 8)
  rw [m.bytes_add (ptr + 4) 4 8] at parts
  rw [qidAt, Qid.wire, split_getUint, split_getUint, split_getUlong]
  exact parts.symm

theorem qidsAt_wire (m : Store) (ptr n : Nat) :
    (qidsAt m ptr n).flatMap Qid.wire = m.bytes ptr (sizeofQid * n) := by
  induction n generalizing ptr with
  | zero => rfl
  | succ n ih => rw [qidsAt, List.flatMap_cons, ih, qidAt_wire, Nat.mul_succ,
      Nat.add_comm (sizeofQid * n), Store.bytes_add]

def Fcall.value (m : Store) (fcall : Fcall) : (d : Field) → d.Value
  | .fid => fcall.fid
  | .msize => fcall.msize
  | .version => pstringAt m fcall.version
  | .ename => pstringAt m fcall.ename
  | .afid => fcall.afid
  | .uname => pstringAt m fcall.uname
  | .aname => pstringAt m fcall.aname
  | .qid => fcall.qid
  | .iounit => fcall.iounit
  | .newfid => fcall.newfid
  | .wname => ⟨pathAt m fcall.wname fcall.nwname.toNat, by simpa using fcall.nwname.isLt⟩
  | .wqid => ⟨qidsAt m fcall.wqid fcall.nwqid.toNat, by simpa using fcall.nwqid.isLt⟩
  | .name => pstringAt m fcall.name
  | .perm => fcall.perm
  | .mode => fcall.mode
  | .offset => fcall.offset
  | .count => fcall.count
  | .data => ⟨m.bytes fcall.data fcall.count.toNat, by simpa using fcall.count.isLt⟩
  | .stat => ⟨m.bytes fcall.stat fcall.nstat.toNat, by simpa using fcall.nstat.isLt⟩
  | .mfid => fcall.mfid

-- The address and length of a field's variable data.
def Fcall.extent (m : Store) (fcall : Fcall) : Field → Option (Nat × Nat)
  | .version => some (fcall.version, pstrlen m fcall.version)
  | .ename => some (fcall.ename, pstrlen m fcall.ename)
  | .uname => some (fcall.uname, pstrlen m fcall.uname)
  | .aname => some (fcall.aname, pstrlen m fcall.aname)
  | .name => some (fcall.name, pstrlen m fcall.name)
  | .wname => some (fcall.wname, pathLength m fcall.wname fcall.nwname.toNat)
  | .wqid => some (fcall.wqid, sizeofQid * fcall.nwqid.toNat)
  | .data => some (fcall.data, fcall.count.toNat)
  | .stat => some (fcall.stat, fcall.nstat.toNat)
  | .fid | .msize | .afid | .qid | .iounit | .newfid | .perm | .mode | .offset | .count | .mfid => none

-- What fcall_msg_size adds for a field.
def Fcall.size (m : Store) (fcall : Fcall) : Field → Nat
  | .fid | .msize | .afid | .iounit | .newfid | .perm | .count | .mfid => intSize
  | .version => pstrlen m fcall.version
  | .ename => pstrlen m fcall.ename
  | .uname => pstrlen m fcall.uname
  | .aname => pstrlen m fcall.aname
  | .name => pstrlen m fcall.name
  | .wname => shrtSize + pathLength m fcall.wname fcall.nwname.toNat
  | .wqid => shrtSize + sizeofQid * fcall.nwqid.toNat
  | .data => intSize + fcall.count.toNat
  | .stat => shrtSize + fcall.nstat.toNat
  | .qid => sizeofQid
  | .mode => charSize
  | .offset => longSize

theorem FcallType.ofCode_code (t : FcallType) : FcallType.ofCode t.code = some t := by
  cases t <;> rfl

theorem FcallType.code_ofCode {b : Byte} {t : FcallType} (found : FcallType.ofCode b = some t) : t.code = b := by
  simpa using List.find?_some found

theorem Field.length_wire (m : Store) (fcall : Fcall) (d : Field) :
    (d.wire (fcall.value m d)).length = fcall.size m d := by
  cases d with
  | fid | msize | afid | iounit | newfid | perm | count | mfid | mode | offset => exact Bytes.length_split _ _
  | version | ename | uname | aname | name =>
    simp only [Field.wire, Fcall.value, pstringAt_wire, Store.length_bytes, Fcall.size]
  | qid => simp [Field.wire, Qid.wire, Fcall.size, sizeofQid]
  | wname =>
    simp only [Field.wire, Fcall.value, Counted.wire, pathAt_wire, List.length_append, Bytes.length_split,
      Store.length_bytes, Fcall.size]
  | wqid =>
    simp only [Field.wire, Fcall.value, Counted.wire, qidsAt_wire, List.length_append, Bytes.length_split,
      Store.length_bytes, Fcall.size]
  | data | stat =>
    simp only [Field.wire, pstringWire, Fcall.value, Counted.wire, flatMap_byte, List.length_append, Bytes.length_split,
      Store.length_bytes, Fcall.size]

def Fcall.wire (m : Store) (fcall : Fcall) (ds : List Field) : List Byte :=
  split (fcallMsgSize m fcall) intSize ++
    (split fcall.type charSize ++ (split fcall.tag shrtSize ++ bodyWire (fcall.value m) ds))

theorem fcallSize_eq (m : Store) (fcall : Fcall) (t : FcallType) (ds : List Field)
    (type : FcallType.ofCode fcall.type = some t) (fields : t.fields = some ds) :
    fcallSize m fcall = (fcall.wire m ds).length := by
  have body : (fcall.wire m ds).length = 7 + (bodyWire (fcall.value m) ds).length := by
    simp only [Fcall.wire, List.length_append, Bytes.length_split, intSize, charSize, shrtSize]
    omega
  rw [body, fcallSize, type]
  cases t <;> cases fields <;>
    simp only [bodyWire, List.flatMap_cons, List.flatMap_nil, List.length_append, List.length_nil, Field.length_wire,
      Fcall.size, intSize, charSize, shrtSize, longSize, sizeofQid] <;> omega

-- Encoding.

theorem Sink.emit_append (o : Sink) (xs ys : List Byte) : o.emit (xs ++ ys) = (o.emit xs).emit ys :=
  List.foldl_append

theorem Sink.emit_eq (o : Sink) (bs : List Byte) : o.emit bs = ⟨o.mem.write o.ptr bs, o.ptr + bs.length⟩ := by
  induction bs generalizing o with
  | nil => rfl
  | cons b bs ih =>
    rw [emit, List.foldl_cons]
    exact (ih (o.byte b)).trans (by rw [byte, Store.write, List.length_cons, Nat.add_right_comm, Nat.add_assoc])

theorem Sink.putUshort_eq (o : Sink) (val : BitVec 16) : o.putUshort val = o.emit (split val 2) := rfl

theorem Sink.putUint_eq (o : Sink) (val : BitVec 32) : o.putUint val = o.emit (split val 4) := by
  simp only [putUint, split, ← BitVec.shiftRight_add]
  rfl

theorem Sink.putUlong_eq (o : Sink) (val : BitVec 64) : o.putUlong val = o.emit (split val 8) := by
  simp only [putUlong, split, ← BitVec.shiftRight_add]
  rfl

theorem Sink.putQid_eq (o : Sink) (qid : Qid) : o.putQid qid = o.emit qid.wire := by
  rw [putQid, putUint_eq, putUint_eq, putUlong_eq, Qid.wire, emit_append, emit_append]

-- While the bytes are written, memory in the given extent reads as in m.
def Steady (m : Store) (o : Sink) (bs : List Byte) (extent : Nat × Nat) : Prop :=
  ∀ k a, extent.1 ≤ a → a < extent.1 + extent.2 → (o.emit (bs.take k)).mem a = m a

section Steady

variable {m : Store} {o : Sink} {bs : List Byte} {extent : Nat × Nat}

theorem Steady.start (steady : Steady m o bs extent) (a : Nat) (low : extent.1 ≤ a) (high : a < extent.1 + extent.2) :
    o.mem a = m a := steady 0 a low high

theorem Steady.within (steady : Steady m o bs extent) (ptr n : Nat) (low : extent.1 ≤ ptr)
    (high : ptr + n ≤ extent.1 + extent.2) : Steady m o bs (ptr, n) :=
  fun k a above below => steady k a (low.trans above) (below.trans_le high)

theorem Steady.left {xs ys : List Byte} (steady : Steady m o (xs ++ ys) extent) : Steady m o xs extent := by
  intro k a low high
  have same := steady (min k xs.length) a low high
  rw [List.take_append_of_le_length (Nat.min_le_right k xs.length)] at same
  rcases Nat.le_total k xs.length with short | long
  · rwa [Nat.min_eq_left short] at same
  · rwa [Nat.min_eq_right long, List.take_length, ← List.take_of_length_le long] at same

theorem Steady.right {xs ys : List Byte} (steady : Steady m o (xs ++ ys) extent) : Steady m (o.emit xs) ys extent := by
  intro k a low high
  have same := steady (xs.length + k) a low high
  rwa [List.take_length_add_append, Sink.emit_append] at same

theorem Steady.bytes (steady : Steady m o bs extent) (ptr n : Nat) (low : extent.1 ≤ ptr)
    (high : ptr + n ≤ extent.1 + extent.2) : o.mem.bytes ptr n = m.bytes ptr n :=
  Store.bytes_congr fun x above below => steady.start x (low.trans above) (below.trans_le high)

end Steady

theorem pstrlen_congr {m m' : Store} {s : Nat} (same : m'.bytes s 2 = m.bytes s 2) : pstrlen m' s = pstrlen m s := by
  rw [pstrlen, pstrlen, getUshort_eq, getUshort_eq, same]

theorem Sink.copy_eq (m : Store) (o : Sink) (s : Nat)
    (steady : Steady m o (m.bytes s (pstrlen m s)) (s, pstrlen m s)) (fuel i : Nat) (inside : i ≤ pstrlen m s)
    (enough : pstrlen m s ≤ i + fuel) :
    copy s fuel i (o.emit ((m.bytes s (pstrlen m s)).take i)) = o.emit (m.bytes s (pstrlen m s)) := by
  have whole := List.take_of_length_le (Nat.le_of_eq (m.length_bytes s (pstrlen m s)))
  induction fuel generalizing i with
  | zero =>
    obtain rfl : i = pstrlen m s := by omega
    rw [copy, whole]
  | succ fuel ih =>
    have same (x : Nat) (low : s ≤ x) (high : x < s + pstrlen m s) := steady i x low high
    have long : pstrlen (o.emit ((m.bytes s (pstrlen m s)).take i)).mem s = pstrlen m s :=
      pstrlen_congr (Store.bytes_congr fun x low high =>
        same x low (high.trans_le (Nat.add_le_add_left (Nat.le_add_right shrtSize _) s)))
    rw [copy, long]
    split
    · next more =>
      have next : (m.bytes s (pstrlen m s)).take (i + 1) = (m.bytes s (pstrlen m s)).take i ++ [m (s + i)] := by
        obtain ⟨rest, split⟩ := Nat.exists_eq_add_of_lt more
        rw [split, Nat.add_assoc, m.bytes_add s i (rest + 1)]
        simp [List.take_append, Store.bytes]
      rw [same (s + i) (by omega) (by omega)]
      rw [← ih (i + 1) more (by omega), next, emit_append]
      rfl
    · next done =>
      obtain rfl : i = pstrlen m s := by omega
      rw [whole]

theorem Sink.putPstring_eq (m : Store) (o : Sink) (s : Nat)
    (steady : Steady m o (m.bytes s (pstrlen m s)) (s, pstrlen m s)) :
    o.putPstring s = o.emit (m.bytes s (pstrlen m s)) := by
  have short : pstrlen m s < shrtSize + 2 ^ 16 := Nat.add_lt_add_left (getUshort m s).isLt shrtSize
  have front : (m.bytes s (pstrlen m s)).take shrtSize = m.bytes s 2 := by
    rw [pstrlen, m.bytes_add s shrtSize]
    simp [shrtSize]
  have len : getUshort o.mem s = getUshort m s := by
    rw [getUshort_eq, getUshort_eq, steady.bytes s 2 (Nat.le_refl s) (Nat.add_le_add_left (Nat.le_add_right 2 _) s)]
  rw [putPstring, len, putUshort_eq, split_getUshort, ← front]
  exact Sink.copy_eq m o s steady (2 ^ 16) shrtSize (Nat.le_add_right shrtSize _) short.le

theorem Sink.putPath_eq (m : Store) (o : Sink) (s n : Nat)
    (steady : Steady m o (m.bytes s (pathLength m s n)) (s, pathLength m s n)) :
    putPath s n o = o.emit (m.bytes s (pathLength m s n)) := by
  induction n generalizing o s with
  | zero => rfl
  | succ n ih =>
    rw [pathLength, m.bytes_add] at steady
    have first := Sink.putPstring_eq m o s (steady.left.within s _ (Nat.le_refl s) (by simp only; omega))
    have rest := steady.right.within (s + pstrlen m s) (pathLength m (s + pstrlen m s) n) (by simp only; omega)
      (by simp only; omega)
    have long : pstrlen (o.emit (m.bytes s (pstrlen m s))).mem s = pstrlen m s :=
      pstrlen_congr (steady.right.bytes s 2 (Nat.le_refl s) (by simp only [pstrlen, shrtSize]; omega))
    rw [putPath, first, long, ih _ _ rest, ← emit_append, ← m.bytes_add, pathLength]

theorem Sink.putQidAt_eq (m : Store) (o : Sink) (ptr : Nat)
    (steady : Steady m o (m.bytes ptr sizeofQid) (ptr, sizeofQid)) :
    o.putQidAt ptr = o.emit (m.bytes ptr sizeofQid) := by
  have parts : m.bytes ptr sizeofQid = m.bytes ptr 4 ++ (m.bytes (ptr + 4) 4 ++ m.bytes (ptr + 8) 8) := by
    rw [← m.bytes_add, ← m.bytes_add]
    rfl
  rw [parts] at steady
  have type : o.putUint (getUint o.mem ptr) = o.emit (m.bytes ptr 4) := by
    rw [putUint_eq, split_getUint, steady.bytes ptr 4 (Nat.le_refl ptr) (by simp only [sizeofQid]; omega)]
  have version : (o.emit (m.bytes ptr 4)).putUint (getUint (o.emit (m.bytes ptr 4)).mem (ptr + 4)) =
      (o.emit (m.bytes ptr 4)).emit (m.bytes (ptr + 4) 4) := by
    rw [putUint_eq, split_getUint, steady.right.bytes (ptr + 4) 4 (by simp only; omega)
      (by simp only [sizeofQid]; omega)]
  simp only [putQidAt]
  rw [type, version, putUlong_eq, split_getUlong, steady.right.right.bytes (ptr + 8) 8 (by simp only; omega)
    (by simp only [sizeofQid]; omega), parts, emit_append, emit_append]

theorem Sink.putQids_eq (m : Store) (o : Sink) (wqid n : Nat)
    (steady : Steady m o (m.bytes wqid (sizeofQid * n)) (wqid, sizeofQid * n)) :
    putQids wqid n o = o.emit (m.bytes wqid (sizeofQid * n)) := by
  induction n generalizing o wqid with
  | zero => rfl
  | succ n ih =>
    rw [Nat.mul_succ, Nat.add_comm (sizeofQid * n), m.bytes_add] at steady
    have first := Sink.putQidAt_eq m o wqid (steady.left.within wqid _ (Nat.le_refl wqid) (by simp only; omega))
    have rest := steady.right.within (wqid + sizeofQid) (sizeofQid * n) (by simp only; omega) (by simp only; omega)
    rw [putQids, first, ih _ _ rest, ← emit_append, ← m.bytes_add, Nat.mul_succ, Nat.add_comm (sizeofQid * n)]

theorem Sink.memmove_eq (m : Store) (o : Sink) (src n : Nat) (steady : Steady m o (m.bytes src n) (src, n)) :
    o.memmove src n = o.emit (m.bytes src n) := by
  rw [memmove, steady.bytes src n (Nat.le_refl src) (Nat.le_refl _)]

-- The puts of fcall_msg_to_buf for a field.
def Field.put (fcall : Fcall) : Field → Sink → Sink
  | .fid, o => o.putUint fcall.fid
  | .msize, o => o.putUint fcall.msize
  | .version, o => o.putPstring fcall.version
  | .ename, o => o.putPstring fcall.ename
  | .afid, o => o.putUint fcall.afid
  | .uname, o => o.putPstring fcall.uname
  | .aname, o => o.putPstring fcall.aname
  | .qid, o => o.putQid fcall.qid
  | .iounit, o => o.putUint fcall.iounit
  | .newfid, o => o.putUint fcall.newfid
  | .wname, o => Sink.putPath fcall.wname fcall.nwname.toNat (o.putUshort fcall.nwname)
  | .wqid, o => Sink.putQids fcall.wqid fcall.nwqid.toNat (o.putUshort fcall.nwqid)
  | .name, o => o.putPstring fcall.name
  | .perm, o => o.putUint fcall.perm
  | .mode, o => o.putUchar fcall.mode
  | .offset, o => o.putUlong fcall.offset
  | .count, o => o.putUint fcall.count
  | .data, o => (o.putUint fcall.count).memmove fcall.data fcall.count.toNat
  | .stat, o => (o.putUshort fcall.nstat).memmove fcall.stat fcall.nstat.toNat
  | .mfid, o => o.putUint fcall.mfid

theorem split_count (w n : Nat) (v : BitVec w) : split (BitVec.ofNat w v.toNat) n = split v n := by
  rw [BitVec.ofNat_toNat, BitVec.setWidth_eq]

theorem Field.put_eq (m : Store) (fcall : Fcall) (d : Field) (o : Sink)
    (steady : ∀ e, fcall.extent m d = some e → Steady m o (d.wire (fcall.value m d)) e) :
    d.put fcall o = o.emit (d.wire (fcall.value m d)) := by
  cases d with
  | fid | msize | afid | iounit | newfid | perm | count | mfid => exact o.putUint_eq _
  | mode => rfl
  | offset => exact o.putUlong_eq _
  | qid => exact o.putQid_eq _
  | version | ename | uname | aname | name =>
    have steady := steady _ rfl
    simp only [Field.wire, Fcall.value, pstringAt_wire] at steady ⊢
    exact Sink.putPstring_eq m o _ steady
  | wname =>
    have steady := steady _ rfl
    simp only [Field.wire, Fcall.value, Counted.wire, pathAt_wire, length_pathAt, split_count] at steady ⊢
    rw [Sink.emit_append]
    exact Sink.putPath_eq m _ _ _ steady.right
  | wqid =>
    have steady := steady _ rfl
    simp only [Field.wire, Fcall.value, Counted.wire, qidsAt_wire, length_qidsAt, split_count] at steady ⊢
    rw [Sink.emit_append]
    exact Sink.putQids_eq m _ _ _ steady.right
  | data =>
    have steady := steady _ rfl
    simp only [Field.wire, Fcall.value, Counted.wire, flatMap_byte, Store.length_bytes, split_count] at steady ⊢
    rw [Field.put, Sink.emit_append, Sink.putUint_eq]
    exact Sink.memmove_eq m _ _ _ steady.right
  | stat =>
    have steady := steady _ rfl
    simp only [Field.wire, pstringWire, Fcall.value, Counted.wire, flatMap_byte, Store.length_bytes, split_count]
      at steady ⊢
    rw [Field.put, Sink.emit_append]
    exact Sink.memmove_eq m _ _ _ steady.right

theorem puts_eq (m : Store) (fcall : Fcall) (ds : List Field) (o : Sink)
    (steady : ∀ d, d ∈ ds → ∀ e, fcall.extent m d = some e → Steady m o (bodyWire (fcall.value m) ds) e) :
    ds.foldl (fun o d => d.put fcall o) o = o.emit (bodyWire (fcall.value m) ds) := by
  induction ds generalizing o with
  | nil => rfl
  | cons d ds ih =>
    have first := d.put_eq m fcall o fun e lies => (steady d List.mem_cons_self e lies).left
    rw [List.foldl_cons, first, ih _ fun d' member e lies => (steady d' (List.mem_cons_of_mem d member) e lies).right,
      bodyWire, bodyWire, List.flatMap_cons, Sink.emit_append]

theorem fcallMsgToBuf_eq (m : Store) (fcall : Fcall) (buf : Nat) (length : BitVec 32) (t : FcallType) (ds : List Field)
    (type : FcallType.ofCode fcall.type = some t) (fields : t.fields = some ds)
    (fits : fcallSize m fcall ≤ length.toNat)
    (steady : ∀ d, d ∈ ds → ∀ e, fcall.extent m d = some e → Steady m ⟨m, buf⟩ (fcall.wire m ds) e) :
    fcallMsgToBuf m fcall buf length = (fcallMsgSize m fcall, m.write buf (fcall.wire m ds)) := by
  have long := fcallSize_eq m fcall t ds type fields
  have small := fits.trans_lt length.isLt
  have positive : 0 < fcallSize m fcall := by
    simp only [long, Fcall.wire, List.length_append, Bytes.length_split, intSize]
    omega
  have size : (fcallMsgSize m fcall).toNat = fcallSize m fcall := by
    rw [fcallMsgSize, BitVec.toNat_ofNat, Nat.mod_eq_of_lt small]
  have accepted : ¬(fcallMsgSize m fcall = 0 ∨ length < fcallMsgSize m fcall) := by
    rintro (zero | beyond)
    · rw [zero] at size
      exact absurd size.symm (Nat.pos_iff_ne_zero.mp positive)
    · rw [BitVec.lt_def, size] at beyond
      exact absurd beyond (Nat.not_lt.mpr fits)
  have header : (((Sink.mk m buf).putUint (fcallMsgSize m fcall)).putUchar fcall.type).putUshort fcall.tag =
      (((Sink.mk m buf).emit (split (fcallMsgSize m fcall) intSize)).emit (split fcall.type charSize)).emit
        (split fcall.tag shrtSize) := by
    rw [Sink.putUint_eq]
    rfl
  have whole : ds.foldl (fun o d => d.put fcall o)
      ((((Sink.mk m buf).putUint (fcallMsgSize m fcall)).putUchar fcall.type).putUshort fcall.tag) =
      (Sink.mk m buf).emit (fcall.wire m ds) := by
    rw [header, puts_eq m fcall ds _ fun d member e lies => (steady d member e lies).right.right.right, Fcall.wire,
      Sink.emit_append, Sink.emit_append, Sink.emit_append]
  rw [Sink.emit_eq] at whole
  rw [fcallMsgToBuf, if_neg accepted]
  simp only [type]
  cases t <;> cases fields <;> simp only [List.foldl_cons, List.foldl_nil, Field.put] at whole <;> rw [whole]
  all_goals rw [Nat.add_sub_cancel_left, ← long, fcallMsgSize]

end Anthill
