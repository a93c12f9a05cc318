import Anthill.FcallWire

set_option autoImplicit false

namespace Anthill

open Bytes (Store Counted Delimited split combine)

-- The block of fcall_buf_to_msg that reads a field.
def Field.take (m : Store) : Field → Parse → Parse
  | .fid, p => p.fid m
  | .msize, p => p.msize m
  | .version, p => p.version m
  | .ename, p => p.ename m
  | .afid, p => p.afid m
  | .uname, p => p.uname m
  | .aname, p => p.aname m
  | .qid, p => p.qid m
  | .iounit, p => p.iounit m
  | .newfid, p => p.newfid m
  | .wname, p => p.wname m
  | .wqid, p => p.wqid m
  | .name, p => p.name m
  | .perm, p => p.perm m
  | .mode, p => p.mode m
  | .offset, p => p.offset m
  | .count, p => p.count m
  | .data, p => p.data m
  | .stat, p => p.stat m
  | .mfid, p => p.mfid m

def takes (m : Store) (ds : List Field) (p : Parse) : Parse := ds.foldl (fun p d => d.take m p) p

-- What the block stores in the message.
def Field.store (m : Store) (ptr : Nat) (fcall : Fcall) : Field → Fcall
  | .fid => { fcall with fid := getUint m ptr }
  | .msize => { fcall with msize := getUint m ptr }
  | .version => { fcall with version := ptr }
  | .ename => { fcall with ename := ptr }
  | .afid => { fcall with afid := getUint m ptr }
  | .uname => { fcall with uname := ptr }
  | .aname => { fcall with aname := ptr }
  | .qid => { fcall with qid := qidAt m ptr }
  | .iounit => { fcall with iounit := getUint m ptr }
  | .newfid => { fcall with newfid := getUint m ptr }
  | .wname => { fcall with nwname := getUshort m ptr, wname := ptr + shrtSize }
  | .wqid => { fcall with nwqid := getUshort m ptr, wqid := ptr + shrtSize }
  | .name => { fcall with name := ptr }
  | .perm => { fcall with perm := getUint m ptr }
  | .mode => { fcall with mode := getUchar m ptr }
  | .offset => { fcall with offset := getUlong m ptr }
  | .count => { fcall with count := getUint m ptr }
  | .data => { fcall with count := getUint m ptr, data := ptr + intSize }
  | .stat => { fcall with nstat := getUshort m ptr, stat := ptr + shrtSize }
  | .mfid => { fcall with mfid := getUint m ptr }

theorem Parse.path_fcall (m : Store) (n : Nat) (p : Parse) : (p.path m n).fcall = p.fcall := by
  induction n generalizing p with
  | zero => rfl
  | succ n ih => exact ih (p.pstring m)

theorem Parse.path_ptr (m : Store) (n : Nat) (p : Parse) : (p.path m n).ptr = p.ptr + pathLength m p.ptr n := by
  induction n generalizing p with
  | zero => rfl
  | succ n ih =>
    rw [path, ih (p.pstring m), pathLength, ← Nat.add_assoc]
    rfl

theorem Field.take_fcall (m : Store) (d : Field) (p : Parse) : (d.take m p).fcall = d.store m p.ptr p.fcall := by
  cases d with
  | wname => exact Parse.path_fcall m _ _
  | _ => rfl

-- No member of the message belongs to both.
def Field.Apart (d e : Field) : Prop := d ≠ e ∧ (d, e) ≠ (.count, .data) ∧ (d, e) ≠ (.data, .count)

instance (d e : Field) : Decidable (d.Apart e) := by
  unfold Field.Apart
  infer_instance

theorem Field.value_store (m : Store) (ptr : Nat) (fcall : Fcall) (d e : Field) (apart : d.Apart e) :
    (e.store m ptr fcall).value m d = fcall.value m d := by
  cases e <;> cases d <;> first
    | rfl
    | exact absurd rfl apart.1
    | exact absurd rfl apart.2.1
    | exact absurd rfl apart.2.2

-- The number of bytes that the field takes up at an address.
def Field.length (m : Store) (ptr : Nat) : Field → Nat
  | .fid | .msize | .afid | .iounit | .newfid | .perm | .count | .mfid => intSize
  | .version | .ename | .uname | .aname | .name => pstrlen m ptr
  | .qid => sizeofQid
  | .wname => shrtSize + pathLength m (ptr + shrtSize) (getUshort m ptr).toNat
  | .wqid => shrtSize + (getUshort m ptr).toNat * sizeofQid
  | .mode => charSize
  | .offset => longSize
  | .data => intSize + (getUint m ptr).toNat
  | .stat => shrtSize + (getUshort m ptr).toNat

theorem Field.take_ptr (m : Store) (d : Field) (p : Parse) : (d.take m p).ptr = p.ptr + d.length m p.ptr := by
  cases d with
  | wname => exact (Parse.path_ptr m _ _).trans (Nat.add_assoc ..)
  | wqid | data | stat => exact Nat.add_assoc ..
  | _ => rfl

theorem Field.wire_store (m : Store) (ptr : Nat) (fcall : Fcall) (d : Field) :
    d.wire ((d.store m ptr fcall).value m d) = m.bytes ptr (d.length m ptr) := by
  cases d with
  | fid | msize | afid | iounit | newfid | perm | count | mfid => exact split_getUint m ptr
  | version | ename | uname | aname | name => exact pstringAt_wire m ptr
  | mode => exact congrArg (· :: []) (BitVec.setWidth_eq _)
  | offset => exact split_getUlong m ptr
  | qid => exact qidAt_wire m ptr
  | wname =>
    simp only [Field.wire, Field.store, Fcall.value, Counted.wire, pathAt_wire, length_pathAt, split_count, Field.length,
      m.bytes_add]
    exact congrArg (· ++ _) (split_getUshort m ptr)
  | wqid =>
    simp only [Field.wire, Field.store, Fcall.value, Counted.wire, qidsAt_wire, length_qidsAt, split_count, Field.length,
      m.bytes_add, Nat.mul_comm _ sizeofQid]
    exact congrArg (· ++ _) (split_getUshort m ptr)
  | data =>
    simp only [Field.wire, Field.store, Fcall.value, Counted.wire, flatMap_byte, Store.length_bytes, split_count,
      Field.length, m.bytes_add]
    exact congrArg (· ++ _) (split_getUint m ptr)
  | stat =>
    simp only [Field.wire, pstringWire, Field.store, Fcall.value, Counted.wire, flatMap_byte, Store.length_bytes,
      split_count, Field.length, m.bytes_add]
    exact congrArg (· ++ _) (split_getUshort m ptr)

-- What storing other fields leaves of a field, parsing them leaves too.
theorem takes_keep {A : Type} (m : Store) (f : Fcall → A) (d : Field)
    (kept : ∀ ptr fcall e, d.Apart e → f (e.store m ptr fcall) = f fcall) (ds : List Field) (p : Parse)
    (apart : ∀ e, e ∈ ds → d.Apart e) : f (takes m ds p).fcall = f p.fcall := by
  induction ds generalizing p with
  | nil => rfl
  | cons e ds ih =>
    refine (ih (e.take m p) fun x member => apart x (List.mem_cons_of_mem e member)).trans ?_
    rw [Field.take_fcall]
    exact kept p.ptr p.fcall e (apart e List.mem_cons_self)

theorem takes_value (m : Store) (ds : List Field) (p : Parse) (d : Field) (apart : ∀ e, e ∈ ds → d.Apart e) :
    (takes m ds p).fcall.value m d = p.fcall.value m d :=
  takes_keep m (fun fcall => fcall.value m d) d (fun ptr fcall e => Field.value_store m ptr fcall d e) ds p apart

-- What is parsed, written again, is the bytes that have been parsed.
theorem takes_wire (m : Store) (ds : List Field) (p : Parse) (apart : ds.Pairwise Field.Apart) :
    ∃ n, (takes m ds p).ptr = p.ptr + n ∧ bodyWire ((takes m ds p).fcall.value m) ds = m.bytes p.ptr n := by
  induction ds generalizing p with
  | nil => exact ⟨0, rfl, rfl⟩
  | cons d ds ih =>
    obtain ⟨first, rest⟩ := List.pairwise_cons.mp apart
    obtain ⟨n, ptr, wire⟩ := ih (d.take m p) rest
    have head : (takes m ds (d.take m p)).fcall.value m d = (d.store m p.ptr p.fcall).value m d := by
      rw [takes_value m ds (d.take m p) d first, Field.take_fcall]
    refine ⟨d.length m p.ptr + n, ?_, ?_⟩
    · rw [← Nat.add_assoc, ← Field.take_ptr]
      exact ptr
    · rw [m.bytes_add, ← Field.take_ptr, ← wire, ← Field.wire_store m p.ptr p.fcall d, ← head]
      rfl

theorem Field.extent_other (m : Store) (ptr : Nat) (fcall : Fcall) (d e : Field) (apart : d.Apart e) :
    (e.store m ptr fcall).extent m d = fcall.extent m d := by
  cases e <;> cases d <;> first
    | rfl
    | exact absurd rfl apart.1
    | exact absurd rfl apart.2.1
    | exact absurd rfl apart.2.2

theorem Field.extent_store (m : Store) (ptr : Nat) (fcall : Fcall) (d : Field) (e : Nat × Nat)
    (lies : (d.store m ptr fcall).extent m d = some e) : ptr ≤ e.1 ∧ e.1 + e.2 ≤ ptr + d.length m ptr := by
  cases d <;> cases lies
  case wname | data | stat => exact ⟨Nat.le_add_right .., Nat.le_of_eq (Nat.add_assoc ..)⟩
  case wqid =>
    refine ⟨Nat.le_add_right .., Nat.le_of_eq ((Nat.add_assoc ..).trans ?_)⟩
    rw [Field.length, Nat.mul_comm sizeofQid]
    rfl
  all_goals exact ⟨Nat.le_refl ptr, Nat.le_refl _⟩

theorem takes_extent_other (m : Store) (ds : List Field) (p : Parse) (d : Field) (apart : ∀ e, e ∈ ds → d.Apart e) :
    (takes m ds p).fcall.extent m d = p.fcall.extent m d :=
  takes_keep m (fun fcall => fcall.extent m d) d (fun ptr fcall e => Field.extent_other m ptr fcall d e) ds p apart

-- The variable data lies among the bytes that have been parsed.
theorem takes_extent (m : Store) (ds : List Field) (p : Parse) (apart : ds.Pairwise Field.Apart) (d : Field)
    (member : d ∈ ds) (e : Nat × Nat) (lies : (takes m ds p).fcall.extent m d = some e) :
    p.ptr ≤ e.1 ∧ e.1 + e.2 ≤ (takes m ds p).ptr := by
  induction ds generalizing p with
  | nil => exact absurd member List.not_mem_nil
  | cons d' ds ih =>
    obtain ⟨first, rest⟩ := List.pairwise_cons.mp apart
    obtain ⟨n, moved, -⟩ := takes_wire m ds (d'.take m p) rest
    have step := Field.take_ptr m d' p
    have ends : (takes m (d' :: ds) p).ptr = p.ptr + d'.length m p.ptr + n := by
      rw [← step, ← moved]
      rfl
    rcases List.mem_cons.mp member with rfl | later
    · have here : (takes m ds (d.take m p)).fcall.extent m d = some e := lies
      rw [takes_extent_other m ds _ d first, Field.take_fcall] at here
      obtain ⟨low, high⟩ := Field.extent_store m p.ptr p.fcall d e here
      omega
    · obtain ⟨low, high⟩ := ih (d'.take m p) rest later lies
      have same : (takes m (d' :: ds) p).ptr = (takes m ds (d'.take m p)).ptr := rfl
      omega

theorem takes_header (m : Store) (ds : List Field) (p : Parse) :
    (takes m ds p).fcall.type = p.fcall.type ∧ (takes m ds p).fcall.tag = p.fcall.tag := by
  induction ds generalizing p with
  | nil => exact ⟨rfl, rfl⟩
  | cons d ds ih =>
    obtain ⟨type, tag⟩ := ih (d.take m p)
    rw [Field.take_fcall] at type tag
    cases d <;> exact ⟨type, tag⟩

theorem FcallType.fields_apart (t : FcallType) (ds : List Field) (fields : t.fields = some ds) :
    ds.Pairwise Field.Apart := by
  cases t <;> cases fields <;> decide

theorem Parse.body_eq (m : Store) (p : Parse) :
    p.body m = ((FcallType.ofCode p.fcall.type).bind FcallType.fields).map fun ds => takes m ds p := by
  rw [Parse.body]
  cases FcallType.ofCode p.fcall.type with
  | none => rfl
  | some t => cases t <;> rfl

theorem bodyWire_congr (u v : (d : Field) → d.Value) (ds : List Field) (same : ∀ d, d ∈ ds → u d = v d) :
    bodyWire u ds = bodyWire v ds := by
  rw [bodyWire, bodyWire]
  exact List.flatMap_congr fun d member => by rw [same d member]

theorem wire_parts (m m' : Store) (fcall : Fcall) (ds : List Field) (buf n : Nat)
    (is : m'.bytes buf n = fcall.wire m ds) :
    getUint m' buf = fcallMsgSize m fcall ∧ getUchar m' (buf + 4) = fcall.type ∧ getUshort m' (buf + 5) = fcall.tag ∧
      m'.bytes (buf + 7) (bodyWire (fcall.value m) ds).length = bodyWire (fcall.value m) ds := by
  rw [Fcall.wire] at is
  obtain ⟨size, rest⟩ := Store.bytes_append is
  obtain ⟨type, rest⟩ := Store.bytes_append rest
  obtain ⟨tag, body⟩ := Store.bytes_append rest
  simp only [Bytes.length_split] at size type tag body
  refine ⟨?_, ?_, ?_, body⟩
  · rw [getUint_eq]
    exact (congrArg (combine 32) size).trans (Bytes.combine_split _ _ (BitVec.isLt _))
  · exact (List.cons.inj type).1.trans (BitVec.setWidth_eq _)
  · rw [getUshort_eq]
    exact (congrArg (combine 16) tag).trans (Bytes.combine_split _ _ (BitVec.isLt _))

theorem wire_of_parts (m m' : Store) (fcall : Fcall) (ds : List Field) (buf : Nat)
    (size : getUint m' buf = fcallMsgSize m fcall) (type : getUchar m' (buf + 4) = fcall.type)
    (tag : getUshort m' (buf + 5) = fcall.tag) (n : Nat)
    (body : bodyWire (fcall.value m) ds = m'.bytes (buf + 7) n) : fcall.wire m ds = m'.bytes buf (7 + n) := by
  have parts : m'.bytes buf (7 + n) =
      m'.bytes buf 4 ++ (m'.bytes (buf + 4) 1 ++ (m'.bytes (buf + 5) 2 ++ m'.bytes (buf + 7) n)) := by
    rw [← m'.bytes_add, ← m'.bytes_add, ← m'.bytes_add, ← Nat.add_assoc, ← Nat.add_assoc]
  rw [parts, Fcall.wire, body, ← size, ← tag, ← split_getUint, ← split_getUshort, ← type]
  exact congrArg (fun b => _ ++ ([b] ++ _)) (BitVec.setWidth_eq _)

theorem fcallBufToMsg_accepted (m : Store) (buf : Nat) (fcall : Fcall) (accepted : (fcallBufToMsg m buf fcall).1 ≠ 0) :
    ∃ (t : FcallType) (ds : List Field), (fcallBufToMsg m buf fcall).2.fcall.type = t.code ∧ t.fields = some ds ∧
      (fcallBufToMsg m buf fcall).2 = takes m ds (Parse.header m buf fcall) ∧
      (fcallBufToMsg m buf fcall).2.ptr = buf + (fcallBufToMsg m buf fcall).1.toNat ∧
      (fcallBufToMsg m buf fcall).1 = getUint m buf := by
  rw [fcallBufToMsg, Parse.body_eq] at accepted ⊢
  cases type : FcallType.ofCode (Parse.header m buf fcall).fcall.type with
  | none =>
    rw [type] at accepted
    exact absurd rfl accepted
  | some t =>
    cases fields : t.fields with
    | none =>
      rw [type, Option.bind_some, fields] at accepted
      exact absurd rfl accepted
    | some ds =>
      rw [type] at accepted
      simp only [Option.bind_some, fields, Option.map_some] at accepted ⊢
      obtain ⟨n, ptr, -⟩ := takes_wire m ds (Parse.header m buf fcall) (t.fields_apart ds fields)
      split at accepted
      · exact absurd rfl accepted
      · next size =>
        rw [if_neg size]
        refine ⟨t, ds, ?_, fields, rfl, ?_, rfl⟩
        · rw [(takes_header m ds _).1]
          exact (FcallType.code_ofCode type).symm
        · rw [not_not.mp size, ptr]
          simp only [Parse.header, Parse.tag, Parse.type, Parse.read]
          omega

-- An accepted message is the one whose bytes the buffer holds.
theorem fcallBufToMsg_wire (m : Store) (buf : Nat) (fcall : Fcall) (accepted : (fcallBufToMsg m buf fcall).1 ≠ 0)
    (t : FcallType) (ds : List Field) (type : (fcallBufToMsg m buf fcall).2.fcall.type = t.code)
    (fields : t.fields = some ds) :
    (fcallBufToMsg m buf fcall).2.fcall.wire m ds = m.bytes buf (fcallBufToMsg m buf fcall).1.toNat ∧
      fcallSize m (fcallBufToMsg m buf fcall).2.fcall = (fcallBufToMsg m buf fcall).1.toNat := by
  obtain ⟨t', ds', type', fields', parsed, ptr, size⟩ := fcallBufToMsg_accepted m buf fcall accepted
  have code : FcallType.ofCode (fcallBufToMsg m buf fcall).2.fcall.type = some t := by rw [type, t.ofCode_code]
  obtain rfl : t' = t := by
    rw [type', t'.ofCode_code] at code
    exact Option.some.inj code
  obtain rfl : ds' = ds := Option.some.inj (fields'.symm.trans fields)
  obtain ⟨n, moved, body⟩ := takes_wire m ds' (Parse.header m buf fcall) (t'.fields_apart ds' fields)
  obtain ⟨sameType, sameTag⟩ := takes_header m ds' (Parse.header m buf fcall)
  rw [← parsed] at moved body sameType sameTag
  have long : (fcallBufToMsg m buf fcall).1.toNat = 7 + n := by
    have start : (Parse.header m buf fcall).ptr = buf + 7 := rfl
    omega
  have total := fcallSize_eq m _ t' ds' code fields
  have length : ((fcallBufToMsg m buf fcall).2.fcall.wire m ds').length = 7 + n := by
    simp only [Fcall.wire, List.length_append, Bytes.length_split, body, Store.length_bytes, intSize, charSize, shrtSize]
    omega
  have agrees : getUint m buf = fcallMsgSize m (fcallBufToMsg m buf fcall).2.fcall := by
    rw [fcallMsgSize, total, length, ← long, BitVec.ofNat_toNat, BitVec.setWidth_eq, size]
  rw [long]
  exact ⟨wire_of_parts m m _ ds' buf agrees sameType.symm sameTag.symm n body, total.trans length⟩

-- Where the buffer holds a message, that message is parsed.
theorem fcallBufToMsg_of_wire (m m' : Store) (fcall : Fcall) (t : FcallType) (ds : List Field)
    (type : fcall.type = t.code) (fields : t.fields = some ds) (small : fcallSize m fcall < 2 ^ 32) (buf : Nat)
    (is : m'.bytes buf (fcallSize m fcall) = fcall.wire m ds) (out : Fcall) :
    (fcallBufToMsg m' buf out).1 = fcallMsgSize m fcall ∧ (fcallBufToMsg m' buf out).2.fcall.type = fcall.type ∧
      (fcallBufToMsg m' buf out).2.fcall.tag = fcall.tag ∧
      ∀ d, d ∈ ds → (fcallBufToMsg m' buf out).2.fcall.value m' d = fcall.value m d := by
  have code : FcallType.ofCode fcall.type = some t := by rw [type, t.ofCode_code]
  obtain ⟨sizeRead, typeRead, tagRead, bodyRead⟩ := wire_parts m m' fcall ds buf _ is
  obtain ⟨n, moved, body⟩ := takes_wire m' ds (Parse.header m' buf out) (t.fields_apart ds fields)
  obtain ⟨sameType, sameTag⟩ := takes_header m' ds (Parse.header m' buf out)
  have same : bodyWire ((takes m' ds (Parse.header m' buf out)).fcall.value m') ds ++
        m'.bytes (buf + 7 + n) (bodyWire (fcall.value m) ds).length =
      bodyWire (fcall.value m) ds ++ m'.bytes (buf + 7 + (bodyWire (fcall.value m) ds).length) n := by
    refine Eq.trans ?_ (congrArg (· ++ _) bodyRead)
    rw [body, ← m'.bytes_add, Nat.add_comm (bodyWire (fcall.value m) ds).length n]
    exact (m'.bytes_add (buf + 7) n _).symm
  obtain ⟨values, -⟩ := bodyWire_delimited _ _ ds _ _ same
  have parsed : (Parse.header m' buf out).body m' = some (takes m' ds (Parse.header m' buf out)) := by
    have header : (Parse.header m' buf out).fcall.type = fcall.type := typeRead
    rw [Parse.body_eq, header, code, Option.bind_some, fields, Option.map_some]
  have ends : (fcallMsgSize m fcall).toNat = (takes m' ds (Parse.header m' buf out)).ptr - buf := by
    have long := congrArg List.length (bodyWire_congr _ _ ds values)
    have start : (Parse.header m' buf out).ptr = buf + 7 := rfl
    rw [body, Store.length_bytes] at long
    have total := fcallSize_eq m fcall t ds code fields
    simp only [Fcall.wire, List.length_append, Bytes.length_split, ← long, intSize, charSize, shrtSize] at total
    rw [fcallMsgSize, BitVec.toNat_ofNat, Nat.mod_eq_of_lt small, moved, start]
    omega
  have result : fcallBufToMsg m' buf out = (fcallMsgSize m fcall, takes m' ds (Parse.header m' buf out)) := by
    rw [fcallBufToMsg, parsed]
    simp only [sizeRead, ends, ne_eq, not_true_eq_false, if_false]
  rw [result]
  exact ⟨rfl, sameType.trans typeRead, sameTag.trans tagRead, values⟩

-- Where the variable data is not in the buffer, the message is written as it stands.
theorem fcallMsgToBuf_outside (m : Store) (fcall : Fcall) (buf : Nat) (length : BitVec 32) (t : FcallType)
    (ds : List Field) (code : FcallType.ofCode fcall.type = some t) (fields : t.fields = some ds)
    (fits : fcallSize m fcall ≤ length.toNat) (outside : ∀ d, d ∈ ds → ∀ e, fcall.extent m d = some e → ∀ a, e.1 ≤ a →
      a < e.1 + e.2 → a < buf ∨ buf + fcallSize m fcall ≤ a) :
    fcallMsgToBuf m fcall buf length = (fcallMsgSize m fcall, m.write buf (fcall.wire m ds)) := by
  have total := fcallSize_eq m fcall t ds code fields
  refine fcallMsgToBuf_eq m fcall buf length t ds code fields fits fun d member e lies => ?_
  intro k a low high
  rw [Sink.emit_eq]
  refine m.write_outside buf _ a ?_
  have short := List.length_take_le' k (fcall.wire m ds)
  rcases outside d member e lies a low high with before | after
  · exact .inl before
  · exact .inr (by omega)

theorem fcall_roundTrip (m : Store) (fcall : Fcall) (t : FcallType) (ds : List Field) (type : fcall.type = t.code)
    (fields : t.fields = some ds) (length : BitVec 32) (fits : fcallSize m fcall ≤ length.toNat) (buf : Nat)
    (outside : ∀ d, d ∈ ds → ∀ e, fcall.extent m d = some e → ∀ a, e.1 ≤ a → a < e.1 + e.2 →
      a < buf ∨ buf + fcallSize m fcall ≤ a) (out : Fcall) :
    let done := fcallMsgToBuf m fcall buf length
    let parsed := fcallBufToMsg done.2 buf out
    done.1 = fcallMsgSize m fcall ∧ done.1.toNat = fcallSize m fcall ∧
      done.2.bytes buf done.1.toNat = fcall.wire m ds ∧
      (∀ a, a < buf ∨ buf + done.1.toNat ≤ a → done.2 a = m a) ∧
      parsed.1 = done.1 ∧ parsed.2.fcall.type = fcall.type ∧ parsed.2.fcall.tag = fcall.tag ∧
      ∀ d, d ∈ ds → parsed.2.fcall.value done.2 d = fcall.value m d := by
  have code : FcallType.ofCode fcall.type = some t := by rw [type, t.ofCode_code]
  have total := fcallSize_eq m fcall t ds code fields
  have size : (fcallMsgSize m fcall).toNat = fcallSize m fcall := by
    rw [fcallMsgSize, BitVec.toNat_ofNat, Nat.mod_eq_of_lt (fits.trans_lt length.isLt)]
  rw [fcallMsgToBuf_outside m fcall buf length t ds code fields fits outside]
  simp only
  have written : (m.write buf (fcall.wire m ds)).bytes buf (fcallSize m fcall) = fcall.wire m ds := by
    rw [total, Store.bytes_write]
  obtain ⟨sizeBack, typeBack, tagBack, values⟩ :=
    fcallBufToMsg_of_wire m _ fcall t ds type fields (fits.trans_lt length.isLt) buf written out
  refine ⟨trivial, size, by rw [size, written], fun a away => m.write_outside buf _ a ?_, sizeBack, typeBack, tagBack,
    values⟩
  rwa [← total, ← size]

-- The bytes from an address on.
def storeAt (a : Nat) (bs : List Byte) : Store := fun x => if x < a then 0 else (bs[x - a]?).getD 0

-- Three path elements, "a", "bc" and "def".
def walkPath : Store := storeAt 1000 [1, 0, 0x61, 2, 0, 0x62, 0x63, 3, 0, 0x64, 0x65, 0x66]

def walkCall : Fcall :=
  { (default : Fcall) with type := 106, tag := 0xffff, fid := 0xffffffff, newfid := 7, nwname := 3, wname := 1000 }

theorem fcall_roundTrip_walk : let done := fcallMsgToBuf walkPath walkCall 0 256
    let parsed := fcallBufToMsg done.2 0 default
    done.1 = 29 ∧ parsed.1 = 29 ∧ parsed.2.fcall.value done.2 .wname = walkCall.value walkPath .wname := by
  have size : fcallSize walkPath walkCall = 29 := by decide +kernel
  have apart (d : Field) (member : d ∈ [Field.fid, .newfid, .wname]) (e : Nat × Nat)
      (lies : walkCall.extent walkPath d = some e) (a : Nat) (low : e.1 ≤ a) (_ : a < e.1 + e.2) :
      a < 0 ∨ 0 + fcallSize walkPath walkCall ≤ a := by
    simp only [List.mem_cons, List.not_mem_nil, or_false] at member
    rcases member with rfl | rfl | rfl <;> cases lies
    have far : 1000 ≤ a := low
    omega
  obtain ⟨-, written, -, -, back, -, -, values⟩ := fcall_roundTrip walkPath walkCall .twalk [.fid, .newfid, .wname] rfl rfl
    256 (by rw [size]; decide) 0 apart default
  have result : (fcallMsgToBuf walkPath walkCall 0 256).1 = 29 :=
    BitVec.eq_of_toNat_eq (written.trans size)
  exact ⟨result, back.trans result, values .wname (by decide)⟩

-- The message parsed from a buffer, written elsewhere or in its place, gives the buffer's bytes.
theorem fcall_canonical (m : Store) (buf : Nat) (out : Fcall) (accepted : (fcallBufToMsg m buf out).1 ≠ 0) :
    let parsed := fcallBufToMsg m buf out
    let n := parsed.1.toNat
    (∀ (length : BitVec 32) (dest : Nat), parsed.1 ≤ length → dest = buf ∨ dest + n ≤ buf ∨ buf + n ≤ dest →
      let done := fcallMsgToBuf m parsed.2.fcall dest length
      done.1 = parsed.1 ∧ done.2.bytes dest n = m.bytes buf n) ∧
    ∀ (m' : Store) (buf' : Nat) (out' : Fcall), (fcallBufToMsg m' buf' out').1 = parsed.1 →
      (fcallBufToMsg m' buf' out').2.fcall.type = parsed.2.fcall.type →
      (fcallBufToMsg m' buf' out').2.fcall.tag = parsed.2.fcall.tag →
      (∀ (t : FcallType) (ds : List Field), parsed.2.fcall.type = t.code → t.fields = some ds → ∀ d, d ∈ ds →
        (fcallBufToMsg m' buf' out').2.fcall.value m' d = parsed.2.fcall.value m d) →
      m'.bytes buf' n = m.bytes buf n := by
  obtain ⟨t, ds, type, fields, parsed, ptr, -⟩ := fcallBufToMsg_accepted m buf out accepted
  obtain ⟨wire, size⟩ := fcallBufToMsg_wire m buf out accepted t ds type fields
  refine ⟨fun length dest room place => ?_, fun m' buf' out' same sameType sameTag values => ?_⟩
  · have code : FcallType.ofCode (fcallBufToMsg m buf out).2.fcall.type = some t := by rw [type, t.ofCode_code]
    have apart := t.fields_apart ds fields
    have steady (d : Field) (member : d ∈ ds) (e : Nat × Nat)
        (lies : (fcallBufToMsg m buf out).2.fcall.extent m d = some e) :
        Steady m ⟨m, dest⟩ ((fcallBufToMsg m buf out).2.fcall.wire m ds) e := by
      intro k a low high
      rw [parsed] at lies
      obtain ⟨above, below⟩ := takes_extent m ds (Parse.header m buf out) apart d member e lies
      have start : (Parse.header m buf out).ptr = buf + 7 := rfl
      rw [← parsed, ptr] at below
      rw [Sink.emit_eq, wire]
      rcases place with rfl | other
      · rw [Store.take_bytes, Store.write_bytes]
      · refine m.write_outside dest _ a ?_
        have short := List.length_take_le' k (m.bytes buf (fcallBufToMsg m buf out).1.toNat)
        rw [Store.length_bytes] at short
        omega
    have fits : fcallSize m (fcallBufToMsg m buf out).2.fcall ≤ length.toNat := by
      rw [size]
      exact room
    have same : fcallMsgSize m (fcallBufToMsg m buf out).2.fcall = (fcallBufToMsg m buf out).1 := by
      rw [fcallMsgSize, size, BitVec.ofNat_toNat, BitVec.setWidth_eq]
    simp only
    rw [fcallMsgToBuf_eq m _ dest length t ds code fields fits steady, wire]
    refine ⟨same, ?_⟩
    have back := Store.bytes_write m dest (m.bytes buf (fcallBufToMsg m buf out).1.toNat)
    rwa [Store.length_bytes] at back
  · have accepted' : (fcallBufToMsg m' buf' out').1 ≠ 0 := by rwa [same]
    obtain ⟨wire', size'⟩ := fcallBufToMsg_wire m' buf' out' accepted' t ds (sameType.trans type) fields
    rw [← same] at wire ⊢
    rw [← wire', ← wire, Fcall.wire, Fcall.wire, sameType, sameTag, bodyWire_congr _ _ ds (values t ds type fields),
      fcallMsgSize, fcallMsgSize, size', size, same]

-- An Rerror with the text "no".
def errorBytes : Store := storeAt 0 [11, 0, 0, 0, 103, 1, 0, 2, 0, 0x6e, 0x6f]

theorem fcall_canonical_error :
    (fcallMsgToBuf errorBytes (fcallBufToMsg errorBytes 0 default).2.fcall 64 11).2.bytes 64 11 = errorBytes.bytes 0 11 := by
  have size : (fcallBufToMsg errorBytes 0 default).1 = 11 := by decide +kernel
  have again := ((fcall_canonical errorBytes 0 default (by rw [size]; decide)).1 11 64 (by rw [size]; decide)
    (.inr (.inr (by rw [size]; decide)))).2
  rwa [size] at again

end Anthill
