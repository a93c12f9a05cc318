import Anthill.CString
import Anthill.VfsEnvelope

set_option autoImplicit false

namespace Anthill

open Bytes (Store Counted split)

/-- A message by what it carries. Of the values, those count that its type has. -/
structure Message where
  type : FcallType
  tag : BitVec 16
  value : (d : Field) → d.Value

def Field.blank : (d : Field) → d.Value
  | .fid | .msize | .afid | .iounit | .newfid | .perm | .count | .mfid => (0 : BitVec 32)
  | .version | .ename | .uname | .aname | .name | .stat => ⟨[], by decide⟩
  | .qid => default
  | .wname | .wqid | .data => ⟨[], by decide⟩
  | .mode => (0 : BitVec 8)
  | .offset => (0 : BitVec 64)

-- Texts and paths that are put into messages in more than one place.

theorem einvalid_short : (chars "Invalid message").length < 2 ^ 16 := by decide

theorem eclient_short : (chars "Client error").length < 2 ^ 16 := by decide

theorem vfs7_short : (chars "vfs/7").length < 2 ^ 16 := by decide

theorem slash_short : (chars "/").length < 2 ^ 16 := by decide

theorem noNames_short : ([] : List (Counted 16 Byte)).length < 2 ^ 16 := by decide

def Message.set (msg : Message) (d : Field) (v : d.Value) : Message :=
  { msg with value := Function.update msg.value d v }

def Message.to (msg : Message) (type : FcallType) : Message := { msg with type := type }

@[simp] theorem Message.set_type (msg : Message) (d : Field) (v : d.Value) : (msg.set d v).type = msg.type := rfl

@[simp] theorem Message.set_tag (msg : Message) (d : Field) (v : d.Value) : (msg.set d v).tag = msg.tag := rfl

@[simp] theorem Message.to_type (msg : Message) (type : FcallType) : (msg.to type).type = type := rfl

@[simp] theorem Message.to_tag (msg : Message) (type : FcallType) : (msg.to type).tag = msg.tag := rfl

@[simp] theorem Message.to_value (msg : Message) (type : FcallType) : (msg.to type).value = msg.value := rfl

@[simp] theorem Message.set_value (msg : Message) (d : Field) (v : d.Value) : (msg.set d v).value d = v :=
  Function.update_self ..

def Message.body (msg : Message) : List Byte := (msg.type.fields.map (bodyWire msg.value)).getD []

-- What fcall_msg_size computes.
def Message.size (msg : Message) : Nat :=
  if msg.type.fields.isSome then intSize + charSize + shrtSize + msg.body.length else 0

-- The messages that vfs_msg_put has room for. Of the others nothing is put, and it returns zero.
def Message.Fits (msg : Message) : Prop := msg.type.fields.isSome ∧ msg.size ≤ vfsMaxMsgLen - mqIdSize

instance Message.decidableFits (msg : Message) : Decidable msg.Fits := inferInstanceAs (Decidable (_ ∧ _))

def Message.put (msg : Message) : Option Message := if msg.Fits then some msg else none

/-- The same message: of the values, those of its type. -/
structure Message.Same (a b : Message) : Prop where
  type : a.type = b.type
  tag : a.tag = b.tag
  values : ∀ ds, a.type.fields = some ds → ∀ d, d ∈ ds → a.value d = b.value d

theorem Message.Same.refl (a : Message) : a.Same a := ⟨rfl, rfl, fun _ _ _ _ => rfl⟩

/-- The structure in memory is the message. -/
structure Fcall.Carries (m : Store) (fcall : Fcall) (msg : Message) : Prop where
  type : FcallType.ofCode fcall.type = some msg.type
  tag : fcall.tag = msg.tag
  values : ∀ ds, msg.type.fields = some ds → ∀ d, d ∈ ds → fcall.value m d = msg.value d

def Fcall.message (m : Store) (fcall : Fcall) : Option Message :=
  (FcallType.ofCode fcall.type).map fun type => ⟨type, fcall.tag, fcall.value m⟩

theorem Fcall.message_carries {m : Store} {fcall : Fcall} {msg : Message} (is : fcall.message m = some msg) :
    fcall.Carries m msg := by
  obtain ⟨type, found, rfl⟩ := Option.map_eq_some_iff.mp is
  exact ⟨found, rfl, fun _ _ _ _ => rfl⟩

theorem Fcall.Carries.size {m : Store} {fcall : Fcall} {msg : Message} (carries : fcall.Carries m msg) :
    fcallSize m fcall = msg.size := by
  rw [Message.size, Message.body]
  cases fields : msg.type.fields with
  | none =>
    have unknown : fcall.parts = none := by rw [Fcall.parts, carries.type, Option.bind_some, fields]
    exact fcallSize_unknown m fcall unknown
  | some ds =>
    have same := bodyWire_congr (fcall.value m) msg.value ds (carries.values ds fields)
    rw [fcallSize_eq m fcall msg.type ds carries.type fields, Fcall.wire, same]
    simp only [List.length_append, Bytes.length_split, Option.isSome_some, if_true, Option.map_some, Option.getD_some]
    omega

-- The buffer that a message is put into does not hold what the message points to.
def Fcall.Outside (m : Store) (fcall : Fcall) (buf : Nat) : Prop := ∀ d e, fcall.extent m d = some e →
  ∀ a, e.1 ≤ a → a < e.1 + e.2 → a < buf ∨ buf + vfsMaxMsgLen ≤ a

section Put

variable {m : Store} {fcall : Fcall} {msg : Message} {buf : Nat} (carries : fcall.Carries m msg)
  (outside : fcall.Outside m buf)

include carries outside

theorem Fcall.Carries.enveloped (fits : msg.Fits) : ∃ ds, msg.type.fields = some ds ∧ Enveloped m fcall ds buf := by
  obtain ⟨ds, fields⟩ := Option.isSome_iff_exists.mp fits.1
  have short : fcallSize m fcall ≤ vfsMaxMsgLen - mqIdSize := carries.size ▸ fits.2
  refine ⟨ds, fields, by rw [Fcall.parts, carries.type, Option.bind_some, fields], short, ?_⟩
  intro d _ e lies a low high
  have limit : vfsMaxMsgLen - mqIdSize ≤ vfsMaxMsgLen := Nat.sub_le _ _
  exact (outside d e lies a low high).imp id fun beyond => by omega

/-- What vfs_msg_put returns. -/
theorem vfsMsgPut_length (mq : Int) (small : msg.size < 2 ^ 32) :
    (vfsMsgPut m ⟨fcall, mq⟩ buf).1 = (msg.put.map fun msg => msg.size + mqIdSize).getD 0 := by
  rw [Message.put]
  split
  · next fits =>
    obtain ⟨ds, -, enveloped⟩ := carries.enveloped outside fits
    rw [Enveloped.put (show Enveloped m (VfsMsg.mk fcall mq).fcall ds buf from enveloped), carries.size]
    rfl
  · next unfit =>
    have refused : fcallMsgSize m fcall = 0 ∨ BitVec.ofNat 32 (vfsMaxMsgLen - mqIdSize) < fcallMsgSize m fcall := by
      rw [fcallMsgSize, carries.size]
      by_cases known : msg.type.fields.isSome
      · refine .inr ?_
        have long : vfsMaxMsgLen - mqIdSize < msg.size := Nat.lt_of_not_le fun short => unfit ⟨known, short⟩
        rw [BitVec.lt_def, BitVec.toNat_ofNat, BitVec.toNat_ofNat, Nat.mod_eq_of_lt small]
        exact long
      · rw [Message.size, if_neg known]
        exact .inl rfl
    rw [vfsMsgPut, fcallMsgToBuf_refused m fcall buf _ refused]
    rfl

/-- Parsed from the buffer, a message that was put is the same, and so is the low byte of the queue. -/
theorem vfsMsgPut_parse (fits : msg.Fits) (mq : Int) (out : VfsMsg) :
    let put := vfsMsgPut m ⟨fcall, mq⟩ buf
    let parsed := vfsMsgParse put.2 out buf
    parsed.result = put.1 ∧ parsed.msg.fcall.Carries put.2 msg ∧
      parsed.msg.mqId = (((BitVec.ofInt 32 mq).setWidth 8).toNat : Int) := by
  obtain ⟨ds, fields, enveloped⟩ := carries.enveloped outside fits
  obtain ⟨result, type, tag, values, id⟩ :=
    Enveloped.parse (show Enveloped m (VfsMsg.mk fcall mq).fcall ds buf from enveloped) out
  refine ⟨result, ⟨by rw [type]; exact carries.type, tag.trans carries.tag, fun ds' fields' d member => ?_⟩, id⟩
  obtain rfl := Option.some.inj (fields.symm.trans fields')
  exact (values d member).trans (carries.values ds fields d member)

end Put

theorem Message.size_fields {msg : Message} {ds : List Field} (fields : msg.type.fields = some ds) :
    msg.size = 7 + (bodyWire msg.value ds).length := by
  rw [Message.size, Message.body, fields]
  rfl

theorem Message.fits_iff {msg : Message} (ds : List Field) (fields : msg.type.fields = some ds) :
    msg.Fits ↔ (bodyWire msg.value ds).length ≤ 117 := by
  rw [Message.Fits, Message.size_fields fields, fields]
  simp only [Option.isSome_some, true_and, vfsMaxMsgLen, mqIdSize]
  omega

theorem pstringWire_length (s : Counted 16 Byte) : (pstringWire s).length = 2 + s.1.length := by
  rw [pstringWire, Counted.wire, flatMap_byte, List.length_append, Bytes.length_split, shrtSize]

theorem Qid.wire_length (qid : Qid) : qid.wire.length = 16 := by
  simp only [Qid.wire, List.length_append, Bytes.length_split]

theorem qids_length (qids : List Qid) : (qids.flatMap Qid.wire).length = 16 * qids.length := by
  induction qids with
  | nil => rfl
  | cons qid qids ih =>
    rw [List.flatMap_cons, List.length_append, Qid.wire_length, ih, List.length_cons]
    omega

theorem fits_rerror {msg : Message} (type : msg.type = .rerror) : msg.Fits ↔ (msg.value .ename).1.length ≤ 115 := by
  rw [Message.fits_iff [.ename] (by rw [type]; rfl)]
  simp only [bodyWire, List.flatMap_cons, List.flatMap_nil, List.append_nil, Field.wire, pstringWire_length]
  omega

theorem fits_rwalk {msg : Message} (type : msg.type = .rwalk) : msg.Fits ↔ (msg.value .wqid).1.length ≤ 7 := by
  rw [Message.fits_iff [.wqid] (by rw [type]; rfl)]
  simp only [bodyWire, List.flatMap_cons, List.flatMap_nil, List.append_nil, Field.wire, Counted.wire, List.length_append,
    Bytes.length_split, qids_length, shrtSize]
  omega

theorem fits_rread {msg : Message} (type : msg.type = .rread) : msg.Fits ↔ (msg.value .data).1.length ≤ 113 := by
  rw [Message.fits_iff [.data] (by rw [type]; rfl)]
  simp only [bodyWire, List.flatMap_cons, List.flatMap_nil, List.append_nil, Field.wire, Counted.wire, List.length_append,
    Bytes.length_split, flatMap_byte, intSize]
  omega

-- The answers of a fixed size.
theorem fits_fixed {msg : Message} (type : msg.type = .rattach ∨ msg.type = .rclunk ∨ msg.type = .rcreate ∨
    msg.type = .rmount ∨ msg.type = .ropen ∨ msg.type = .rwrite) : msg.Fits := by
  have size (ds : List Field) (fields : msg.type.fields = some ds)
      (short : ∀ value : (d : Field) → d.Value, (bodyWire value ds).length ≤ 117) : msg.Fits :=
    (Message.fits_iff ds fields).mpr (short msg.value)
  rcases type with type | type | type | type | type | type <;> refine size _ (by rw [type]; rfl) fun value => ?_ <;>
    simp [bodyWire, Field.wire, Qid.wire_length, intSize]

end Anthill
