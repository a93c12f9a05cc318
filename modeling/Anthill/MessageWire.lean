import Anthill.Message

set_option autoImplicit false

namespace Anthill

open Bytes (Store split)

/-- A message without the values that its type has not. -/
def Message.canonical (msg : Message) : Message :=
  { msg with value := fun d => if d ∈ msg.type.fields.getD [] then msg.value d else d.blank }

/-- What vfs_msg_put has put into a buffer, in whatever memory. -/
def Message.Sends (msg : Message) (mq : Int) (bytes : List Byte) : Prop := ∃ (m : Store) (fcall : Fcall) (buf : Nat),
  fcall.Carries m msg ∧ fcall.Outside m buf ∧ msg.Fits ∧
    bytes = (vfsMsgPut m ⟨fcall, mq⟩ buf).2.bytes buf (vfsMsgPut m ⟨fcall, mq⟩ buf).1

/-- What vfs_msg_parse makes of a buffer that begins with the bytes, in whatever memory. -/
def Message.Parsed (msg : Message) (mq : Int) (bytes : List Byte) : Prop := ∃ (m : Store) (out : VfsMsg) (buf : Nat),
  m.bytes buf bytes.length = bytes ∧ (vfsMsgParse m out buf).result ≠ 0 ∧
    (vfsMsgParse m out buf).msg.fcall.message m = some msg ∧ mq = (vfsMsgParse m out buf).msg.mqId

/-- What a server that has parsed its buffer sends from there. -/
def Message.Passes (msg : Message) (mq : Int) (bytes : List Byte) : Prop := ∃ (m : Store) (out : VfsMsg) (buf : Nat),
  bytes = m.bytes buf (vfsMsgParse m out buf).result ∧ (vfsMsgParse m out buf).result ≠ 0 ∧
    (vfsMsgParse m out buf).msg.fcall.message m = some msg ∧ mq = (vfsMsgParse m out buf).msg.mqId

/-- The bytes are one message: wherever they are copied to they are parsed as it, and `id` as its queue. -/
structure Message.Wire (msg : Message) (id : Byte) (bytes : List Byte) : Prop where
  positive : 0 < bytes.length
  short : bytes.length ≤ vfsMaxMsgLen
  parse : ∀ (m : Store) (out : VfsMsg) (buf : Nat), m.bytes buf bytes.length = bytes →
    (vfsMsgParse m out buf).result = bytes.length ∧ (vfsMsgParse m out buf).msg.mqId = (id.toNat : Int) ∧
      ∃ read, (vfsMsgParse m out buf).msg.fcall.message m = some read ∧ read.Same msg

section Message

variable {a b msg : Message}

theorem Message.canonical_same (msg : Message) : msg.canonical.Same msg := by
  refine ⟨rfl, rfl, fun ds fields d member => ?_⟩
  have fields : msg.type.fields = some ds := fields
  exact if_pos (by rw [fields]; exact member)

theorem Message.Same.canonical (same : a.Same b) : a.canonical = b.canonical := by
  obtain ⟨type, tag, value⟩ := a
  obtain ⟨type', tag', value'⟩ := b
  obtain rfl : type = type' := same.type
  obtain rfl : tag = tag' := same.tag
  have values : ∀ ds, type.fields = some ds → ∀ d, d ∈ ds → value d = value' d := same.values
  simp only [Message.canonical, Message.mk.injEq, true_and]
  funext d
  split
  · next member =>
    cases fields : type.fields with
    | none =>
      rw [fields] at member
      exact absurd member List.not_mem_nil
    | some ds =>
      rw [fields] at member
      exact values ds fields d member
  · rfl

theorem Fcall.Carries.same {m : Store} {fcall : Fcall} (carries : fcall.Carries m a) (other : fcall.Carries m b) :
    a.Same b := by
  have type : a.type = b.type := Option.some.inj (carries.type.symm.trans other.type)
  refine ⟨type, carries.tag.symm.trans other.tag, fun ds fields d member => ?_⟩
  exact (carries.values ds fields d member).symm.trans (other.values ds (type ▸ fields) d member)

/-- A message's bytes with a queue behind them are that message. -/
theorem Fcall.Carries.wired {m₀ : Store} {fcall : Fcall} {ds : List Field} {id : Byte} {rest : List Byte}
    (carries : fcall.Carries m₀ msg) (fields : msg.type.fields = some ds)
    (short : fcallSize m₀ fcall ≤ vfsMaxMsgLen - mqIdSize) (tail : rest.length + 1 = mqIdSize) :
    msg.Wire id (fcall.wire m₀ ds ++ id :: rest) := by
  have size := fcallSize_eq m₀ fcall msg.type ds carries.type fields
  have positive : 0 < fcallSize m₀ fcall := by
    rw [size, Fcall.wire, List.length_append, Bytes.length_split, intSize]
    omega
  have limit : vfsMaxMsgLen - mqIdSize = 124 := rfl
  have length : (fcall.wire m₀ ds ++ id :: rest).length = fcallSize m₀ fcall + mqIdSize := by
    rw [List.length_append, List.length_cons, tail, size]
  refine ⟨?_, ?_, fun m out buf is => ?_⟩
  · rw [length]
    omega
  · rw [length]
    simp only [vfsMaxMsgLen, mqIdSize] at limit short ⊢
    omega
  obtain ⟨wire, last⟩ := Store.bytes_append is
  rw [← size] at wire last
  obtain ⟨sizeRead, type, tag, values⟩ := fcallBufToMsg_of_wire m₀ m fcall msg.type ds
    (FcallType.code_ofCode carries.type).symm fields (by omega) buf wire out.fcall
  have whole : (fcallMsgSize m₀ fcall).toNat = fcallSize m₀ fcall := by
    rw [fcallMsgSize, BitVec.toNat_ofNat, Nat.mod_eq_of_lt (by omega)]
  have accepted : ¬ (fcallMsgSize m₀ fcall = 0 ∨ vfsMaxMsgLen - mqIdSize < fcallSize m₀ fcall) := by
    rintro (zero | beyond)
    · rw [zero] at whole
      exact absurd whole positive.ne
    · exact absurd short (Nat.not_le.mpr beyond)
  have parsed : vfsMsgParse m out buf = ⟨fcallSize m₀ fcall + mqIdSize,
      ⟨(fcallBufToMsg m buf out.fcall).2.fcall, (m (buf + fcallSize m₀ fcall)).toNat⟩,
      (fcallBufToMsg m buf out.fcall).2.reads ++ [buf + fcallSize m₀ fcall]⟩ := by
    simp only [vfsMsgParse, sizeRead, whole, if_neg accepted]
  have first := Store.bytes_get m (buf + fcallSize m₀ fcall) (id :: rest).length 0 (Nat.succ_pos _)
  rw [last] at first
  have known : FcallType.ofCode (fcallBufToMsg m buf out.fcall).2.fcall.type = some msg.type := type ▸ carries.type
  have read : (fcallBufToMsg m buf out.fcall).2.fcall.Carries m msg := by
    refine ⟨known, tag.trans carries.tag, fun ds' fields' d member => ?_⟩
    obtain rfl := Option.some.inj (fields.symm.trans fields')
    exact (values d member).trans (carries.values ds fields d member)
  rw [parsed, length]
  refine ⟨rfl, congrArg (fun b : Byte => (b.toNat : Int)) (Option.some.inj first).symm, _, congrArg (Option.map _) known, ?_⟩
  exact Fcall.Carries.same (Fcall.message_carries (congrArg (Option.map _) known)) read

theorem Message.Sends.wire {mq : Int} {bytes : List Byte} (sends : msg.Sends mq bytes) :
    msg.Wire ((BitVec.ofInt 32 mq).setWidth 8) bytes := by
  obtain ⟨m, fcall, buf, carries, outside, fits, rfl⟩ := sends
  obtain ⟨ds, fields, enveloped⟩ := carries.enveloped outside fits
  have size := fcallSize_eq m fcall msg.type ds carries.type fields
  have bytes : (vfsMsgPut m ⟨fcall, mq⟩ buf).2.bytes buf (vfsMsgPut m ⟨fcall, mq⟩ buf).1 =
      fcall.wire m ds ++ split (BitVec.ofInt 32 mq) mqIdSize := by
    rw [Enveloped.put (show Enveloped m (VfsMsg.mk fcall mq).fcall ds buf from enveloped), Store.bytes_add, size]
    congr 1
    · refine (Store.bytes_congr fun x _ high => Store.write_outside _ _ _ x (.inl high)).trans ?_
      exact Store.bytes_write ..
    · have read := Store.bytes_write (m.write buf (fcall.wire m ds)) (buf + (fcall.wire m ds).length)
        (split (BitVec.ofInt 32 mq) mqIdSize)
      rwa [Bytes.length_split] at read
  rw [bytes]
  exact carries.wired fields (carries.size ▸ fits.2) rfl

/-- What was parsed in one memory is parsed as the same message in every other. -/
theorem Message.Passes.wire {mq : Int} {bytes : List Byte} (passes : msg.Passes mq bytes) :
    ∃ id : Byte, mq = id.toNat ∧ msg.Wire id bytes := by
  obtain ⟨m, out, buf, rfl, result, parsed, rfl⟩ := passes
  simp only [vfsMsgParse] at result parsed ⊢
  split at result
  · exact absurd rfl result
  next accepted =>
  rw [if_neg accepted] at parsed ⊢
  obtain ⟨some_, short⟩ := not_or.mp accepted
  obtain ⟨t, ds, type, fields, -⟩ := fcallBufToMsg_accepted m buf out.fcall some_
  obtain ⟨wire, size⟩ := fcallBufToMsg_wire m buf out.fcall some_ t ds type fields
  have carries := Fcall.message_carries parsed
  have is : msg.type = t := by
    have known := carries.type
    rw [type, t.ofCode_code] at known
    exact (Option.some.inj known).symm
  refine ⟨_, rfl, ?_⟩
  simp only
  rw [Store.bytes_add, ← wire]
  exact carries.wired (is ▸ fields) (size.le.trans (Nat.le_of_not_lt short)) (congrArg (· + 1) (Store.length_bytes ..))

theorem Message.Wire.of_parsed {id : Byte} {mq : Int} {bytes : List Byte} {got : Message} (wire : msg.Wire id bytes)
    (parsed : got.Parsed mq bytes) : got.Same msg ∧ mq = id.toNat := by
  obtain ⟨m, out, buf, is, -, done, rfl⟩ := parsed
  obtain ⟨-, mq, read, found, same⟩ := wire.parse m out buf is
  obtain rfl := Option.some.inj (done.symm.trans found)
  exact ⟨same, mq⟩

end Message

end Anthill
