import Anthill.FcallWire

set_option autoImplicit false

namespace Anthill

open Bytes (Store Counted split)

-- The fields of a message, none for a type that the switches do not know.
def Fcall.parts (fcall : Fcall) : Option (List Field) := (FcallType.ofCode fcall.type).bind FcallType.fields

-- Memory and ptr where fcall_msg_to_buf returns, past the check of the size.
def fcallSink (m : Store) (fcall : Fcall) (buf : Nat) (ds : List Field) : Sink :=
  ds.foldl (fun o d => d.put fcall o)
    ((((Sink.mk m buf).putUint (fcallMsgSize m fcall)).putUchar fcall.type).putUshort fcall.tag)

-- The address and length of the strings of a field. Their lengths are read again while they are copied; those of
-- the other variable data are part of the message.
def Fcall.strings (m : Store) (fcall : Fcall) : Field → Option (Nat × Nat)
  | .wqid | .data | .stat => none
  | d => fcall.extent m d

/-- Nothing is written and 0 is returned, or only buf[0..length) is written and the count of its bytes returned. -/
def EncodesWithin (m : Store) (fcall : Fcall) (buf : Nat) (length : BitVec 32) : Prop :=
  let done := fcallMsgToBuf m fcall buf length
  done = (0, m) ∨ ∃ ds bs, fcall.parts = some ds ∧ fcallSink m fcall buf ds = (Sink.mk m buf).emit bs ∧
    bs.length ≤ length.toNat ∧ done.2 = m.write buf bs ∧ done.1.toNat = bs.length ∧ done.1 = fcallMsgSize m fcall

theorem fcallSize_unknown (m : Store) (fcall : Fcall) (unknown : fcall.parts = none) : fcallSize m fcall = 0 := by
  rw [Fcall.parts, Option.bind_eq_none_iff] at unknown
  rw [fcallSize]
  rcases known : FcallType.ofCode fcall.type with _ | t
  · rfl
  · have none := unknown t known
    cases t <;> first | rfl | cases none

theorem fcallMsgToBuf_refused (m : Store) (fcall : Fcall) (buf : Nat) (length : BitVec 32)
    (refused : fcallMsgSize m fcall = 0 ∨ length < fcallMsgSize m fcall) :
    fcallMsgToBuf m fcall buf length = (0, m) := by
  rw [fcallMsgToBuf, if_pos refused]

theorem fcallMsgToBuf_accepted (m : Store) (fcall : Fcall) (buf : Nat) (length : BitVec 32) (ds : List Field)
    (parts : fcall.parts = some ds) (accepted : ¬(fcallMsgSize m fcall = 0 ∨ length < fcallMsgSize m fcall)) :
    fcallMsgToBuf m fcall buf length =
      (BitVec.ofNat 32 ((fcallSink m fcall buf ds).ptr - buf), (fcallSink m fcall buf ds).mem) := by
  obtain ⟨t, type, fields⟩ := Option.bind_eq_some_iff.mp parts
  rw [fcallMsgToBuf, if_neg accepted, fcallSink]
  simp only [type]
  cases t <;> cases fields <;> rfl

theorem Sink.putQids_covers (o : Sink) (wqid n : Nat) :
    ∃ bs, bs.length = sizeofQid * n ∧ putQids wqid n o = o.emit bs := by
  induction n generalizing o wqid with
  | zero => exact ⟨[], rfl, rfl⟩
  | succ n ih =>
    have first : ∃ bs, bs.length = sizeofQid ∧ o.putQidAt wqid = o.emit bs := by
      simp only [putQidAt, putUint_eq, putUlong_eq, ← emit_append]
      exact ⟨_, by simp [sizeofQid], rfl⟩
    obtain ⟨xs, long, head⟩ := first
    obtain ⟨ys, rest, tail⟩ := ih (o.emit xs) (wqid + sizeofQid)
    refine ⟨xs ++ ys, ?_, ?_⟩
    · rw [List.length_append, long, rest, Nat.mul_succ, Nat.add_comm]
    · rw [putQids, head, tail, emit_append]

section Covers

variable {m : Store} {fcall : Fcall}

/-- A field takes as many bytes as fcall_msg_size adds for it, also where the data it copies is overwritten by them. -/
theorem Field.put_covers (d : Field) (o : Sink)
    (kept : ∀ e, fcall.strings m d = some e → ∀ a, e.1 ≤ a → a < e.1 + e.2 →
      o.mem a = m a ∧ (a < o.ptr ∨ o.ptr + fcall.size m d ≤ a)) :
    ∃ bs, bs.length = fcall.size m d ∧ d.put fcall o = o.emit bs := by
  have copied (same : fcall.strings m d = fcall.extent m d) :
      ∃ bs, bs.length = fcall.size m d ∧ d.put fcall o = o.emit bs := by
    refine ⟨_, d.length_wire m fcall, d.put_eq m fcall o fun e lies k a low high => ?_⟩
    obtain ⟨equal, away⟩ := kept e (same.trans lies) a low high
    have short := List.length_take_le' k (d.wire (fcall.value m d))
    rw [d.length_wire] at short
    rw [Sink.emit_eq, ← equal]
    exact o.mem.write_outside o.ptr _ a (away.imp_right fun above => by omega)
  cases d with
  | wqid =>
    obtain ⟨bs, long, qids⟩ := (o.putUshort fcall.nwqid).putQids_covers fcall.wqid fcall.nwqid.toNat
    refine ⟨split fcall.nwqid 2 ++ bs, ?_, ?_⟩
    · rw [List.length_append, Bytes.length_split, long]
      rfl
    · rw [Field.put, qids, Sink.emit_append]
      rfl
  | data =>
    refine ⟨split fcall.count 4 ++ (o.putUint fcall.count).mem.bytes fcall.data fcall.count.toNat, ?_, ?_⟩
    · rw [List.length_append, Bytes.length_split, Store.length_bytes]
      rfl
    · rw [Field.put, Sink.memmove, Sink.emit_append, ← Sink.putUint_eq]
  | stat =>
    refine ⟨split fcall.nstat 2 ++ (o.putUshort fcall.nstat).mem.bytes fcall.stat fcall.nstat.toNat, ?_, ?_⟩
    · rw [List.length_append, Bytes.length_split, Store.length_bytes]
      rfl
    · rw [Field.put, Sink.memmove, Sink.emit_append]
      rfl
  | _ => exact copied rfl

theorem puts_covers (ds : List Field) (o : Sink) (first last : Nat) (above : first ≤ o.ptr)
    (below : o.ptr + (ds.map (fcall.size m)).sum ≤ last)
    (kept : ∀ d, d ∈ ds → ∀ e, fcall.strings m d = some e → ∀ a, e.1 ≤ a → a < e.1 + e.2 →
      o.mem a = m a ∧ (a < first ∨ last ≤ a)) :
    ∃ bs, bs.length = (ds.map (fcall.size m)).sum ∧ ds.foldl (fun o d => d.put fcall o) o = o.emit bs := by
  induction ds generalizing o with
  | nil => exact ⟨[], rfl, rfl⟩
  | cons d ds ih =>
    rw [List.map_cons, List.sum_cons] at below
    obtain ⟨xs, long, head⟩ := d.put_covers o fun e lies a low high => by
      obtain ⟨same, away⟩ := kept d List.mem_cons_self e lies a low high
      exact ⟨same, by omega⟩
    have next : (o.emit xs).ptr = o.ptr + fcall.size m d := by rw [Sink.emit_eq, ← long]
    obtain ⟨ys, rest, tail⟩ := ih (o.emit xs) (by omega) (by omega) fun e member f lies a low high => by
      obtain ⟨same, away⟩ := kept e (List.mem_cons_of_mem d member) f lies a low high
      refine ⟨?_, away⟩
      rw [Sink.emit_eq, ← same]
      exact o.mem.write_outside o.ptr xs a (by omega)
    refine ⟨xs ++ ys, ?_, ?_⟩
    · rw [List.length_append, long, rest, List.map_cons, List.sum_cons]
    · rw [List.foldl_cons, head, tail, Sink.emit_append]

theorem length_bodyWire (m : Store) (fcall : Fcall) (ds : List Field) :
    (bodyWire (fcall.value m) ds).length = (ds.map (fcall.size m)).sum := by
  rw [bodyWire, List.length_flatMap]
  exact congrArg List.sum (List.map_congr_left fun d _ => d.length_wire m fcall)

theorem fcallSize_parts {ds : List Field} (parts : fcall.parts = some ds) :
    fcallSize m fcall = 7 + (ds.map (fcall.size m)).sum := by
  obtain ⟨t, type, fields⟩ := Option.bind_eq_some_iff.mp parts
  rw [fcallSize_eq m fcall t ds type fields, Fcall.wire, ← length_bodyWire m fcall ds]
  simp only [List.length_append, Bytes.length_split, intSize, charSize, shrtSize]
  omega

theorem fcallSink_covers {ds : List Field} (parts : fcall.parts = some ds) (buf : Nat)
    (outside : ∀ d, d ∈ ds → ∀ e, fcall.strings m d = some e → ∀ a, e.1 ≤ a → a < e.1 + e.2 →
      a < buf ∨ buf + fcallSize m fcall ≤ a) :
    ∃ bs, bs.length = fcallSize m fcall ∧ fcallSink m fcall buf ds = (Sink.mk m buf).emit bs := by
  have header : ∃ bs, bs.length = 7 ∧
      (((Sink.mk m buf).putUint (fcallMsgSize m fcall)).putUchar fcall.type).putUshort fcall.tag =
        (Sink.mk m buf).emit bs := by
    refine ⟨split (fcallMsgSize m fcall) 4 ++ (split fcall.type 1 ++ split fcall.tag 2), by simp, ?_⟩
    rw [Sink.putUint_eq, Sink.emit_append, Sink.emit_append]
    rfl
  obtain ⟨xs, seven, head⟩ := header
  have size := fcallSize_parts (m := m) parts
  have next : ((Sink.mk m buf).emit xs).ptr = buf + 7 := by rw [Sink.emit_eq, seven]
  obtain ⟨ys, long, tail⟩ := @puts_covers m fcall ds ((Sink.mk m buf).emit xs) buf
    (buf + fcallSize m fcall) (by omega) (by omega) fun d member e lies a low high => by
      have away := outside d member e lies a low high
      refine ⟨?_, away⟩
      rw [Sink.emit_eq]
      exact m.write_outside buf xs a (by omega)
  refine ⟨xs ++ ys, ?_, ?_⟩
  · rw [List.length_append, seven, long, size]
  · rw [fcallSink, head, tail, Sink.emit_append]

end Covers

section Wrapped

variable (m : Store) (fcall : Fcall) (buf : Nat) (length : BitVec 32)
  (outside : ∀ ds, fcall.parts = some ds → ∀ d, d ∈ ds → ∀ e, fcall.strings m d = some e → ∀ a, e.1 ≤ a →
    a < e.1 + e.2 → a < buf ∨ buf + fcallSize m fcall ≤ a)

include outside

theorem encodesWithin_small (small : fcallSize m fcall < 2 ^ 32) : EncodesWithin m fcall buf length := by
  by_cases refused : fcallMsgSize m fcall = 0 ∨ length < fcallMsgSize m fcall
  · exact .inl (fcallMsgToBuf_refused m fcall buf length refused)
  · have size : (fcallMsgSize m fcall).toNat = fcallSize m fcall := by
      rw [fcallMsgSize, BitVec.toNat_ofNat, Nat.mod_eq_of_lt small]
    rcases parts : fcall.parts with _ | ds
    · exact absurd (.inl (by rw [fcallMsgSize, fcallSize_unknown m fcall parts]; rfl)) refused
    · obtain ⟨bs, long, sink⟩ := fcallSink_covers parts buf (outside ds parts)
      have done := fcallMsgToBuf_accepted m fcall buf length ds parts refused
      rw [sink, Sink.emit_eq, Nat.add_sub_cancel_left, long] at done
      rw [← fcallMsgSize] at done
      refine .inr ⟨ds, bs, parts, sink, ?_, by rw [done], by rw [done, long, ← size], by rw [done]⟩
      rw [long, ← size]
      exact Nat.not_lt.mp (fun beyond => refused (.inr beyond))

/-- A size that wraps to one that fits is taken for the message's, which is longer than any buffer. -/
theorem not_encodesWithin (wraps : 2 ^ 32 ≤ fcallSize m fcall)
    (accepted : ¬(fcallMsgSize m fcall = 0 ∨ length < fcallMsgSize m fcall)) :
    ¬EncodesWithin m fcall buf length := by
  rcases parts : fcall.parts with _ | ds
  · exact absurd (.inl (by rw [fcallMsgSize, fcallSize_unknown m fcall parts]; rfl)) accepted
  · obtain ⟨bs, long, sink⟩ := fcallSink_covers parts buf (outside ds parts)
    have done := fcallMsgToBuf_accepted m fcall buf length ds parts accepted
    rw [sink, Sink.emit_eq, Nat.add_sub_cancel_left, long] at done
    rintro (nothing | ⟨ds', bs', parts', sink', inside, -⟩)
    · rw [done] at nothing
      exact accepted (.inl (congrArg Prod.fst nothing))
    · obtain rfl : ds = ds' := Option.some.inj (parts.symm.trans parts')
      rw [sink', Sink.emit_eq, Sink.emit_eq] at sink
      have same : buf + bs'.length = buf + bs.length := congrArg Sink.ptr sink
      have bounded := length.isLt
      omega

theorem fcallMsgToBuf_within : EncodesWithin m fcall buf length ↔
    fcallSize m fcall < 2 ^ 32 ∨ fcallSize m fcall % 2 ^ 32 = 0 ∨ length.toNat < fcallSize m fcall % 2 ^ 32 := by
  have size : (fcallMsgSize m fcall).toNat = fcallSize m fcall % 2 ^ 32 := by rw [fcallMsgSize, BitVec.toNat_ofNat]
  constructor
  · intro within
    by_contra beyond
    push Not at beyond
    obtain ⟨wraps, positive, fits⟩ := beyond
    refine not_encodesWithin m fcall buf length outside wraps ?_ within
    rintro (zero | long)
    · exact positive (by rw [← size, zero]; rfl)
    · rw [BitVec.lt_def, size] at long
      omega
  · rintro (small | zero | long)
    · exact encodesWithin_small m fcall buf length outside small
    · exact .inl (fcallMsgToBuf_refused m fcall buf length (.inl (BitVec.eq_of_toNat_eq (size.trans zero))))
    · exact .inl (fcallMsgToBuf_refused m fcall buf length (.inr (by rwa [BitVec.lt_def, size])))

end Wrapped

-- A read of 2 ^ 32 - 1 bytes is answered: the size of the answer wraps to 10.
def longAnswer : Fcall := { (default : Fcall) with type := 113, count := 0xffffffff }

theorem longAnswer_outside (m : Store) (buf : Nat) : ∀ ds, longAnswer.parts = some ds → ∀ d, d ∈ ds → ∀ e,
    longAnswer.strings m d = some e → ∀ a, e.1 ≤ a → a < e.1 + e.2 →
      a < buf ∨ buf + fcallSize m longAnswer ≤ a := by
  intro ds parts d member e lies
  obtain rfl : [Field.data] = ds := Option.some.inj parts
  obtain rfl := List.mem_singleton.mp member
  cases lies

theorem fcallMsgToBuf_within_long : EncodesWithin (fun _ => 0) longAnswer 0 9 ↔
    fcallSize (fun _ => 0) longAnswer < 2 ^ 32 ∨ fcallSize (fun _ => 0) longAnswer % 2 ^ 32 = 0 ∨
      (9 : BitVec 32).toNat < fcallSize (fun _ => 0) longAnswer % 2 ^ 32 :=
  fcallMsgToBuf_within (fun _ => 0) longAnswer 0 9 (longAnswer_outside _ 0)

theorem longAnswer_beyond : ¬EncodesWithin (fun _ => 0) longAnswer 0 256 :=
  not_encodesWithin (fun _ => 0) longAnswer 0 256 (longAnswer_outside _ 0) (by decide) (by decide)

end Anthill
