import Anthill.FcallBounds
import Anthill.VfsMsg

set_option autoImplicit false

namespace Anthill

open Bytes (Store split)

def vfsMsgPut (m : Store) (msg : VfsMsg) (buf : Nat) : Nat × Store :=
  let (len, m) := fcallMsgToBuf m msg.fcall buf (BitVec.ofNat 32 (vfsMaxMsgLen - mqIdSize))
  if len = 0 then (0, m)
  else (len.toNat + mqIdSize, m.write (buf + len.toNat) (split (BitVec.ofInt 32 msg.mqId) mqIdSize))

/-- The message fits in front of an id, and its variable data is not in the buffer. -/
structure Enveloped (m : Store) (fcall : Fcall) (ds : List Field) (buf : Nat) : Prop where
  parts : fcall.parts = some ds
  fits : fcallSize m fcall ≤ vfsMaxMsgLen - mqIdSize
  outside : ∀ d, d ∈ ds → ∀ e, fcall.extent m d = some e → ∀ a, e.1 ≤ a → a < e.1 + e.2 →
    a < buf ∨ buf + fcallSize m fcall ≤ a

/-- What was put into the buffer is parsed from it: its length, the message and the id. -/
def Survives (m : Store) (msg out : VfsMsg) (ds : List Field) (buf : Nat) : Prop :=
  let put := vfsMsgPut m msg buf
  let parsed := vfsMsgParse put.2 out buf
  parsed.result = put.1 ∧ parsed.msg.fcall.type = msg.fcall.type ∧ parsed.msg.fcall.tag = msg.fcall.tag ∧
    (∀ d, d ∈ ds → parsed.msg.fcall.value put.2 d = msg.fcall.value m d) ∧ parsed.msg.mqId = msg.mqId

section Envelope

variable {m : Store} {msg : VfsMsg} {ds : List Field} {buf : Nat} (enveloped : Enveloped m msg.fcall ds buf)

include enveloped

theorem Enveloped.size : (fcallMsgSize m msg.fcall).toNat = fcallSize m msg.fcall ∧ 0 < fcallSize m msg.fcall ∧
    fcallSize m msg.fcall ≤ 124 := by
  have fits : fcallSize m msg.fcall ≤ 124 := enveloped.fits
  obtain ⟨t, type, fields⟩ := Option.bind_eq_some_iff.mp enveloped.parts
  have long := fcallSize_eq m msg.fcall t ds type fields
  simp only [Fcall.wire, List.length_append, Bytes.length_split, intSize] at long
  refine ⟨?_, by omega, fits⟩
  rw [fcallMsgSize, BitVec.toNat_ofNat, Nat.mod_eq_of_lt (by omega)]

theorem Enveloped.put : vfsMsgPut m msg buf = (fcallSize m msg.fcall + mqIdSize,
    (m.write buf (msg.fcall.wire m ds)).write (buf + fcallSize m msg.fcall) (split (BitVec.ofInt 32 msg.mqId) mqIdSize)) := by
  obtain ⟨t, type, fields⟩ := Option.bind_eq_some_iff.mp enveloped.parts
  obtain ⟨size, positive, -⟩ := enveloped.size
  have some_ : fcallMsgSize m msg.fcall ≠ 0 := fun zero => by
    rw [zero] at size
    exact absurd size positive.ne
  have written := fcallMsgToBuf_outside m msg.fcall buf (BitVec.ofNat 32 (vfsMaxMsgLen - mqIdSize)) t ds type fields
    enveloped.fits enveloped.outside
  rw [vfsMsgPut, written]
  simp only [some_, if_false, size]

/-- Only the low byte of the id comes back. -/
theorem Enveloped.parse (out : VfsMsg) : let put := vfsMsgPut m msg buf
    let parsed := vfsMsgParse put.2 out buf
    parsed.result = put.1 ∧ parsed.msg.fcall.type = msg.fcall.type ∧ parsed.msg.fcall.tag = msg.fcall.tag ∧
      (∀ d, d ∈ ds → parsed.msg.fcall.value put.2 d = msg.fcall.value m d) ∧
      parsed.msg.mqId = (((BitVec.ofInt 32 msg.mqId).setWidth 8).toNat : Int) := by
  obtain ⟨t, type, fields⟩ := Option.bind_eq_some_iff.mp enveloped.parts
  obtain ⟨size, positive, short⟩ := enveloped.size
  rw [enveloped.put]
  intro put parsed
  have written : put.2.bytes buf (fcallSize m msg.fcall) = msg.fcall.wire m ds := by
    have length := fcallSize_eq m msg.fcall t ds type fields
    have kept : put.2.bytes buf (fcallSize m msg.fcall) =
        (m.write buf (msg.fcall.wire m ds)).bytes buf (fcallSize m msg.fcall) :=
      Store.bytes_congr fun x _ high => Store.write_outside _ _ _ x (.inl high)
    rw [kept, length, Store.bytes_write]
  have id : put.2 (buf + fcallSize m msg.fcall) = (BitVec.ofInt 32 msg.mqId).setWidth 8 := by
    have first := Store.bytes_get put.2 (buf + fcallSize m msg.fcall) 4 0 (by decide)
    have whole : put.2.bytes (buf + fcallSize m msg.fcall) 4 = split (BitVec.ofInt 32 msg.mqId) 4 := by
      have read := Store.bytes_write (m.write buf (msg.fcall.wire m ds)) (buf + fcallSize m msg.fcall)
        (split (BitVec.ofInt 32 msg.mqId) 4)
      rwa [Bytes.length_split] at read
    rw [whole] at first
    exact (Option.some.inj first).symm
  obtain ⟨sizeBack, typeBack, tagBack, values⟩ := fcallBufToMsg_of_wire m put.2 msg.fcall t ds
    (FcallType.code_ofCode type).symm fields (by omega) buf written out.fcall
  have accepted : ¬ (fcallMsgSize m msg.fcall = 0 ∨ vfsMaxMsgLen - mqIdSize < (fcallMsgSize m msg.fcall).toNat) := by
    have limit : vfsMaxMsgLen - mqIdSize = 124 := rfl
    rintro (zero | beyond)
    · rw [zero] at size
      exact absurd size positive.ne
    · omega
  have is : parsed = ⟨(fcallMsgSize m msg.fcall).toNat + mqIdSize,
      ⟨(fcallBufToMsg put.2 buf out.fcall).2.fcall, (put.2 (buf + (fcallMsgSize m msg.fcall).toNat)).toNat⟩,
      (fcallBufToMsg put.2 buf out.fcall).2.reads ++ [buf + (fcallMsgSize m msg.fcall).toNat]⟩ := by
    show vfsMsgParse put.2 out buf = _
    simp only [vfsMsgParse, sizeBack, accepted, if_false]
  rw [is, size, id]
  exact ⟨rfl, typeBack, tagBack, values, rfl⟩

theorem envelope_survives_iff (out : VfsMsg) (low : 0 ≤ msg.mqId) (high : msg.mqId < 2147483648) :
    Survives m msg out ds buf ↔ msg.mqId < 256 := by
  obtain ⟨result, type, tag, values, id⟩ := enveloped.parse out
  have byte : (((BitVec.ofInt 32 msg.mqId).setWidth 8).toNat : Int) = msg.mqId % 256 := by
    rw [BitVec.toNat_setWidth, BitVec.toNat_ofInt]
    omega
  constructor
  · rintro ⟨-, -, -, -, same⟩
    have residue := same.symm.trans (id.trans byte)
    omega
  · intro small
    refine ⟨result, type, tag, values, id.trans (byte.trans ?_)⟩
    omega

end Envelope

-- A Tclunk.
def clunk : Fcall := { (default : Fcall) with type := 116, tag := 1, fid := 7 }

theorem clunk_enveloped (m : Store) (buf : Nat) : Enveloped m clunk [.fid] buf where
  parts := rfl
  fits := (by decide : 11 ≤ 124)
  outside d member e lies := by
    obtain rfl := List.mem_singleton.mp member
    cases lies

theorem envelope_survives_clunk : Survives (fun _ => 0) ⟨clunk, 255⟩ ⟨default, 0⟩ [.fid] 64 :=
  (envelope_survives_iff (clunk_enveloped _ 64) ⟨default, 0⟩ (by decide) (by decide)).mpr (by decide)

theorem envelope_cuts_id : ¬ ∀ (m : Store) (msg out : VfsMsg) (ds : List Field) (buf : Nat),
    Enveloped m msg.fcall ds buf → 0 ≤ msg.mqId → msg.mqId < 2147483648 → Survives m msg out ds buf := by
  intro survives
  obtain ⟨-, -, -, -, same⟩ := survives (fun _ => 0) ⟨clunk, 256⟩ ⟨default, 0⟩ [.fid] 64 (clunk_enveloped _ 64)
    (by decide) (by decide)
  have enveloped : Enveloped (fun _ => 0) (VfsMsg.mk clunk 256).fcall [.fid] 64 := clunk_enveloped _ 64
  obtain ⟨-, -, -, -, id⟩ := enveloped.parse ⟨default, 0⟩
  cases same.symm.trans id

end Anthill
