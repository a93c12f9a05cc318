import Anthill.FcallParse

set_option autoImplicit false

namespace Anthill

open Bytes (Store)

def vfsMaxMsgLen : Nat := 128

def mqIdSize : Nat := 4

structure VfsMsg where
  fcall : Fcall
  mqId : Int

structure VfsParsed where
  result : Nat
  msg : VfsMsg
  reads : List Nat

def vfsMsgParse (m : Store) (msg : VfsMsg) (buf : Nat) : VfsParsed :=
  let (len, p) := fcallBufToMsg m buf msg.fcall
  if len = 0 ∨ vfsMaxMsgLen - mqIdSize < len.toNat then ⟨0, ⟨p.fcall, -1⟩, p.reads⟩
  else
    -- One character of the message queue's id.
    ⟨len.toNat + mqIdSize, ⟨p.fcall, (m (buf + len.toNat)).toNat⟩, p.reads ++ [buf + len.toNat]⟩

def Parse.Within (p : Parse) (limit : Nat) : Prop := ∀ a, a ∈ p.reads → a < limit

theorem Parse.read_within (p : Parse) (n limit : Nat) (positive : 0 < n) :
    (p.read n).Within limit ↔ p.Within limit ∧ p.ptr + n ≤ limit := by
  simp only [Within, read, List.mem_append, List.mem_range'_1]
  constructor
  · intro within
    have last := within (p.ptr + n - 1) (.inr (by omega))
    exact ⟨fun a member => within a (.inl member), by omega⟩
  · rintro ⟨within, short⟩ a (member | new)
    · exact within a member
    · omega

theorem Parse.pstring_within (m : Store) (p : Parse) (limit : Nat) :
    (p.pstring m).Within limit ↔ p.Within limit ∧ p.ptr + shrtSize ≤ limit :=
  p.read_within shrtSize limit (by decide)

theorem Parse.path_within (m : Store) (n : Nat) (p : Parse) (limit : Nat) : (p.path m n).Within limit ↔
    p.Within limit ∧ ∀ i, i < n → p.ptr + pathLength m p.ptr i + shrtSize ≤ limit := by
  induction n generalizing p with
  | zero => exact ⟨fun within => ⟨within, fun i small => absurd small (Nat.not_lt_zero i)⟩, And.left⟩
  | succ n ih =>
    have next : (p.pstring m).ptr = p.ptr + pstrlen m p.ptr := rfl
    rw [path, ih, pstring_within, next]
    constructor
    · rintro ⟨⟨within, first⟩, rest⟩
      refine ⟨within, fun i small => ?_⟩
      cases i with
      | zero => exact first
      | succ i =>
        rw [pathLength, ← Nat.add_assoc]
        exact rest i (Nat.lt_of_succ_lt_succ small)
    · rintro ⟨within, all⟩
      refine ⟨⟨within, all 0 (Nat.succ_pos n)⟩, fun i small => ?_⟩
      have later := all (i + 1) (Nat.succ_lt_succ small)
      rwa [pathLength, ← Nat.add_assoc] at later

-- The bytes of the field that are read lie before the limit.
def Field.Inside (m : Store) (ptr limit : Nat) : Field → Prop
  | .fid | .msize | .afid | .iounit | .newfid | .perm | .count | .mfid | .data => ptr + intSize ≤ limit
  | .version | .ename | .uname | .aname | .name | .wqid | .stat => ptr + shrtSize ≤ limit
  | .wname => ptr + shrtSize ≤ limit ∧ ∀ i, i < (getUshort m ptr).toNat →
      ptr + shrtSize + pathLength m (ptr + shrtSize) i + shrtSize ≤ limit
  | .qid => ptr + sizeofQid ≤ limit
  | .mode => ptr + charSize ≤ limit
  | .offset => ptr + longSize ≤ limit

theorem Field.take_within (m : Store) (d : Field) (p : Parse) (limit : Nat) :
    (d.take m p).Within limit ↔ p.Within limit ∧ d.Inside m p.ptr limit := by
  cases d with
  | fid | msize | afid | iounit | newfid | perm | count | mfid | data => exact p.read_within intSize limit (by decide)
  | version | ename | uname | aname | name | wqid | stat => exact p.read_within shrtSize limit (by decide)
  | mode => exact p.read_within charSize limit (by decide)
  | offset => exact p.read_within longSize limit (by decide)
  | wname =>
    refine (Parse.path_within m _ _ limit).trans ?_
    exact (and_congr_left' (p.read_within shrtSize limit (by decide))).trans and_assoc
  | qid =>
    refine (Parse.read_within _ longSize limit (by decide)).trans ?_
    refine (and_congr_left' ((Parse.read_within _ intSize limit (by decide)).trans
      (and_congr_left' (p.read_within intSize limit (by decide))))).trans ?_
    simp only [Parse.read, Inside, intSize, longSize, sizeofQid]
    constructor
    · rintro ⟨⟨⟨within, -⟩, -⟩, last⟩
      exact ⟨within, by omega⟩
    · rintro ⟨within, last⟩
      exact ⟨⟨⟨within, by omega⟩, by omega⟩, by omega⟩

-- The lengths that the decoder follows are in the buffer, with what is read after the last of them.
def Chained (m : Store) (buf : Nat) : Prop :=
  match FcallType.ofCode (getUchar m (buf + 4)) with
  | some .tattach => 15 + pstrlen m (buf + 15) + shrtSize ≤ vfsMaxMsgLen
  | some .tcreate => 11 + pstrlen m (buf + 11) + intSize + charSize ≤ vfsMaxMsgLen
  | some .twalk => ∀ i, i < (getUshort m (buf + 15)).toNat →
      17 + pathLength m (buf + 17) i + shrtSize ≤ vfsMaxMsgLen
  | _ => True

theorem Parse.header_within (m : Store) (buf : Nat) (out : Fcall) :
    (Parse.header m buf out).Within (buf + vfsMaxMsgLen) := by
  intro a member
  simp only [header, type, tag, read, intSize, charSize, shrtSize, List.mem_append, List.mem_range'_1,
    List.not_mem_nil, false_or] at member
  rw [vfsMaxMsgLen]
  omega

theorem takes_within (m : Store) (buf : Nat) (out : Fcall) (t : FcallType) (ds : List Field)
    (type : FcallType.ofCode (getUchar m (buf + 4)) = some t) (fields : t.fields = some ds) :
    (takes m ds (Parse.header m buf out)).Within (buf + vfsMaxMsgLen) ↔ Chained m buf := by
  have header := Parse.header_within m buf out
  have start : (Parse.header m buf out).ptr = buf + 7 := rfl
  rw [Chained, type]
  cases t <;> cases fields <;>
    simp only [takes, List.foldl_cons, List.foldl_nil, Field.take_within, Field.take_ptr, header, start, true_and,
      Field.Inside, Field.length, Nat.add_assoc, intSize, shrtSize, charSize, longSize, sizeofQid, Nat.reduceAdd] <;>
    simp only [vfsMaxMsgLen, Nat.add_le_add_iff_left, Nat.reduceLeDiff, true_and]
  case tcreate => omega

theorem fcallBufToMsg_within (m : Store) (buf : Nat) (out : Fcall) :
    (fcallBufToMsg m buf out).2.Within (buf + vfsMaxMsgLen) ↔ Chained m buf := by
  have type : (Parse.header m buf out).fcall.type = getUchar m (buf + 4) := rfl
  have last (size : BitVec 32) (p : Parse) :
      (if size.toNat ≠ p.ptr - buf then (0, p) else (size, p)).2 = p := by split <;> rfl
  rw [fcallBufToMsg, Parse.body_eq, type]
  cases found : FcallType.ofCode (getUchar m (buf + 4)) with
  | none => simp only [Option.bind_none, Option.map_none, Parse.header_within, Chained, found]
  | some t =>
    cases fields : t.fields with
    | none =>
      obtain rfl : t = .terror := by cases t <;> first | rfl | cases fields
      simp only [Option.bind_some, fields, Option.map_none, Parse.header_within, Chained, found]
    | some ds =>
      simp only [Option.bind_some, fields, Option.map_some, last]
      exact takes_within m buf out t ds found fields

-- Whether or not the decoder has left the buffer, what it accepts lies inside.
theorem vfsMsgParse_inside (m : Store) (msg : VfsMsg) (buf : Nat) :
    ((∀ a, a ∈ (vfsMsgParse m msg buf).reads → a < buf + vfsMaxMsgLen) ↔ Chained m buf) ∧
    ((vfsMsgParse m msg buf).result ≠ 0 → ∀ (t : FcallType) (ds : List Field),
      (vfsMsgParse m msg buf).msg.fcall.type = t.code → t.fields = some ds → ∀ d, d ∈ ds → ∀ e,
        (vfsMsgParse m msg buf).msg.fcall.extent m d = some e → buf ≤ e.1 ∧ e.1 + e.2 ≤ buf + vfsMaxMsgLen) := by
  have within := fcallBufToMsg_within m buf msg.fcall
  rw [vfsMsgParse]
  simp only
  split
  · exact ⟨within, fun accepted => absurd rfl accepted⟩
  · next passes =>
    obtain ⟨accepted, short⟩ := not_or.mp passes
    have room : (fcallBufToMsg m buf msg.fcall).1.toNat + mqIdSize ≤ vfsMaxMsgLen := by
      simp only [vfsMaxMsgLen, mqIdSize] at short ⊢
      omega
    have tail : buf + (fcallBufToMsg m buf msg.fcall).1.toNat < buf + vfsMaxMsgLen := by
      simp only [mqIdSize] at room
      omega
    refine ⟨?_, fun _ t ds type fields d member e lies => ?_⟩
    · rw [← within]
      simp only [Parse.Within, List.mem_append, List.mem_singleton]
      constructor
      · exact fun all a member => all a (.inl member)
      · rintro all a (member | rfl)
        · exact all a member
        · exact tail
    · obtain ⟨t', ds', type', fields', parsed, ptr, -⟩ := fcallBufToMsg_accepted m buf msg.fcall accepted
      have code := type'.symm.trans type
      obtain rfl : t' = t := by
        have same := congrArg FcallType.ofCode code
        rw [t'.ofCode_code, t.ofCode_code] at same
        exact Option.some.inj same
      obtain rfl : ds' = ds := Option.some.inj (fields'.symm.trans fields)
      simp only at lies
      rw [parsed] at lies
      obtain ⟨low, high⟩ := takes_extent m ds' _ (t'.fields_apart ds' fields) d member e lies
      have start : (Parse.header m buf msg.fcall).ptr = buf + 7 := rfl
      rw [← parsed, ptr] at high
      omega

-- A Tattach whose uname is said to be 65535 bytes long: the length of aname is looked for behind it.
def longName : Store := fun a => if a = 4 then 104 else if a = 15 ∨ a = 16 then 255 else 0

theorem longName_leaves : ¬ ∀ (m : Store) (msg : VfsMsg) (buf a : Nat),
    a ∈ (vfsMsgParse m msg buf).reads → a < buf + vfsMaxMsgLen := by
  intro claim
  have read : 65552 ∈ (vfsMsgParse longName ⟨default, 0⟩ 0).reads := by decide +kernel
  exact absurd (claim longName ⟨default, 0⟩ 0 65552 read) (by decide)

end Anthill
