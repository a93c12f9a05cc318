import Anthill.Copying
import Anthill.Stdio
import Anthill.VfsEnvelope
import Anthill.VnodeForward

set_option autoImplicit false

namespace Anthill

open Bytes (Store split)

structure VfsSent where
  result : Nat
  msg : VfsMsg
  mem : Store

-- vfs_msg_send, with the bytes that are received, if the message is sent and an answer comes.
def vfsMsgSend (m : Store) (msg : VfsMsg) (buf : Nat) (answer : Option (List Byte)) : VfsSent :=
  let put := vfsMsgPut m msg buf
  if put.1 = 0 then ⟨0, msg, put.2⟩
  else
    match answer with
    | none => ⟨0, msg, put.2⟩
    | some bytes =>
      let m := put.2.write buf bytes
      let parsed := vfsMsgParse m msg buf
      ⟨parsed.result, parsed.msg, m⟩

/-- The variables of vnode_wrap, the messages that it has passed to vfs_msg_send with the queue of each, and what it has
written through `buf` and `pos`. -/
structure Wrapping where
  msg : VfsMsg
  pos : Nat
  tagCount : BitVec 32
  trace : Accessed
  sent : List (Int × Fcall)

inductive WrapEnd where
  | returns (error : VfsError)
  | null
deriving DecidableEq

def Wrapping.send (s : Wrapping) (out vfsIn : Int) (fcall : Fcall) (rwBuf : Nat) (answer : Option (List Byte)) :
    Nat × Wrapping :=
  let msg : VfsMsg := ⟨{ fcall with tag := s.tagCount.setWidth 16 }, vfsIn⟩
  let sending := vfsMsgSend s.trace.mem msg rwBuf answer
  (sending.result, { s with
    msg := sending.msg
    tagCount := s.tagCount + 1
    trace := { s.trace with mem := sending.mem }
    sent := s.sent ++ [(out, msg.fcall)] })

def Wrapping.twrite (s : Wrapping) (channel : Vnode) (buf n : Nat) : Fcall :=
  { s.msg.fcall with
    type := FcallType.twrite.code
    fid := channel.qid.id.setWidth 32
    offset := 0
    count := BitVec.ofNat 32 n
    data := buf }

def Wrapping.tread (s : Wrapping) (mount : Vnode) : Fcall :=
  { s.msg.fcall with
    type := FcallType.tread.code
    fid := mount.qid.id.setWidth 32
    offset := 0
    count := BitVec.ofNat 32 vfsMaxIounit }

-- memcpy(pos, vfs_msg.fcall.data, vfs_msg.fcall.count)
def Wrapping.append (s : Wrapping) : Wrapping :=
  { s with
    trace := s.trace.move s.pos s.msg.fcall.data s.msg.fcall.count.toNat
    pos := s.pos + s.msg.fcall.count.toNat }

-- The state in which the Twrite is sent: the low byte of the id is in the message.
def Wrapping.start (v : Vnode) (m : Store) (msg : VfsMsg) (tagCount : BitVec 32) (buf : Nat) : Wrapping :=
  ⟨msg, buf, tagCount, ⟨m.set (buf + fcallFidOff) (v.qid.id.setWidth 8), [], [buf + fcallFidOff]⟩, []⟩

section Wrap

variable (t : VnodeTree) (v : Vnode)

/-- A round of the loop, and how the call ends if it does. -/
def wrapRound (channel : Vnode) (vfsIn : Int) (rwBuf : Nat) (answer : Option (List Byte)) (s : Wrapping) :
    Option WrapEnd × Wrapping :=
  match v.mountNode with
  | none => (some .null, s)
  | some mount =>
    let sending := s.send channel.mqId vfsIn (s.tread (t.node mount)) rwBuf answer
    if sending.1 = 0 then (some (.returns .mqerr), sending.2)
    else if sending.2.msg.fcall.type ≠ FcallType.rread.code then (some (.returns .mqerr), sending.2)
    else (if sending.2.msg.fcall.count = 0 then some (.returns .ok) else none, sending.2.append)

-- Behind the last answer of the list no more is received.
def wrapLoop (channel : Vnode) (vfsIn : Int) (rwBuf : Nat) : List (List Byte) → Wrapping → WrapEnd × Wrapping
  | [], s =>
    let round := wrapRound t v channel vfsIn rwBuf none s
    (round.1.getD (.returns .mqerr), round.2)
  | answer :: answers, s =>
    let round := wrapRound t v channel vfsIn rwBuf (some answer) s
    match round.1 with
    | some ends => (ends, round.2)
    | none => wrapLoop channel vfsIn rwBuf answers round.2

/-- `first` is the answer to the Twrite, and `answers` are those to the Treads. -/
def vnodeWrap (vfsIn : Int) (tagCount : BitVec 32) (m : Store) (msg : VfsMsg) (buf n rwBuf : Nat)
    (first : Option (List Byte)) (answers : List (List Byte)) : WrapEnd × Wrapping :=
  let s := Wrapping.start v m msg tagCount buf
  match v.channelNode with
  | none => (.null, s)
  | some channel =>
    let sending := s.send (t.node channel).mqId vfsIn (s.twrite (t.node channel) buf n) rwBuf first
    if sending.1 = 0 then (.returns .mqerr, sending.2)
    else if sending.2.msg.fcall.type ≠ FcallType.rwrite.code then (.returns .mqerr, sending.2)
    else wrapLoop t v (t.node channel) vfsIn rwBuf answers sending.2

end Wrap

/-- An Rread as it comes from a queue, with an id behind it. -/
structure Rread where
  tag : BitVec 16
  data : List Byte
  mqId : BitVec 32

def Rread.wire (r : Rread) : List Byte :=
  split (BitVec.ofNat 32 (11 + r.data.length)) 4 ++ (split FcallType.rread.code 1 ++ (split r.tag 2 ++
    (split (BitVec.ofNat 32 r.data.length) 4 ++ (r.data ++ split r.mqId 4))))

-- The bytes that are appended for the answers: a count of zero ends the loop.
def appended : List Rread → Nat
  | [] => 0
  | r :: rs => if r.data.length = 0 then 0 else r.data.length + appended rs

/-- The call follows no null pointer, reads from the fid of the channel and writes inside the buffer of the message. -/
structure StaysIn (channel : Vnode) (buf : Nat) (done : WrapEnd × Wrapping) : Prop where
  null : done.1 ≠ .null
  fids : ∀ request, request ∈ done.2.sent → request.2.type = FcallType.tread.code →
    request.1 = channel.mqId ∧ request.2.fid = channel.qid.id.setWidth 32
  inside : ∀ a, a ∈ done.2.trace.writes → buf ≤ a ∧ a < buf + vfsMaxMsgLen

-- The Twrite as it is put into rw_buf.
def Wrapping.opening (s : Wrapping) (channel : Vnode) (vfsIn : Int) (buf n : Nat) : VfsMsg :=
  ⟨{ s.twrite channel buf n with tag := s.tagCount.setWidth 16 }, vfsIn⟩

/-- The Twrite is short enough to be sent, and what is received for it is an Rwrite for vfs_msg_parse. -/
def WriteTaken (channel : Vnode) (vfsIn : Int) (buf n rwBuf : Nat) (first : Option (List Byte)) (s : Wrapping) : Prop :=
  let msg := s.opening channel vfsIn buf n
  wrapSize n ≤ vfsMaxMsgLen - mqIdSize ∧ ∃ bytes, first = some bytes ∧
    let parsed := vfsMsgParse ((vfsMsgPut s.trace.mem msg rwBuf).2.write rwBuf bytes) msg rwBuf
    parsed.result ≠ 0 ∧ parsed.msg.fcall.type = FcallType.rwrite.code

theorem vfsMsgSend_answered (m : Store) (msg : VfsMsg) (buf : Nat) (answer : Option (List Byte)) (type : Byte) :
    (vfsMsgSend m msg buf answer).result ≠ 0 ∧ (vfsMsgSend m msg buf answer).msg.fcall.type = type ↔
      (vfsMsgPut m msg buf).1 ≠ 0 ∧ ∃ bytes, answer = some bytes ∧
        let parsed := vfsMsgParse ((vfsMsgPut m msg buf).2.write buf bytes) msg buf
        parsed.result ≠ 0 ∧ parsed.msg.fcall.type = type := by
  by_cases put : (vfsMsgPut m msg buf).1 = 0
  · simp [vfsMsgSend, put]
  · cases answer <;> simp [vfsMsgSend, put]

theorem vfsMsgPut_sends (m : Store) (msg : VfsMsg) (buf : Nat) (ds : List Field) (parts : msg.fcall.parts = some ds)
    (plain : ∀ d, d ∈ ds → msg.fcall.strings m d = none) (size : fcallSize m msg.fcall < 2 ^ 32) :
    (vfsMsgPut m msg buf).1 = 0 ↔ vfsMaxMsgLen - mqIdSize < fcallSize m msg.fcall := by
  have length : (fcallMsgSize m msg.fcall).toNat = fcallSize m msg.fcall := by
    rw [fcallMsgSize, BitVec.toNat_ofNat, Nat.mod_eq_of_lt size]
  have whole := fcallSize_parts (m := m) parts
  have some_ : fcallMsgSize m msg.fcall ≠ 0 := fun zero => by
    rw [zero, whole] at length
    exact absurd length.symm (Nat.ne_of_gt (Nat.lt_add_right _ (by decide)))
  have limit : vfsMaxMsgLen - mqIdSize = 124 := rfl
  constructor
  · intro none_
    by_contra fits
    have accepted : ¬(fcallMsgSize m msg.fcall = 0 ∨
        BitVec.ofNat 32 (vfsMaxMsgLen - mqIdSize) < fcallMsgSize m msg.fcall) := by
      rintro (zero | beyond)
      · exact some_ zero
      · rw [BitVec.lt_def, length] at beyond
        exact fits beyond
    obtain ⟨bs, long, sink⟩ := fcallSink_covers (m := m) parts buf fun d member e lies =>
      absurd ((plain d member).symm.trans lies) (Option.some_ne_none e).symm
    have put := fcallMsgToBuf_accepted m msg.fcall buf _ ds parts accepted
    rw [sink, Sink.emit_eq, Nat.add_sub_cancel_left, long] at put
    have same : BitVec.ofNat 32 (fcallSize m msg.fcall) = fcallMsgSize m msg.fcall := rfl
    rw [vfsMsgPut, put] at none_
    simp only [same, some_, if_false, mqIdSize] at none_
    omega
  · intro beyond
    have refused := fcallMsgToBuf_refused m msg.fcall buf (BitVec.ofNat 32 (vfsMaxMsgLen - mqIdSize)) <| .inr <| by
      rw [BitVec.lt_def, length]
      exact beyond
    rw [vfsMsgPut, refused]
    rfl

/-- What is received as an Rread is parsed as one. -/
theorem Rread.received (r : Rread) (m : Store) (msg : VfsMsg) (buf : Nat) (short : r.data.length ≤ vfsMaxIounit) :
    let parsed := vfsMsgParse (m.write buf r.wire) msg buf
    parsed.result ≠ 0 ∧ parsed.msg.fcall.type = FcallType.rread.code ∧
      parsed.msg.fcall.count = BitVec.ofNat 32 r.data.length := by
  have limit : vfsMaxIounit = 100 := rfl
  have written := m.bytes_write buf r.wire
  generalize m.write buf r.wire = m' at written ⊢
  rw [Rread.wire] at written
  obtain ⟨size, rest⟩ := Store.bytes_append written
  obtain ⟨type, rest⟩ := Store.bytes_append rest
  obtain ⟨-, rest⟩ := Store.bytes_append rest
  obtain ⟨count, -⟩ := Store.bytes_append rest
  simp only [Bytes.length_split] at size type count
  have sizeIs : getUint m' buf = BitVec.ofNat 32 (11 + r.data.length) := getUint_bytes size
  have typeIs : getUchar m' (buf + 4) = FcallType.rread.code := (List.cons.inj type).1.trans (BitVec.setWidth_eq _)
  have countIs : getUint m' (buf + 7) = BitVec.ofNat 32 r.data.length := getUint_bytes count
  have length : (getUint m' (buf + 7)).toNat = r.data.length := by
    rw [countIs, BitVec.toNat_ofNat]
    omega
  have total : (getUint m' buf).toNat = 11 + r.data.length := by
    rw [sizeIs, BitVec.toNat_ofNat]
    omega
  have body : (Parse.header m' buf msg.fcall).body m' = some ((Parse.header m' buf msg.fcall).data m') := by
    have known : FcallType.ofCode (Parse.header m' buf msg.fcall).fcall.type = some .rread :=
      (congrArg FcallType.ofCode typeIs).trans (FcallType.ofCode_code .rread)
    rw [Parse.body_eq, known]
    rfl
  have ends : ((Parse.header m' buf msg.fcall).data m').ptr - buf = 11 + r.data.length := by
    have ptr : ((Parse.header m' buf msg.fcall).data m').ptr = buf + 7 + 4 + (getUint m' (buf + 7)).toNat := rfl
    rw [ptr, length]
    omega
  have parsed : fcallBufToMsg m' buf msg.fcall = (getUint m' buf, (Parse.header m' buf msg.fcall).data m') := by
    rw [fcallBufToMsg]
    simp only [body, ends, total, ne_eq, not_true_eq_false, if_false]
  have accepted : ¬(getUint m' buf = 0 ∨ vfsMaxMsgLen - mqIdSize < (getUint m' buf).toNat) := by
    have room : vfsMaxMsgLen - mqIdSize = 124 := rfl
    rintro (zero | beyond)
    · have none_ : (getUint m' buf).toNat = 0 := congrArg BitVec.toNat zero
      omega
    · omega
  have result : vfsMsgParse m' msg buf = ⟨(getUint m' buf).toNat + mqIdSize,
      ⟨((Parse.header m' buf msg.fcall).data m').fcall, (m' (buf + (getUint m' buf).toNat)).toNat⟩,
      ((Parse.header m' buf msg.fcall).data m').reads ++ [buf + (getUint m' buf).toNat]⟩ := by
    rw [vfsMsgParse]
    simp only [parsed, accepted, if_false]
  rw [result]
  exact ⟨Nat.succ_ne_zero _, typeIs, countIs⟩

-- A Tread of a fid, that is sent to a queue.
def IsTread (mqId : Int) (fid : BitVec 32) (request : Int × Fcall) : Prop :=
  request.1 = mqId ∧ request.2.type = FcallType.tread.code ∧ request.2.fid = fid

section Rounds

variable (t : VnodeTree) (v channel : Vnode) (vfsIn : Int) (rwBuf : Nat)

theorem wrapRound_null (unset : v.mountNode = none) (answer : Option (List Byte)) (s : Wrapping) :
    wrapRound t v channel vfsIn rwBuf answer s = (some .null, s) := by
  rw [wrapRound, unset]

/-- A round whose answer is an Rread appends what is in it. -/
theorem wrapRound_rread {mount : VnodeId} (set : v.mountNode = some mount) (r : Rread)
    (short : r.data.length ≤ vfsMaxIounit) (s : Wrapping) :
    let round := wrapRound t v channel vfsIn rwBuf (some r.wire) s
    round.1 = (if r.data.length = 0 then some (.returns .ok) else none) ∧ round.2.pos = s.pos + r.data.length ∧
      round.2.trace.writes = s.trace.writes ++ List.range' s.pos r.data.length ∧
      ∃ request, round.2.sent = s.sent ++ [request] ∧ IsTread channel.mqId ((t.node mount).qid.id.setWidth 32) request := by
  have limit : vfsMaxIounit = 100 := rfl
  have sends : (vfsMsgPut s.trace.mem
      ⟨{ s.tread (t.node mount) with tag := s.tagCount.setWidth 16 }, vfsIn⟩ rwBuf).1 ≠ 0 := by
    refine (vfsMsgPut_sends _ _ rwBuf [.fid, .offset, .count] rfl ?_ ?_).not.mpr ?_
    · simp [Fcall.strings, Fcall.extent]
    · exact (by decide : 23 < 2 ^ 32)
    · exact (by decide : ¬ 124 < 23)
  obtain ⟨result, type, count⟩ := r.received (vfsMsgPut s.trace.mem
    ⟨{ s.tread (t.node mount) with tag := s.tagCount.setWidth 16 }, vfsIn⟩ rwBuf).2
    ⟨{ s.tread (t.node mount) with tag := s.tagCount.setWidth 16 }, vfsIn⟩ rwBuf short
  have length : (BitVec.ofNat 32 r.data.length).toNat = r.data.length := by
    rw [BitVec.toNat_ofNat]
    omega
  have zero : BitVec.ofNat 32 r.data.length = 0 ↔ r.data.length = 0 := by
    rw [← BitVec.toNat_inj, length]
    rfl
  rw [wrapRound, set]
  simp only [Wrapping.send, vfsMsgSend, sends, result, type, if_false, ne_eq, not_true_eq_false, Wrapping.append, count,
    length, zero, Accessed.move]
  exact ⟨trivial, trivial, trivial, _, rfl, rfl, rfl, rfl⟩

/-- Every round sends a Tread to the mount node, and the loop ends with a count of zero. -/
theorem wrapLoop_rreads {mount : VnodeId} (set : v.mountNode = some mount) (reads : List Rread)
    (short : ∀ r, r ∈ reads → r.data.length ≤ vfsMaxIounit) (ends : ∃ r, r ∈ reads ∧ r.data.length = 0) (s : Wrapping) :
    let done := wrapLoop t v channel vfsIn rwBuf (reads.map Rread.wire) s
    done.1 = .returns .ok ∧ done.2.trace.writes = s.trace.writes ++ List.range' s.pos (appended reads) ∧
      ∃ treads, done.2.sent = s.sent ++ treads ∧ treads ≠ [] ∧
        ∀ request, request ∈ treads → IsTread channel.mqId ((t.node mount).qid.id.setWidth 32) request := by
  induction reads generalizing s with
  | nil =>
    obtain ⟨r, member, -⟩ := ends
    exact absurd member List.not_mem_nil
  | cons r rs ih =>
    obtain ⟨result, pos, writes, tread, sent, is⟩ :=
      wrapRound_rread t v channel vfsIn rwBuf set r (short r List.mem_cons_self) s
    rw [List.map_cons, wrapLoop]
    by_cases zero : r.data.length = 0
    · rw [if_pos zero] at result
      rw [appended, if_pos zero]
      simp only [result]
      refine ⟨trivial, by rw [writes, zero], [tread], sent, List.cons_ne_nil _ _, fun request member => ?_⟩
      obtain rfl := List.mem_singleton.mp member
      exact is
    · rw [if_neg zero] at result
      have later : ∃ r, r ∈ rs ∧ r.data.length = 0 := by
        obtain ⟨z, member, none_⟩ := ends
        rcases List.mem_cons.mp member with rfl | member
        · exact absurd none_ zero
        · exact ⟨z, member, none_⟩
      obtain ⟨ok, rest, treads, more, -, all⟩ := ih (fun r member => short r (List.mem_cons_of_mem _ member)) later
        (wrapRound t v channel vfsIn rwBuf (some r.wire) s).2
      rw [appended, if_neg zero]
      simp only [result]
      refine ⟨ok, ?_, tread :: treads, ?_, List.cons_ne_nil _ _, fun request member => ?_⟩
      · rw [rest, writes, pos, List.append_assoc, List.range'_append_1]
      · rw [more, sent, List.append_assoc, List.singleton_append]
      · rcases List.mem_cons.mp member with rfl | member
        · exact is
        · exact all request member

end Rounds

section Call

variable (t : VnodeTree) (v : Vnode) (vfsIn : Int) (tagCount : BitVec 32) (m : Store) (msg : VfsMsg) (buf n rwBuf : Nat)
  (first : Option (List Byte)) (answers : List (List Byte))

/-- What is known when the answer to the Twrite has come. -/
structure Begun (channel : Vnode) (s : Wrapping) : Prop where
  pos : s.pos = buf
  writes : s.trace.writes = [buf + fcallFidOff]
  sent : ∃ fcall, s.sent = [(channel.mqId, fcall)] ∧ fcall.type = FcallType.twrite.code

theorem opening_sends (channel : Vnode) (s : Wrapping) (fits : n ≤ vfsMaxMsgLen) :
    (vfsMsgPut s.trace.mem (s.opening channel vfsIn buf n) rwBuf).1 ≠ 0 ↔ wrapSize n ≤ vfsMaxMsgLen - mqIdSize := by
  have limit : vfsMaxMsgLen = 128 := rfl
  have small : wrapSize n = 23 + n := rfl
  have count : (BitVec.ofNat 32 n).toNat = n := by
    rw [BitVec.toNat_ofNat]
    omega
  have size : fcallSize s.trace.mem (s.opening channel vfsIn buf n).fcall = wrapSize n :=
    congrArg (23 + ·) count
  rw [ne_eq, vfsMsgPut_sends _ _ rwBuf [.fid, .offset, .data] rfl ?_ ?_, size, Nat.not_lt]
  · simp [Fcall.strings, Fcall.extent]
  · rw [size]
    omega

/-- The Twrite is refused, or the loop begins. -/
theorem vnodeWrap_cases (channel : VnodeId) (set : v.channelNode = some channel) (fits : n ≤ vfsMaxMsgLen) :
    let taken := WriteTaken (t.node channel) vfsIn buf n rwBuf first (Wrapping.start v m msg tagCount buf)
    let done := vnodeWrap t v vfsIn tagCount m msg buf n rwBuf first answers
    ∃ s, Begun buf (t.node channel) s ∧
      (taken → done = wrapLoop t v (t.node channel) vfsIn rwBuf answers s) ∧ (¬taken → done = (.returns .mqerr, s)) := by
  intro taken done
  let start := Wrapping.start v m msg tagCount buf
  let sending := start.send (t.node channel).mqId vfsIn (start.twrite (t.node channel) buf n) rwBuf first
  have sends := opening_sends vfsIn buf n rwBuf (t.node channel) start fits
  have is : done = if sending.1 = 0 then (.returns .mqerr, sending.2)
      else if sending.2.msg.fcall.type ≠ FcallType.rwrite.code then (.returns .mqerr, sending.2)
      else wrapLoop t v (t.node channel) vfsIn rwBuf answers sending.2 := by
    simp only [done, vnodeWrap, set]
    rfl
  have answered : taken ↔ sending.1 ≠ 0 ∧ sending.2.msg.fcall.type = FcallType.rwrite.code := by
    let opening := start.opening (t.node channel) vfsIn buf n
    have result : sending.1 = (vfsMsgSend start.trace.mem opening rwBuf first).result := rfl
    have answer : sending.2.msg = (vfsMsgSend start.trace.mem opening rwBuf first).msg := rfl
    rw [result, answer, vfsMsgSend_answered, sends]
    rfl
  refine ⟨sending.2, ⟨rfl, rfl, _, rfl, rfl⟩, fun accepted => ?_, fun refused => ?_⟩
  · obtain ⟨result, type⟩ := answered.mp accepted
    rw [is, if_neg result, if_neg (not_not.mpr type)]
  · rw [is]
    split
    · rfl
    · next result =>
      exact if_pos fun type => refused (answered.mpr ⟨result, type⟩)

theorem Begun.staysIn {channel : Vnode} {s : Wrapping} (begun : Begun buf channel s) :
    StaysIn channel buf (.returns .mqerr, s) where
  null := nofun
  fids request member type := by
    obtain ⟨fcall, sent, write⟩ := begun.sent
    rw [sent] at member
    obtain rfl := List.mem_singleton.mp member
    exact absurd (write.symm.trans type) (by decide)
  inside a member := by
    rw [begun.writes] at member
    obtain rfl := List.mem_singleton.mp member
    exact ⟨Nat.le_add_right .., Nat.add_lt_add_left (by decide) buf⟩

/-- The loop that is begun stays in the buffer if the Treads are for the fid of the channel and the answers fit. -/
theorem Begun.loop_iff {channel : Vnode} {s : Wrapping} (begun : Begun buf channel s) (reads : List Rread)
    (short : ∀ r, r ∈ reads → r.data.length ≤ vfsMaxIounit) (ends : ∃ r, r ∈ reads ∧ r.data.length = 0) :
    StaysIn channel buf (wrapLoop t v channel vfsIn rwBuf (reads.map Rread.wire) s) ↔
      (∃ mount, v.mountNode = some mount ∧ (t.node mount).qid.id.setWidth 32 = channel.qid.id.setWidth 32) ∧
        appended reads ≤ vfsMaxMsgLen := by
  rcases set : v.mountNode with _ | mount
  · have stuck : (wrapLoop t v channel vfsIn rwBuf (reads.map Rread.wire) s).1 = .null := by
      cases reads <;> simp only [List.map_nil, List.map_cons, wrapLoop, wrapRound_null t v channel vfsIn rwBuf set,
        Option.getD_some]
    constructor
    · exact fun stays => absurd stuck stays.null
    · rintro ⟨⟨mount, none_, -⟩, -⟩
      cases none_
  · obtain ⟨result, writes, treads, sent, some_, all⟩ := wrapLoop_rreads t v channel vfsIn rwBuf set reads short ends s
    rw [begun.writes, begun.pos] at writes
    obtain ⟨fcall, first, write⟩ := begun.sent
    constructor
    · intro stays
      obtain ⟨request, member⟩ := List.exists_mem_of_ne_nil treads some_
      obtain ⟨-, type, fid⟩ := all request member
      obtain ⟨-, right⟩ := stays.fids request (sent ▸ List.mem_append_right _ member) type
      refine ⟨⟨mount, rfl, fid.symm.trans right⟩, ?_⟩
      by_contra beyond
      have written := List.mem_range'_1.mpr (show buf ≤ buf + vfsMaxMsgLen ∧ _ < buf + appended reads by omega)
      have last := stays.inside (buf + vfsMaxMsgLen) (writes ▸ List.mem_append_right _ written)
      exact absurd last.2 (Nat.lt_irrefl _)
    · rintro ⟨⟨mount', is, same⟩, room⟩
      obtain rfl := Option.some.inj is
      refine ⟨by rw [result]; nofun, fun request member type => ?_, fun a member => ?_⟩
      · rw [sent, first, List.singleton_append] at member
        rcases List.mem_cons.mp member with rfl | member
        · exact absurd (write.symm.trans type) (by decide)
        · obtain ⟨queue, -, fid⟩ := all request member
          exact ⟨queue, fid.trans same⟩
      · rw [writes, List.singleton_append] at member
        have limit : vfsMaxMsgLen = 128 := rfl
        have off : fcallFidOff = 7 := rfl
        rcases List.mem_cons.mp member with rfl | member
        · omega
        · have within := List.mem_range'_1.mp member
          omega

end Call

theorem vnodeWrap_staysIn_iff (t : VnodeTree) (v : Vnode) (vfsIn : Int) (tagCount : BitVec 32) (m : Store) (msg : VfsMsg)
    (buf n rwBuf : Nat) (first : Option (List Byte)) (channel : VnodeId) (set : v.channelNode = some channel)
    (fits : n ≤ vfsMaxMsgLen) (reads : List Rread) (short : ∀ r, r ∈ reads → r.data.length ≤ vfsMaxIounit)
    (ends : ∃ r, r ∈ reads ∧ r.data.length = 0) :
    StaysIn (t.node channel) buf (vnodeWrap t v vfsIn tagCount m msg buf n rwBuf first (reads.map Rread.wire)) ↔
      (WriteTaken (t.node channel) vfsIn buf n rwBuf first (Wrapping.start v m msg tagCount buf) →
        (∃ mount, v.mountNode = some mount ∧
          (t.node mount).qid.id.setWidth 32 = (t.node channel).qid.id.setWidth 32) ∧ appended reads ≤ vfsMaxMsgLen) := by
  obtain ⟨s, begun, goes, refused⟩ := vnodeWrap_cases t v vfsIn tagCount m msg buf n rwBuf first
    (reads.map Rread.wire) channel set fits
  by_cases taken : WriteTaken (t.node channel) vfsIn buf n rwBuf first (Wrapping.start v m msg tagCount buf)
  · rw [goes taken, begun.loop_iff t v vfsIn buf rwBuf reads short ends]
    exact ⟨fun holds _ => holds, fun holds => holds taken⟩
  · rw [refused taken]
    exact ⟨fun _ accepted => absurd accepted taken, fun _ => begun.staysIn buf⟩

-- Every vnode has its place among its siblings as its id.
def fileTree : VnodeTree := ⟨fun v => ⟨none, ⟨0, 0, BitVec.ofNat 64 (v.headD 0)⟩, none, none, 0, 4⟩, 9⟩

-- A vnode of an export, and the answers to what is read for it.
def exported (mountNode : Option VnodeId) : Vnode := ⟨none, ⟨0, 0, 7⟩, mountNode, some [3], 0, 4⟩

def clunkRead : List Rread := [⟨9, List.replicate 7 0, 0⟩, ⟨10, [], 0⟩]

theorem vnodeWrap_staysIn_clunk : StaysIn (fileTree.node [3]) 64
    (vnodeWrap fileTree (exported (some [3, 0])) 2 8 (fun _ => 0) ⟨default, 0⟩ 64 11 512 (some (emptyRwrite []))
      (clunkRead.map Rread.wire)) :=
  (vnodeWrap_staysIn_iff fileTree (exported (some [3, 0])) 2 8 (fun _ => 0) ⟨default, 0⟩ 64 11 512 (some (emptyRwrite []))
    [3] rfl (by decide) clunkRead (by decide) (by decide)).mpr fun _ => ⟨⟨[3, 0], rfl, rfl⟩, by decide⟩

/-- A mount point has no mount node to take the fid from. -/
theorem vnodeWrap_mount : ¬ ∀ (t : VnodeTree) (v : Vnode) (vfsIn : Int) (tagCount : BitVec 32) (m : Store) (msg : VfsMsg)
    (buf n rwBuf : Nat) (first : Option (List Byte)) (channel : VnodeId), v.channelNode = some channel →
    n ≤ vfsMaxMsgLen → ∀ reads : List Rread, (∀ r, r ∈ reads → r.data.length ≤ vfsMaxIounit) →
    (∃ r, r ∈ reads ∧ r.data.length = 0) → StaysIn (t.node channel) buf
      (vnodeWrap t v vfsIn tagCount m msg buf n rwBuf first (reads.map Rread.wire)) := by
  intro claim
  have stays := claim fileTree (exported none) 2 8 (fun _ => 0) ⟨default, 0⟩ 64 11 512 (some (emptyRwrite [])) [3] rfl
    (by decide) clunkRead (by decide) (by decide)
  obtain ⟨s, begun, goes, -⟩ := vnodeWrap_cases fileTree (exported none) 2 8 (fun _ => 0) ⟨default, 0⟩ 64 11 512
    (some (emptyRwrite [])) (clunkRead.map Rread.wire) [3] rfl (by decide)
  have taken : WriteTaken (fileTree.node [3]) 2 64 11 512 (some (emptyRwrite []))
      (Wrapping.start (exported none) (fun _ => 0) ⟨default, 0⟩ 8 64) :=
    ⟨by decide, _, rfl, by decide +kernel, by decide +kernel⟩
  rw [goes taken] at stays
  obtain ⟨⟨mount, is, -⟩, -⟩ :=
    (begun.loop_iff fileTree (exported none) 2 64 512 clunkRead (by decide) (by decide)).mp stays
  cases is

end Anthill
