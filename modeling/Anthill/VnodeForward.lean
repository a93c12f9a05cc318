import Anthill.Vnode

set_option autoImplicit false

namespace Anthill

open Bytes (Store split combine)

def fcallSizeOff : Nat := 0

def fcallTagOff : Nat := 5

def fcallFidOff : Nat := 7

structure Forwarded where
  sent : Option (List Byte)
  error : VfsError
  mem : Store

/-- The buffer is one of characters: one of them is read for the size, and one is written for the tag, the fid and the
queue. `exchange` has what a queue's driver answers, if the message can be sent and the answer received, and
`wrap` is vnode_wrap. -/
def vnodeForward (exchange : Int → List Byte → Option (List Byte)) (wrap : Store → Nat → Nat → VfsError × Store)
    (vfsIn tagCount : BitVec 32) (v : Vnode) (m : Store) (buf : Nat) : Forwarded :=
  let oldTag := getUshort m (buf + fcallTagOff)
  let msgSize := (m (buf + fcallSizeOff)).toNat
  let oldMq := getUint m (buf + msgSize)
  let m := (m.set (buf + fcallTagOff) (tagCount.setWidth 8)).set (buf + fcallFidOff) (v.qid.id.setWidth 8)
  let restore (m : Store) : Store :=
    let m := m.set (buf + fcallTagOff) (oldTag.setWidth 8)
    m.set (buf + (m (buf + fcallSizeOff)).toNat) (oldMq.setWidth 8)
  match v.channelNode with
  | some _ =>
    match wrap m buf msgSize with
    | (.ok, m) => ⟨none, .ok, restore m⟩
    | (_, m) => ⟨none, .mqerr, m⟩
  | none =>
    let m := m.set (buf + msgSize) (vfsIn.setWidth 8)
    let sent := m.bytes buf (msgSize + mqIdSize)
    match exchange v.mqId sent with
    | none => ⟨some sent, .mqerr, m⟩
    | some reply => ⟨some sent, .ok, restore (m.write buf reply)⟩

/-- A message with a fid, and the queue for the answer behind it. -/
structure ClientMsg (m : Store) (buf size : Nat) : Prop where
  sized : getUint m buf = BitVec.ofNat 32 size
  low : fcallFidOff + intSize ≤ size
  high : size ≤ vfsMaxMsgLen - mqIdSize

/-- A driver that answers with messages that have the tag of what was sent. -/
structure EchoDriver where
  reply : List Byte → List Byte
  size : List Byte → Nat
  length : ∀ sent, (reply sent).length = size sent + mqIdSize
  sized : ∀ sent, (reply sent).take intSize = split (BitVec.ofNat 32 (size sent)) intSize
  low : ∀ sent, fcallFidOff ≤ size sent
  high : ∀ sent, size sent ≤ vfsMaxMsgLen - mqIdSize
  echoes : ∀ sent, fcallFidOff ≤ sent.length →
    ((reply sent).drop fcallTagOff).take shrtSize = (sent.drop fcallTagOff).take shrtSize

-- The message with another tag, fid and queue.
def readdressed (m : Store) (buf size : Nat) (tag : BitVec 16) (fid mq : BitVec 32) : Store :=
  ((m.write (buf + fcallTagOff) (split tag shrtSize)).write (buf + fcallFidOff) (split fid intSize)).write
    (buf + size) (split mq mqIdSize)

/-- What is sent is the message under a tag of the server's, with the fid of the vnode and the queue of the server, and what
comes back is the answer with the tag and the queue of the client. -/
def Forwards (driver : EchoDriver) (wrap : Store → Nat → Nat → VfsError × Store) (vfsIn tagCount : BitVec 32)
    (v : Vnode) (m : Store) (buf size : Nat) : Prop :=
  let out := vnodeForward (fun _ sent => some (driver.reply sent)) wrap vfsIn tagCount v m buf
  out.error = .ok ∧ ∃ tag fid, fid.setWidth 64 = v.qid.id ∧
    let sent := (readdressed m buf size tag fid vfsIn).bytes buf (size + mqIdSize)
    out.sent = some sent ∧
      out.mem.bytes buf (driver.size sent + mqIdSize) =
        (((m.write buf (driver.reply sent)).write (buf + fcallTagOff) (split (getUshort m (buf + fcallTagOff)) shrtSize)).write
          (buf + driver.size sent) (split (getUint m (buf + size)) mqIdSize)).bytes buf (driver.size sent + mqIdSize)

/-- The fid of the vnode and the queue of the server differ from those in the message in their low bytes only, and so does
the queue in the answer from that of the client. -/
structure ForwardFits (driver : EchoDriver) (vfsIn tagCount : BitVec 32) (v : Vnode) (m : Store) (buf size : Nat) :
    Prop where
  fid : getUint m (buf + fcallFidOff) >>> 8 = (v.qid.id.setWidth 32) >>> 8
  queue : getUint m (buf + size) >>> 8 = vfsIn >>> 8
  reply :
    let tag := getUshort (m.set (buf + fcallTagOff) (tagCount.setWidth 8)) (buf + fcallTagOff)
    let sent := (readdressed m buf size tag (v.qid.id.setWidth 32) vfsIn).bytes buf (size + mqIdSize)
    getUint (m.write buf (driver.reply sent)) (buf + driver.size sent) >>> 8 = getUint m (buf + size) >>> 8

theorem write_eq_self_iff (m : Store) (a : Nat) (bs : List Byte) : m.write a bs = m ↔ m.bytes a bs.length = bs := by
  constructor
  · intro same
    have written := m.bytes_write a bs
    rwa [same] at written
  · intro is
    have kept := m.write_bytes a bs.length
    rwa [is] at kept

theorem shift_small (v : BitVec 32) : (v >>> 8).toNat < 2 ^ (8 * 3) := by
  have := v.isLt
  rw [BitVec.toNat_ushiftRight, Nat.shiftRight_eq_div_pow]
  omega

theorem split_shift_inj (u v : BitVec 32) : split (u >>> 8) 3 = split (v >>> 8) 3 ↔ u >>> 8 = v >>> 8 := by
  refine ⟨fun same => ?_, fun same => by rw [same]⟩
  rw [← Bytes.combine_split (u >>> 8) 3 (shift_small u), same, Bytes.combine_split (v >>> 8) 3 (shift_small v)]

theorem split_getUint_shift (m : Store) (a : Nat) : split (getUint m a >>> 8) 3 = m.bytes (a + 1) 3 :=
  (List.cons.inj (split_getUint m a)).2

-- A field is written by its low byte if the others are the same.
theorem set_low_iff (m : Store) (a : Nat) (v : BitVec 32) :
    m.set a (v.setWidth 8) = m.write a (split v 4) ↔ getUint m a >>> 8 = v >>> 8 := by
  have rest : (m.set a (v.setWidth 8)).bytes (a + 1) 3 = m.bytes (a + 1) 3 :=
    Store.bytes_congr fun x low _ => if_neg (by omega)
  have write : m.write a (split v 4) = (m.set a (v.setWidth 8)).write (a + 1) (split (v >>> 8) 3) := rfl
  rw [write, eq_comm, write_eq_self_iff, Bytes.length_split, rest, ← split_getUint_shift, split_shift_inj]

theorem set_low_tag (m : Store) (a : Nat) (b : Byte) :
    m.set a b = m.write a (split (getUshort (m.set a b) a) 2) := by
  have high : (m.set a b) (a + 1) = m (a + 1) := if_neg (by omega)
  rw [split_getUshort]
  funext x
  simp only [Store.bytes, Store.write, Store.set]
  split
  · next is => simp [is]
  · split
    · next is => simp [is]
    · rfl

theorem getUint_congr {m m' : Store} {a : Nat} (same : ∀ x, a ≤ x → x < a + 4 → m x = m' x) : getUint m a = getUint m' a := by
  rw [getUint_eq, getUint_eq, Store.bytes_congr same]

theorem getUint_bytes {m : Store} {a : Nat} {v : BitVec 32} (is : m.bytes a 4 = split v 4) : getUint m a = v := by
  rw [getUint_eq, is, Bytes.combine_split v 4 v.isLt]

theorem getUint_write (m : Store) (a : Nat) (v : BitVec 32) : getUint (m.write a (split v 4)) a = v := by
  have written := m.bytes_write a (split v 4)
  rw [Bytes.length_split] at written
  exact getUint_bytes written

theorem getUint_set_shift (m : Store) (a : Nat) (b : Byte) : getUint (m.set a b) a >>> 8 = getUint m a >>> 8 := by
  rw [← split_shift_inj, split_getUint_shift, split_getUint_shift]
  exact Store.bytes_congr fun x low _ => if_neg (by omega)

theorem bytes_eq_iff (m m' : Store) (a n : Nat) : m.bytes a n = m'.bytes a n ↔ ∀ x, a ≤ x → x < a + n → m x = m' x := by
  refine ⟨fun same x low high => ?_, Store.bytes_congr⟩
  have here := m.bytes_get a n (x - a) (by omega)
  rw [same, m'.bytes_get a n (x - a) (by omega), Nat.add_sub_of_le low] at here
  exact (Option.some.inj here).symm

theorem write_congr {m m' : Store} (a : Nat) (bs : List Byte) {x : Nat} (same : m x = m' x) :
    m.write a bs x = m'.write a bs x := by
  induction bs generalizing m m' a with
  | nil => exact same
  | cons b bs ih =>
    refine ih (a + 1) ?_
    simp only [Store.set]
    split
    · rfl
    · exact same

section Sent

variable {m : Store} {buf size : Nat} (low : fcallFidOff + intSize ≤ size) (fid vfsIn tagCount : BitVec 32)

include low

theorem sent_bytes (tag : BitVec 16) (fl tl ql : Byte)
    (same : (((m.set (buf + fcallTagOff) tl).set (buf + fcallFidOff) fl).set (buf + size) ql).bytes buf (size + mqIdSize) =
      (readdressed m buf size tag fid vfsIn).bytes buf (size + mqIdSize)) :
    getUint m (buf + fcallFidOff) >>> 8 = fid >>> 8 ∧ getUint m (buf + size) >>> 8 = vfsIn >>> 8 := by
  have point := (bytes_eq_iff _ _ _ _).mp same
  simp only [fcallFidOff, fcallTagOff, intSize, mqIdSize] at low point ⊢
  have fids : getUint (((m.set (buf + 5) tl).set (buf + 7) fl).set (buf + size) ql) (buf + 7) = fid := by
    refine (getUint_congr fun x first last => point x (by omega) (by omega)).trans ?_
    refine (getUint_congr fun x first last => ?_).trans (getUint_write (m.write (buf + 5) (split tag 2)) (buf + 7) fid)
    exact Store.write_outside _ _ _ _ (.inl (by omega))
  have queues : getUint (((m.set (buf + 5) tl).set (buf + 7) fl).set (buf + size) ql) (buf + size) = vfsIn :=
    (getUint_congr fun x first last => point x (by omega) (by omega)).trans (getUint_write _ (buf + size) vfsIn)
  constructor
  · have tags : getUint (m.set (buf + 5) tl) (buf + 7) = getUint m (buf + 7) := getUint_congr fun x _ _ => if_neg (by omega)
    have tail : getUint (((m.set (buf + 5) tl).set (buf + 7) fl).set (buf + size) ql) (buf + 7) =
        getUint ((m.set (buf + 5) tl).set (buf + 7) fl) (buf + 7) := getUint_congr fun x _ _ => if_neg (by omega)
    rw [← fids, tail, getUint_set_shift, tags]
  · have head : getUint ((m.set (buf + 5) tl).set (buf + 7) fl) (buf + size) = getUint m (buf + size) :=
      getUint_congr fun x _ _ => (if_neg (by omega)).trans (if_neg (by omega))
    rw [← queues, getUint_set_shift, head]

theorem sent_right (fits : getUint m (buf + fcallFidOff) >>> 8 = fid >>> 8)
    (queue : getUint m (buf + size) >>> 8 = vfsIn >>> 8) :
    ((m.set (buf + fcallTagOff) (tagCount.setWidth 8)).set (buf + fcallFidOff) (fid.setWidth 8)).set (buf + size)
      (vfsIn.setWidth 8) =
    readdressed m buf size (getUshort (m.set (buf + fcallTagOff) (tagCount.setWidth 8)) (buf + fcallTagOff)) fid vfsIn := by
  simp only [fcallFidOff, fcallTagOff, intSize] at low fits queue ⊢
  have first : getUint (m.set (buf + 5) (tagCount.setWidth 8)) (buf + 7) = getUint m (buf + 7) :=
    getUint_congr fun x _ _ => if_neg (by omega)
  have second : getUint ((m.set (buf + 5) (tagCount.setWidth 8)).set (buf + 7) (fid.setWidth 8)) (buf + size) =
      getUint m (buf + size) :=
    getUint_congr fun x _ _ => (if_neg (by omega)).trans (if_neg (by omega))
  rw [readdressed, fcallTagOff, fcallFidOff, shrtSize, ← set_low_tag, intSize, ← (set_low_iff _ _ fid).mpr (by rw [first, fits]),
    mqIdSize, ← (set_low_iff _ _ vfsIn).mpr (by rw [second, queue])]

end Sent

section Back

variable (driver : EchoDriver) (m : Store) (buf : Nat) (oldMq : BitVec 32)

-- The size is read from the answer.
theorem EchoDriver.first (sent : List Byte) (base : Store) :
    ((base.write buf (driver.reply sent)) buf).toNat = driver.size sent := by
  have sized := driver.sized sent
  have high := driver.high sent
  have bytes := base.bytes_write buf (driver.reply sent)
  have here := (base.write buf (driver.reply sent)).bytes_get buf _ 0
    (show 0 < (driver.reply sent).length by rw [driver.length]; exact Nat.succ_pos _)
  rw [bytes, Nat.add_zero] at here
  have head := congrArg (·[0]?) sized
  simp only [intSize, List.getElem?_take_of_lt (Nat.succ_pos 3), here, split, List.getElem?_cons_zero, Option.some.injEq]
    at head
  rw [head, BitVec.toNat_setWidth, BitVec.toNat_ofNat]
  simp only [vfsMaxMsgLen, mqIdSize] at high
  omega

theorem restore_iff (base : Store) (n : Nat) (r : List Byte) (length : r.length = n + 4) (low : 7 ≤ n)
    (first : ((base.write buf r) buf).toNat = n) (echo : base.write buf r (buf + 5 + 1) = m (buf + 5 + 1)) :
    let tagged := (base.write buf r).set (buf + 5) ((getUshort m (buf + 5)).setWidth 8)
    (tagged.set (buf + (tagged buf).toNat) (oldMq.setWidth 8)).bytes buf (n + 4) =
      (((m.write buf r).write (buf + 5) (split (getUshort m (buf + 5)) 2)).write (buf + n) (split oldMq 4)).bytes buf (n + 4) ↔
    getUint (m.write buf r) (buf + n) >>> 8 = oldMq >>> 8 := by
  intro tagged
  have agree : ∀ x, buf ≤ x → x < buf + (n + 4) → m.write buf r x = base.write buf r x := by
    refine (bytes_eq_iff _ _ _ _).mp ?_
    rw [← length, m.bytes_write, base.bytes_write]
  have size : (tagged buf).toNat = n := by
    rw [← first]
    exact congrArg BitVec.toNat (if_neg (by omega))
  have tags : (base.write buf r).write (buf + 5) (split (getUshort m (buf + 5)) 2) = tagged := by
    have both : split (getUshort m (buf + 5)) 2 = [(getUshort m (buf + 5)).setWidth 8, m (buf + 5 + 1)] := by
      have bytes := split_getUshort m (buf + 5)
      exact bytes.trans (congrArg (· :: [m (buf + 5 + 1)]) (List.cons.inj bytes).1.symm)
    rw [both, ← echo]
    funext x
    by_cases second : x = buf + 5 + 1
    · simp [tagged, Store.write, Store.set, second]
    · simp [tagged, Store.write, Store.set, second]
  have expected : (((m.write buf r).write (buf + 5) (split (getUshort m (buf + 5)) 2)).write (buf + n)
      (split oldMq 4)).bytes buf (n + 4) = (tagged.write (buf + n) (split oldMq 4)).bytes buf (n + 4) := by
    rw [← tags]
    exact Store.bytes_congr fun x first last => write_congr _ _ (write_congr _ _ (agree x first last))
  have queue : getUint tagged (buf + n) = getUint (m.write buf r) (buf + n) :=
    getUint_congr fun x first last => (if_neg (by omega)).trans (agree x (by omega) (by omega)).symm
  rw [expected, size, ← queue, ← set_low_iff, bytes_eq_iff]
  constructor
  · intro inside
    funext x
    by_cases within : buf + n ≤ x ∧ x < buf + n + 4
    · exact inside x (by omega) (by omega)
    · rw [Store.write_outside _ _ _ _ (by rw [Bytes.length_split]; omega)]
      exact if_neg (by omega)
  · exact fun same x _ _ => by rw [same]

theorem back_iff (base : Store) {size : Nat} (long : fcallFidOff ≤ size)
    (tag : base (buf + fcallTagOff + 1) = m (buf + fcallTagOff + 1)) :
    let sent := base.bytes buf (size + mqIdSize)
    let tagged := (base.write buf (driver.reply sent)).set (buf + fcallTagOff)
      ((getUshort m (buf + fcallTagOff)).setWidth 8)
    (tagged.set (buf + (tagged (buf + fcallSizeOff)).toNat) (oldMq.setWidth 8)).bytes buf
        (driver.size sent + mqIdSize) =
      (((m.write buf (driver.reply sent)).write (buf + fcallTagOff) (split (getUshort m (buf + fcallTagOff)) shrtSize)).write
        (buf + driver.size sent) (split oldMq mqIdSize)).bytes buf (driver.size sent + mqIdSize) ↔
    getUint (m.write buf (driver.reply sent)) (buf + driver.size sent) >>> 8 = oldMq >>> 8 := by
  intro sent tagged
  have length := driver.length sent
  have low := driver.low sent
  have echo : (base.write buf (driver.reply sent)) (buf + fcallTagOff + 1) = m (buf + fcallTagOff + 1) := by
    have same := congrArg (·[1]?) (driver.echoes sent (by rw [Store.length_bytes]; exact Nat.le_add_right_of_le long))
    have there := (base.write buf (driver.reply sent)).bytes_get buf (driver.reply sent).length 6
      (by simp only [length, mqIdSize, fcallFidOff] at low ⊢; omega)
    have here := base.bytes_get buf (size + mqIdSize) 6 (by simp only [mqIdSize, fcallFidOff] at long ⊢; omega)
    rw [base.bytes_write] at there
    simp only [fcallTagOff, shrtSize, List.getElem?_take_of_lt (Nat.lt_succ_self 1), List.getElem?_drop, Nat.reduceAdd] at same
    rw [there] at same
    exact (Option.some.inj (same.trans here)).trans tag
  exact restore_iff m buf oldMq base (driver.size sent) (driver.reply sent) length low (driver.first buf sent base) echo

end Back

theorem ClientMsg.first {m : Store} {buf size : Nat} (msg : ClientMsg m buf size) :
    (m (buf + fcallSizeOff)).toNat = size := by
  have high := msg.high
  have bytes := split_getUint m buf
  rw [msg.sized] at bytes
  have head : m buf = (BitVec.ofNat 32 size).setWidth 8 := (List.cons.inj bytes).1.symm
  rw [fcallSizeOff, Nat.add_zero, head, BitVec.toNat_setWidth, BitVec.toNat_ofNat]
  simp only [vfsMaxMsgLen, mqIdSize] at high
  omega

theorem vnodeForward_direct (exchange : Int → List Byte → Option (List Byte))
    (wrap : Store → Nat → Nat → VfsError × Store) (vfsIn tagCount : BitVec 32) (v : Vnode) (m : Store) (buf size : Nat)
    (direct : v.channelNode = none) (msg : ClientMsg m buf size) :
    let base := ((m.set (buf + fcallTagOff) (tagCount.setWidth 8)).set (buf + fcallFidOff) (v.qid.id.setWidth 8)).set
      (buf + size) (vfsIn.setWidth 8)
    let sent := base.bytes buf (size + mqIdSize)
    vnodeForward exchange wrap vfsIn tagCount v m buf =
      match exchange v.mqId sent with
      | none => ⟨some sent, .mqerr, base⟩
      | some reply =>
        let tagged := (base.write buf reply).set (buf + fcallTagOff) ((getUshort m (buf + fcallTagOff)).setWidth 8)
        ⟨some sent, .ok, tagged.set (buf + (tagged (buf + fcallSizeOff)).toNat) ((getUint m (buf + size)).setWidth 8)⟩ := by
  simp only [vnodeForward, direct, msg.first]

section Forward

variable {driver : EchoDriver} {wrap : Store → Nat → Nat → VfsError × Store} {vfsIn tagCount : BitVec 32} {v : Vnode}
  {m : Store} {buf size : Nat}

theorem fid_char (v : Vnode) : (v.qid.id.setWidth 32).setWidth 8 = v.qid.id.setWidth 8 :=
  BitVec.setWidth_setWidth_of_le _ (by decide)

theorem Forwards.fields (forwards : Forwards driver wrap vfsIn tagCount v m buf size) (direct : v.channelNode = none)
    (msg : ClientMsg m buf size) :
    getUint m (buf + fcallFidOff) >>> 8 = (v.qid.id.setWidth 32) >>> 8 ∧ getUint m (buf + size) >>> 8 = vfsIn >>> 8 := by
  rw [Forwards, vnodeForward_direct _ wrap vfsIn tagCount v m buf size direct msg] at forwards
  obtain ⟨-, tag, fid, is, sent, -⟩ := forwards
  rw [← is, BitVec.setWidth_setWidth_of_le fid (by decide), BitVec.setWidth_eq]
  exact sent_bytes msg.low fid vfsIn tag _ _ _ (Option.some.inj sent)

end Forward

theorem vnodeForward_iff (driver : EchoDriver) (wrap : Store → Nat → Nat → VfsError × Store)
    (vfsIn tagCount : BitVec 32) (v : Vnode) (m : Store) (buf size : Nat) (direct : v.channelNode = none)
    (small : v.qid.id.toNat < 2 ^ 32) (msg : ClientMsg m buf size) :
    Forwards driver wrap vfsIn tagCount v m buf size ↔ ForwardFits driver vfsIn tagCount v m buf size := by
  have low := msg.low
  have wide : (v.qid.id.setWidth 32).setWidth 64 = v.qid.id := by
    apply BitVec.eq_of_toNat_eq
    rw [BitVec.toNat_setWidth, BitVec.toNat_setWidth]
    omega
  have tag : (((m.set (buf + fcallTagOff) (tagCount.setWidth 8)).set (buf + fcallFidOff) (v.qid.id.setWidth 8)).set
      (buf + size) (vfsIn.setWidth 8)) (buf + fcallTagOff + 1) = m (buf + fcallTagOff + 1) := by
    simp only [fcallTagOff, fcallFidOff, intSize] at low ⊢
    exact (if_neg (by omega)).trans ((if_neg (by omega)).trans (if_neg (by omega)))
  have back := back_iff driver m buf (getUint m (buf + size)) _ (Nat.le_of_add_right_le low) tag
  rw [← fid_char] at back
  constructor
  · intro forwards
    obtain ⟨fids, queue⟩ := forwards.fields direct msg
    have right := sent_right low (v.qid.id.setWidth 32) vfsIn tagCount fids queue
    rw [Forwards, vnodeForward_direct _ wrap vfsIn tagCount v m buf size direct msg, ← fid_char] at forwards
    obtain ⟨-, tag, fid, is, sent, restored⟩ := forwards
    rw [← Option.some.inj sent] at restored
    have reply := back.mp restored
    rw [right] at reply
    exact ⟨fids, queue, reply⟩
  · rintro ⟨fids, queue, reply⟩
    have right := sent_right low (v.qid.id.setWidth 32) vfsIn tagCount fids queue
    rw [Forwards, vnodeForward_direct _ wrap vfsIn tagCount v m buf size direct msg, ← fid_char]
    refine ⟨rfl, _, v.qid.id.setWidth 32, wide, congrArg (fun m => some (m.bytes buf (size + mqIdSize))) right, ?_⟩
    rw [right] at back ⊢
    exact back.mpr reply

/-- An Rwrite of no bytes, and an id of zero for the queue. -/
def emptyRwrite (sent : List Byte) : List Byte :=
  split (11#32) 4 ++ [115] ++ ((sent ++ List.replicate 7 0).drop fcallTagOff).take shrtSize ++ split (0#32) 4 ++ split (0#32) 4

theorem length_emptyRwrite (sent : List Byte) : (emptyRwrite sent).length = 11 + mqIdSize := by
  simp [emptyRwrite, mqIdSize, fcallTagOff, shrtSize]

theorem emptyRwrite_echoes (sent : List Byte) (long : fcallFidOff ≤ sent.length) :
    ((emptyRwrite sent).drop fcallTagOff).take shrtSize = (sent.drop fcallTagOff).take shrtSize := by
  simp only [emptyRwrite, fcallTagOff, fcallFidOff, shrtSize] at long ⊢
  have tag : ((sent ++ List.replicate 7 0).drop 5).take 2 = (sent.drop 5).take 2 := by
    rw [List.drop_append_of_le_length (by omega), List.take_append_of_le_length (by rw [List.length_drop]; omega)]
  have two : ((sent.drop 5).take 2).length = 2 := by
    rw [List.length_take, List.length_drop]
    omega
  rw [tag, List.append_assoc, List.append_assoc, List.drop_left' (by rfl), List.take_left' two]

def nothingWritten : EchoDriver :=
  ⟨emptyRwrite, fun _ => 11, length_emptyRwrite, fun _ => rfl, fun _ => by decide, fun _ => by decide, emptyRwrite_echoes⟩

-- A Tstat under the tag 1, of the fid 1, whose answer is to go to the queue 3.
def statMsg : Store := fun a => [11, 0, 0, 0, 118, 1, 0, 1, 0, 0, 0, 3, 0, 0, 0].getD a 0

theorem statMsg_client : ClientMsg statMsg 0 11 := ⟨by decide, by decide, by decide⟩

def noWrap : Store → Nat → Nat → VfsError × Store := fun m _ _ => (.mqerr, m)

def forwardVnode (id : BitVec 64) : Vnode := ⟨none, ⟨0, 0, id⟩, none, none, 0, 4⟩

theorem vnodeForward_stat : Forwards nothingWritten noWrap 2 9 (forwardVnode 5) statMsg 0 11 := by
  refine (vnodeForward_iff nothingWritten _ 2 9 (forwardVnode 5) statMsg 0 11 rfl (by decide) statMsg_client).mpr ?_
  exact ⟨by decide, by decide, by decide +kernel⟩

/-- A vnode whose fid is 256 is asked for under the fid 0. -/
theorem vnodeForward_truncates :
    ¬ Forwards nothingWritten noWrap 2 9 (forwardVnode 256) statMsg 0 11 := fun forwards =>
  absurd (forwards.fields rfl statMsg_client).1 (by decide)

end Anthill
