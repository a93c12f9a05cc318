import Anthill.Dirent
import Anthill.VfsRuns

set_option autoImplicit false

namespace Anthill

/-- The entries of a vnode's children, all of which have names. -/
def VnodeTree.Children (t : VnodeTree) (v : VnodeId) (rs : List StatRecord) : Prop :=
  (List.range (t.node v).childrenNo).map (fun i => (t.node (i :: v)).record) = rs.map some

instance (t : VnodeTree) (v : VnodeId) (rs : List StatRecord) : Decidable (t.Children v rs) :=
  inferInstanceAs (Decidable (_ = _))

theorem VnodeTree.Children.length {t : VnodeTree} {v : VnodeId} {rs : List StatRecord} (children : t.Children v rs) :
    rs.length = (t.node v).childrenNo := by
  have size := congrArg List.length children
  rw [List.length_map, List.length_map, List.length_range] at size
  exact size.symm

theorem VnodeTree.Children.record {t : VnodeTree} {v : VnodeId} {rs : List StatRecord} (children : t.Children v rs) {i : Nat}
    (inside : i < (t.node v).childrenNo) : (t.node (i :: v)).record = rs[i]? := by
  have at_ := congrArg (fun l : List (Option StatRecord) => l[i]?) children
  simp only [List.getElem?_map, List.getElem?_range inside, Option.map_some] at at_
  cases is : rs[i]? with
  | none => rw [is] at at_; cases at_
  | some r => rw [is] at at_; exact Option.some.inj at_

theorem readDirLoop_batch {t : VnodeTree} {v : VnodeId} {rs : List StatRecord} (children : t.Children v rs) {count : Nat}
    (more : Nat) {i : Nat} (all : i + more = (t.node v).childrenNo) {buf : List Byte} (fits : buf.length ≤ count) :
    readDirLoop t v count more i buf = some (buf ++ wires (batch (count - buf.length) (rs.drop i))) := by
  have length := children.length
  induction more generalizing i buf with
  | zero =>
    rw [List.drop_eq_nil_of_le (by omega), readDirLoop, batch]
    simp [wires]
  | succ more ih =>
    have inside : i < rs.length := by omega
    rw [readDirLoop, children.record (by omega), List.drop_eq_getElem_cons inside, List.getElem?_eq_getElem inside, batch,
      Option.bind_some]
    by_cases large : count < buf.length + rs[i].wire.length
    · rw [if_pos large, if_pos (by omega)]
      simp [wires]
    · have left : count - (buf ++ rs[i].wire).length = count - buf.length - rs[i].wire.length := by
        rw [List.length_append]
        omega
      rw [if_neg large, if_neg (by omega), ih (by omega) (by rw [List.length_append]; omega), left]
      simp [wires]

/-- vnode_read_dir puts as many entries as there is room for, from the offset on. -/
theorem vnodeReadDir_batch {t : VnodeTree} {v : VnodeId} {rs : List StatRecord} (children : t.Children v rs)
    (offset : BitVec 64) (small : offset.toNat < 2 ^ 32) (count : BitVec 32) :
    vnodeReadDir t v offset count = some (wires (batch count.toNat (rs.drop offset.toNat))) := by
  have length := children.length
  have same : (offset.setWidth 32).toNat = offset.toNat := by
    rw [BitVec.toNat_setWidth, Nat.mod_eq_of_lt small]
  rw [vnodeReadDir, same]
  by_cases inside : offset.toNat ≤ (t.node v).childrenNo
  · exact readDirLoop_batch children _ (by omega) (Nat.zero_le _)
  · rw [Nat.sub_eq_zero_of_le (by omega), List.drop_eq_nil_of_le (by omega), readDirLoop, batch]
    rfl

-- The message that file_read sends.
def Tread.message (t : Tread) : Message :=
  (((⟨.tread, t.tag, Field.blank⟩ : Message).set .fid t.fid).set .offset t.offset).set .count (BitVec.ofNat 32 t.count)

namespace VfsServer

/-- What the server answers a process in a state that the messages of others do not change. -/
def serves (p : Placement) (s : VfsServer Vfs) (r : Request) (host : Host) : Host :=
  { host with read := fun t => (handleMessage libvfs p { r with msg := t.message } s).bind fun (answer, _) =>
      answer.bind fun (reply, _) => if reply.type = .rread then some (reply.value .data).1 else none }

section Listing

variable {p : Placement} {s : VfsServer Vfs} {r : Request} {v : VnodeId}
  {rs : List StatRecord}

theorem readDir_eq {t : VnodeTree} {data : List Byte}
    (is : vnodeReadDir t v (r.msg.value .offset) (r.msg.value .count) = some data) (short : data.length < 2 ^ 32) :
    readDir r t v = some (if data.length = 0 then r.error eserver
      else r.answer ((r.msg.to .rread).set .data ⟨data, short⟩)) := by
  rw [readDir]
  split
  · next none_ => rw [is] at none_; cases none_
  · next data' is' =>
    obtain rfl : data' = data := Option.some.inj (is'.symm.trans is)
    rfl

theorem serves_lists (host : Host) {c : Nat} {fid : BitVec 32} (found : vfsClientGet r.mqId s.clients = some c)
    (some_ : c ≠ 0) (at_ : vfsClientFidGet c fid s.clients = some (p.addr v)) (plain : (s.tree.node v).mqId = -1)
    (own : (s.tree.node v).channelNode = none) (children : s.tree.Children v rs) :
    (serves p s r host).Lists fid rs := by
  rintro t is small few
  have count : (BitVec.ofNat 32 t.count).toNat = t.count := by
    rw [BitVec.toNat_ofNat, Nat.mod_eq_of_lt (Nat.lt_of_le_of_lt few (by decide))]
  have fidOf : t.message.value .fid = fid := by rw [← is]; rfl
  have offsetOf : t.message.value .offset = t.offset := rfl
  have countOf : t.message.value .count = BitVec.ofNat 32 t.count := rfl
  have long : (wires (batch t.count (rs.drop t.offset.toNat))).length ≤ vfsMaxIounit :=
    Nat.le_trans (batch_length _ _) few
  have short : (wires (batch t.count (rs.drop t.offset.toNat))).length < 2 ^ 32 := Nat.lt_of_le_of_lt long (by decide)
  have data := vnodeReadDir_batch children t.offset small (BitVec.ofNat 32 t.count)
  rw [count] at data
  have answered := readDir_eq (r := { r with msg := t.message }) data short
  have done : handleMessage libvfs p { r with msg := t.message } s = (readDir { r with msg := t.message } s.tree v).map
      fun answer => (answer, s) := by
    have get : libvfs.get r.mqId s.clients = some c := found
    have fidGet : libvfs.fidGet c fid s.clients = some (p.addr v) := at_
    show read libvfs p { r with msg := t.message } s = _
    rw [read, withClient, get, Option.bind_some, if_neg some_, withVnode, fidOf, fidGet, Option.bind_some,
      if_neg (p.nonnull v), p.vnode_addr, if_pos ⟨plain, own⟩]
  show (handleMessage libvfs p { r with msg := t.message } s).bind _ = _
  rw [done, answered, Option.map_some, Option.bind_some]
  by_cases none_ : batch t.count (rs.drop t.offset.toNat) = []
  · rw [if_pos none_, if_pos (by rw [none_]; rfl)]
    rfl
  · have positive := wires_pos none_
    have fits : ((t.message.to .rread).set .data ⟨_, short⟩).Fits := by
      rw [fits_rread rfl, Message.set_value]
      exact Nat.le_trans long (by decide)
    rw [if_neg none_, if_neg (by omega)]
    simp only [Received.answer, Message.put, if_pos fits, Option.map_some, Option.bind_some, Message.set_type, Message.to_type,
      if_true, Message.set_value]

-- The shell's stream of the root, with a buffer.
def rootStream : Stdio := ⟨⟨2, fOpen, 3, 512, 512, 512, 512, 512⟩, ⟨fun _ => 0, []⟩, 0, 0, none, [], []⟩

theorem rootRecords : oneServed.1.tree.Children [] [(⟨0, 0, 1⟩, 0, ⟨[98, 111, 111, 116], by decide⟩)] := by decide

end Listing

end VfsServer

end Anthill
