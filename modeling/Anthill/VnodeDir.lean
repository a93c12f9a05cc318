import Anthill.RdReadDir
import Anthill.VnodeFids

set_option autoImplicit false

namespace Anthill

def Pstring.counted (s : Pstring) : Bytes.Counted 16 Byte := ⟨s.chars, by
  rw [Pstring.chars, List.length_map, List.length_range]
  exact s.len.isLt⟩

-- The entry of a vnode. Its length is always zero.
def Vnode.record (x : Vnode) : Option StatRecord := x.name.map fun name => (x.qid, 0, name.counted)

-- The loop of vnode_read_dir over the children from the i-th on. It has no result where a child has no name.
def readDirLoop (t : VnodeTree) (v : VnodeId) (count : Nat) : Nat → Nat → List Byte → Option (List Byte)
  | 0, _, buf => some buf
  | more + 1, i, buf =>
    (t.node (i :: v)).record.bind fun r =>
      if count < buf.length + r.wire.length then some buf else readDirLoop t v count more (i + 1) (buf ++ r.wire)

def vnodeReadDir (t : VnodeTree) (v : VnodeId) (offset : BitVec 64) (count : BitVec 32) : Option (List Byte) :=
  let i := (offset.setWidth 32).toNat
  readDirLoop t v count.toNat ((t.node v).childrenNo - i) i []

theorem readDirLoop_length {t : VnodeTree} {v : VnodeId} {count more i : Nat} {buf r : List Byte}
    (done : readDirLoop t v count more i buf = some r) (fits : buf.length ≤ count) : r.length ≤ count := by
  induction more generalizing i buf with
  | zero =>
    obtain rfl := Option.some.inj done
    exact fits
  | succ more ih =>
    obtain ⟨record, -, done⟩ := Option.bind_eq_some_iff.mp done
    split at done
    · obtain rfl := Option.some.inj done
      exact fits
    · next short =>
      refine ih done ?_
      rw [List.length_append]
      exact Nat.le_of_not_lt short

/-- No more bytes are put than the caller has room for. -/
theorem vnodeReadDir_length {t : VnodeTree} {v : VnodeId} {offset : BitVec 64} {count : BitVec 32} {r : List Byte}
    (done : vnodeReadDir t v offset count = some r) : r.length ≤ count.toNat :=
  readDirLoop_length done (Nat.zero_le _)

end Anthill
