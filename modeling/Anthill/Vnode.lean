import Anthill.Ustar
import Anthill.VfsMsg

set_option autoImplicit false

namespace Anthill

/-- A pstring in memory: behind its characters `s` goes on with what lies there. -/
structure Pstring where
  len : BitVec 16
  s : Nat → Byte

def Pstring.chars (p : Pstring) : List Byte := (List.range p.len.toNat).map p.s

-- A vnode is told by the places of the children that lead to it from the root, the last of them first.
abbrev VnodeId := List Nat

structure Vnode where
  name : Option Pstring
  qid : Qid
  mountNode : Option VnodeId
  channelNode : Option VnodeId
  childrenNo : Nat
  mqId : Int

/-- The vnodes and `id_count`. The arrays of children have room for what is in them. -/
structure VnodeTree where
  node : VnodeId → Vnode
  idCount : BitVec 32

def VnodeTree.update (t : VnodeTree) (v : VnodeId) (f : Vnode → Vnode) : VnodeTree :=
  { t with node := Function.update t.node v (f (t.node v)) }

@[simp] theorem VnodeTree.update_idCount (t : VnodeTree) (v : VnodeId) (f : Vnode → Vnode) :
    (t.update v f).idCount = t.idCount := rfl

@[simp] theorem VnodeTree.update_self (t : VnodeTree) (v : VnodeId) (f : Vnode → Vnode) :
    (t.update v f).node v = f (t.node v) := Function.update_self v _ t.node

theorem VnodeTree.update_other (t : VnodeTree) (v : VnodeId) (f : Vnode → Vnode) {u : VnodeId} (other : u ≠ v) :
    (t.update v f).node u = t.node u := Function.update_of_ne other _ t.node

def nofid : BitVec 32 := BitVec.allOnes 32

inductive VfsError where
  | ok | nomem | notfound | mqerr
deriving DecidableEq

-- The fields of a Twalk but for its tag.
structure Twalk where
  fid : BitVec 32
  newfid : BitVec 32
  wname : List (List Byte)

/-- What the server meets. `walk` has the qids of the Rwalk that the driver at a queue sends for a request, or
nothing where it answers otherwise or not at all. A request to a mount with a channel is taken or not by
`write`, and `read` is the answer that is read back. Memory for a child, and for its name, is there or not, and
`behind` is what lies behind the name. -/
structure Drivers where
  walk : Int → Twalk → Option (List Qid)
  write : Vnode → Twalk → Bool
  read : Vnode → Vnode → Twalk → Option (List Qid)
  room : VnodeId → Bool
  copied : VnodeId → Bool
  behind : VnodeId → Nat → Byte

-- The comparison of vnode_find_child, of as many characters as are looked for.
def Vnode.begins (x : Vnode) (name : Pstring) : Bool := x.name.any fun s => memcmp name.s s.s name.len.toNat = 0

def vnodeFindChild (t : VnodeTree) (v : VnodeId) (name : Pstring) : Option VnodeId :=
  ((List.range (t.node v).childrenNo).find? fun i => (t.node (i :: v)).begins name).map (· :: v)

def vnodeAddChild (w : Drivers) (t : VnodeTree) (v : VnodeId) : Option (VnodeId × VnodeTree) :=
  let child := (t.node v).childrenNo :: v
  if w.room child then some (child, t.update v fun x => { x with childrenNo := x.childrenNo + 1 }) else none

def Drivers.copy (w : Drivers) (child : VnodeId) (src : Pstring) : Pstring :=
  ⟨src.len, fun i => if i < src.len.toNat then src.s i else w.behind child i⟩

def pstrdup (w : Drivers) (child : VnodeId) (src : Pstring) : Option Pstring :=
  if w.copied child then some (w.copy child src) else none

def twalkSize (r : Twalk) : Nat :=
  intSize + charSize + shrtSize + intSize + intSize + shrtSize + (r.wname.map fun s => shrtSize + s.length).sum

-- The Twrite that vnode_wrap puts `n` bytes into.
def wrapSize (n : Nat) : Nat := intSize + charSize + shrtSize + intSize + longSize + intSize + n

/-- The answer to a request that goes to the mount, and nothing where a null pointer is followed. -/
def Drivers.reply (w : Drivers) (t : VnodeTree) (mount : VnodeId) (r : Twalk) : Option (Option (List Qid)) :=
  match (t.node mount).channelNode with
  | none => some (if twalkSize r ≤ vfsMaxMsgLen - mqIdSize then w.walk (t.node mount).mqId r else none)
  | some channel =>
    if twalkSize r ≤ vfsMaxMsgLen ∧ wrapSize (twalkSize r) ≤ vfsMaxMsgLen - mqIdSize ∧ w.write (t.node channel) r then
      (t.node mount).mountNode.map fun node => w.read (t.node channel) (t.node node) r
    else some none

-- The loop of _expand over the qids of the answer. It has no result where there are more of them than elements,
-- or where a child is removed whose fields have not been set.
def expandLoop (w : Drivers) (mount : VnodeId) :
    VnodeTree → VnodeId → List Pstring → List Qid → Option (VfsError × VnodeTree × VnodeId)
  | t, v, _, [] => some (.ok, t, v)
  | _, _, [], _ :: _ => none
  | t, v, element :: elements, qid :: wqid =>
    match vnodeFindChild t v element with
    | some child => expandLoop w mount t child elements wqid
    | none =>
      match vnodeAddChild w t v with
      | none => some (.nomem, t, v)
      | some (child, t) =>
        (pstrdup w child element).bind fun name =>
          expandLoop w mount (t.update child fun _ => ⟨some name, qid, some mount, (t.node mount).channelNode, 0,
            (t.node v).mqId⟩) child elements wqid

def VnodeTree.setId (t : VnodeTree) (v : VnodeId) (id : BitVec 32) : VnodeTree :=
  t.update v fun x => { x with qid.id := id.setWidth 64 }

-- The Twalk of _expand.
def VnodeTree.request (t : VnodeTree) (mount : VnodeId) (elements : List Pstring) : Twalk :=
  ⟨(t.node mount).qid.id.setWidth 32, t.idCount, elements.map Pstring.chars⟩

def expand (w : Drivers) (t : VnodeTree) (mount : VnodeId) (elements : List Pstring) : Option (VfsError × VnodeTree) :=
  let newFid := t.idCount
  let next := { t with idCount := newFid + 1 }
  (w.reply t mount (t.request mount elements)).bind fun
    | none => some (.mqerr, next)
    | some wqid =>
      (expandLoop w mount next mount elements wqid).map fun (err, t, v) =>
        (err, if err = .ok then t.setId v newFid else t)

structure Walking where
  vnode : VnodeId
  mount : Option (VnodeId × Nat)
  i : Nat
  wqid : List Qid

structure Scanned where
  tree : VnodeTree
  count : Nat
  wqid : List Qid
  node : Option VnodeId

-- The mount, with the place of the element that follows it, and the qid that an iteration of vnode_scan notes.
def Walking.visit (s : Walking) (t : VnodeTree) : Walking :=
  { s with
    mount := if (t.node s.vnode).mountNode.isNone then some (s.vnode, s.i) else s.mount
    wqid := s.wqid.take s.i ++ [(t.node s.vnode).qid] }

def Walking.found (s : Walking) (t : VnodeTree) (child : VnodeId) : Walking :=
  { s.visit t with vnode := child, i := s.i + 1 }

-- The end of vnode_scan, where a mount is used that has not been set if there are no elements.
def Walking.finish (w : Drivers) (path : List Pstring) (t : VnodeTree) (s : Walking) : Option Scanned :=
  if (t.node s.vnode).qid.id = nofid.setWidth 64 then
    s.mount.bind fun (mount, index) => (expand w t mount (path.drop index)).map fun (_, t) =>
      ⟨t, path.length, s.wqid, some s.vnode⟩
  else some ⟨t, path.length, s.wqid, some s.vnode⟩

-- The loop of vnode_scan, for at most `fuel` iterations.
def scanLoop (w : Drivers) (path : List Pstring) : Nat → VnodeTree → Walking → Option Scanned
  | 0, _, _ => none
  | fuel + 1, t, s =>
    match path.drop s.i with
    | [] => s.finish w path t
    | element :: _ =>
      match vnodeFindChild t s.vnode element with
      | some child => scanLoop w path fuel t (s.found t child)
      | none =>
        (s.visit t).mount.bind fun (mount, index) => (expand w t mount (path.drop index)).bind fun (err, next) =>
          if err = .ok then scanLoop w path fuel next (s.visit t) else some ⟨next, s.i, (s.visit t).wqid, none⟩

def vnodeScan (w : Drivers) (path : List Pstring) (fuel : Nat) (t : VnodeTree) : Option Scanned :=
  scanLoop w path fuel t ⟨[], none, 0, []⟩

end Anthill
