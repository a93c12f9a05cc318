import Anthill.Bytes
import Anthill.Mqueue

set_option autoImplicit false

namespace Anthill

open Bytes (Store)

def charSize : Nat := 1

def shrtSize : Nat := 2

def intSize : Nat := 4

def longSize : Nat := 8

structure Qid where
  type : BitVec 32
  version : BitVec 32
  id : BitVec 64
deriving DecidableEq, Inhabited

def sizeofQid : Nat := 16

inductive FcallType where
  | tversion | rversion | terror | rerror | tattach | rattach | twalk | rwalk | topen | ropen | tcreate
  | rcreate | tread | rread | twrite | rwrite | tclunk | rclunk | tstat | rstat | tmount | rmount
deriving DecidableEq

def fcallTypes : List FcallType :=
  [.tversion, .rversion, .terror, .rerror, .tattach, .rattach, .twalk, .rwalk, .topen, .ropen, .tcreate,
    .rcreate, .tread, .rread, .twrite, .rwrite, .tclunk, .rclunk, .tstat, .rstat, .tmount, .rmount]

def FcallType.code : FcallType → Byte
  | .tversion => 100
  | .rversion => 101
  | .terror => 102
  | .rerror => 103
  | .tattach => 104
  | .rattach => 105
  | .twalk => 106
  | .rwalk => 107
  | .topen => 108
  | .ropen => 109
  | .tcreate => 110
  | .rcreate => 111
  | .tread => 112
  | .rread => 113
  | .twrite => 114
  | .rwrite => 115
  | .tclunk => 116
  | .rclunk => 117
  | .tstat => 118
  | .rstat => 119
  | .tmount => 120
  | .rmount => 121

-- The case of a switch that a byte selects.
def FcallType.ofCode (type : Byte) : Option FcallType := fcallTypes.find? fun t => t.code = type

-- The members of the union are kept apart: a message's type says which of them it uses, and no type uses two.
-- A pointer is the address it holds.
structure Fcall where
  fid : BitVec 32
  type : Byte
  tag : BitVec 16
  msize : BitVec 32
  version : Nat
  ename : Nat
  afid : BitVec 32
  uname : Nat
  aname : Nat
  qid : Qid
  iounit : BitVec 32
  newfid : BitVec 32
  nwname : BitVec 16
  wname : Nat
  nwqid : BitVec 16
  wqid : Nat
  name : Nat
  perm : BitVec 32
  mode : Byte
  offset : BitVec 64
  count : BitVec 32
  data : Nat
  nstat : BitVec 16
  stat : Nat
  mfid : BitVec 32
deriving Inhabited

def getUchar (m : Store) (ptr : Nat) : Byte := m ptr

def getUshort (m : Store) (ptr : Nat) : BitVec 16 := (m ptr).setWidth 16 ||| (m (ptr + 1)).setWidth 16 <<< 8

def getUint (m : Store) (ptr : Nat) : BitVec 32 :=
  (m ptr).setWidth 32 ||| (m (ptr + 1)).setWidth 32 <<< 8 ||| (m (ptr + 2)).setWidth 32 <<< 16 |||
    (m (ptr + 3)).setWidth 32 <<< 24

def getUlong (m : Store) (ptr : Nat) : BitVec 64 :=
  (getUint m ptr).setWidth 64 ||| (getUint m (ptr + 4)).setWidth 64 <<< 32

def pstrlen (m : Store) (s : Nat) : Nat := shrtSize + (getUshort m s).toNat

-- The bytes that the loops over the path elements of a Twalk walk over.
def pathLength (m : Store) : Nat → Nat → Nat
  | _, 0 => 0
  | ptr, n + 1 => pstrlen m ptr + pathLength m (ptr + pstrlen m ptr) n

def fcallSize (m : Store) (fcall : Fcall) : Nat :=
  let size := intSize + charSize + shrtSize
  match FcallType.ofCode fcall.type with
  | some .tversion | some .rversion => size + intSize + pstrlen m fcall.version
  | some .rerror => size + pstrlen m fcall.ename
  | some .tattach => size + intSize + intSize + pstrlen m fcall.uname + pstrlen m fcall.aname
  | some .rattach => size + sizeofQid
  | some .twalk => size + intSize + intSize + shrtSize + pathLength m fcall.wname fcall.nwname.toNat
  | some .rwalk => size + shrtSize + sizeofQid * fcall.nwqid.toNat
  | some .topen => size + intSize + charSize
  | some .ropen | some .rcreate => size + sizeofQid + intSize
  | some .tcreate => size + intSize + pstrlen m fcall.name + intSize + charSize
  | some .tread => size + intSize + longSize + intSize
  | some .rread => size + intSize + fcall.count.toNat
  | some .twrite => size + intSize + longSize + intSize + fcall.count.toNat
  | some .rwrite => size + intSize
  | some .tclunk | some .tstat => size + intSize
  | some .rclunk => size
  | some .rstat => size + shrtSize + fcall.nstat.toNat
  | some .tmount => size + intSize + intSize
  | some .rmount => size + sizeofQid
  | _ => 0

-- The size_t is returned as an unsigned.
def fcallMsgSize (m : Store) (fcall : Fcall) : BitVec 32 := BitVec.ofNat 32 (fcallSize m fcall)

-- Memory and the place in it that is written next.
structure Sink where
  mem : Store
  ptr : Nat

def Sink.byte (o : Sink) (b : Byte) : Sink := ⟨o.mem.set o.ptr b, o.ptr + 1⟩

def Sink.putUchar (o : Sink) (val : Byte) : Sink := o.byte val

def Sink.putUshort (o : Sink) (val : BitVec 16) : Sink := (o.byte (val.setWidth 8)).byte ((val >>> 8).setWidth 8)

def Sink.putUint (o : Sink) (val : BitVec 32) : Sink :=
  (((o.byte (val.setWidth 8)).byte ((val >>> 8).setWidth 8)).byte ((val >>> 16).setWidth 8)).byte
    ((val >>> 24).setWidth 8)

def Sink.putUlong (o : Sink) (val : BitVec 64) : Sink :=
  (((((((o.byte (val.setWidth 8)).byte ((val >>> 8).setWidth 8)).byte ((val >>> 16).setWidth 8)).byte
    ((val >>> 24).setWidth 8)).byte ((val >>> 32).setWidth 8)).byte ((val >>> 40).setWidth 8)).byte
    ((val >>> 48).setWidth 8)).byte ((val >>> 56).setWidth 8)

-- From the i-th byte of the string on. The length is read in every round; no string is longer than the fuel.
def Sink.copy (pstr : Nat) : Nat → Nat → Sink → Sink
  | 0, _, o => o
  | fuel + 1, i, o => if i < pstrlen o.mem pstr then copy pstr fuel (i + 1) (o.byte (o.mem (pstr + i))) else o

def Sink.putPstring (o : Sink) (pstr : Nat) : Sink :=
  Sink.copy pstr (2 ^ 16) shrtSize (o.putUshort (getUshort o.mem pstr))

def Sink.putQid (o : Sink) (qid : Qid) : Sink := ((o.putUint qid.type).putUint qid.version).putUlong qid.id

-- _put_qid of a qid in memory.
def Sink.putQidAt (o : Sink) (qid : Nat) : Sink :=
  let o := o.putUint (getUint o.mem qid)
  let o := o.putUint (getUint o.mem (qid + 4))
  o.putUlong (getUlong o.mem (qid + 8))

def Sink.putPath : Nat → Nat → Sink → Sink
  | _, 0, o => o
  | s, n + 1, o =>
    let o := o.putPstring s
    putPath (s + pstrlen o.mem s) n o

def Sink.putQids : Nat → Nat → Sink → Sink
  | _, 0, o => o
  | wqid, n + 1, o => putQids (wqid + sizeofQid) n (o.putQidAt wqid)

def Sink.emit (o : Sink) (bs : List Byte) : Sink := bs.foldl Sink.byte o

def Sink.memmove (o : Sink) (src n : Nat) : Sink := o.emit (o.mem.bytes src n)

def fcallMsgToBuf (m : Store) (fcall : Fcall) (buf : Nat) (length : BitVec 32) : BitVec 32 × Store :=
  let size := fcallMsgSize m fcall
  if size = 0 ∨ length < size then (0, m)
  else
    let o := (Sink.mk m buf).putUint (fcallMsgSize m fcall)
    let o := o.putUchar fcall.type
    let o := o.putUshort fcall.tag
    let o := match FcallType.ofCode fcall.type with
      | some .tversion | some .rversion => (o.putUint fcall.msize).putPstring fcall.version
      | some .rerror => o.putPstring fcall.ename
      | some .tattach =>
        (((o.putUint fcall.fid).putUint fcall.afid).putPstring fcall.uname).putPstring fcall.aname
      | some .rattach | some .rmount => o.putQid fcall.qid
      | some .twalk =>
        Sink.putPath fcall.wname fcall.nwname.toNat
          (((o.putUint fcall.fid).putUint fcall.newfid).putUshort fcall.nwname)
      | some .rwalk => Sink.putQids fcall.wqid fcall.nwqid.toNat (o.putUshort fcall.nwqid)
      | some .topen => (o.putUint fcall.fid).putUchar fcall.mode
      | some .ropen | some .rcreate => (o.putQid fcall.qid).putUint fcall.iounit
      | some .tcreate => (((o.putUint fcall.fid).putPstring fcall.name).putUint fcall.perm).putUchar fcall.mode
      | some .tread => ((o.putUint fcall.fid).putUlong fcall.offset).putUint fcall.count
      | some .rread => (o.putUint fcall.count).memmove fcall.data fcall.count.toNat
      | some .twrite =>
        (((o.putUint fcall.fid).putUlong fcall.offset).putUint fcall.count).memmove fcall.data fcall.count.toNat
      | some .rwrite => o.putUint fcall.count
      | some .tclunk | some .tstat => o.putUint fcall.fid
      | some .rstat => (o.putUshort fcall.nstat).memmove fcall.stat fcall.nstat.toNat
      | some .tmount => (o.putUint fcall.fid).putUint fcall.mfid
      | _ => o
    (BitVec.ofNat 32 (o.ptr - buf), o.mem)

-- ptr, the message as filled in so far and the addresses of the bytes read.
structure Parse where
  ptr : Nat
  fcall : Fcall
  reads : List Nat

def Parse.read (p : Parse) (n : Nat) : Parse :=
  { p with ptr := p.ptr + n, reads := p.reads ++ List.range' p.ptr n }

def Parse.skip (p : Parse) (n : Nat) : Parse := { p with ptr := p.ptr + n }

-- Only the length of a string is read.
def Parse.pstring (m : Store) (p : Parse) : Parse :=
  { p with ptr := p.ptr + pstrlen m p.ptr, reads := p.reads ++ List.range' p.ptr shrtSize }

def Parse.path (m : Store) : Nat → Parse → Parse
  | 0, p => p
  | n + 1, p => path m n (p.pstring m)

def Parse.type (m : Store) (p : Parse) : Parse := { p with fcall.type := getUchar m p.ptr }.read charSize

def Parse.tag (m : Store) (p : Parse) : Parse := { p with fcall.tag := getUshort m p.ptr }.read shrtSize

def Parse.fid (m : Store) (p : Parse) : Parse := { p with fcall.fid := getUint m p.ptr }.read intSize

def Parse.msize (m : Store) (p : Parse) : Parse := { p with fcall.msize := getUint m p.ptr }.read intSize

def Parse.version (m : Store) (p : Parse) : Parse := { p with fcall.version := p.ptr }.pstring m

def Parse.ename (m : Store) (p : Parse) : Parse := { p with fcall.ename := p.ptr }.pstring m

def Parse.afid (m : Store) (p : Parse) : Parse := { p with fcall.afid := getUint m p.ptr }.read intSize

def Parse.uname (m : Store) (p : Parse) : Parse := { p with fcall.uname := p.ptr }.pstring m

def Parse.aname (m : Store) (p : Parse) : Parse := { p with fcall.aname := p.ptr }.pstring m

def Parse.qid (m : Store) (p : Parse) : Parse :=
  let p := { p with fcall.qid.type := getUint m p.ptr }.read intSize
  let p := { p with fcall.qid.version := getUint m p.ptr }.read intSize
  { p with fcall.qid.id := getUlong m p.ptr }.read longSize

def Parse.iounit (m : Store) (p : Parse) : Parse := { p with fcall.iounit := getUint m p.ptr }.read intSize

def Parse.newfid (m : Store) (p : Parse) : Parse := { p with fcall.newfid := getUint m p.ptr }.read intSize

def Parse.wname (m : Store) (p : Parse) : Parse :=
  let p := { p with fcall.nwname := getUshort m p.ptr }.read shrtSize
  let p := { p with fcall.wname := p.ptr }
  p.path m p.fcall.nwname.toNat

def Parse.wqid (m : Store) (p : Parse) : Parse :=
  let p := { p with fcall.nwqid := getUshort m p.ptr }.read shrtSize
  let p := { p with fcall.wqid := p.ptr }
  p.skip (p.fcall.nwqid.toNat * sizeofQid)

def Parse.name (m : Store) (p : Parse) : Parse := { p with fcall.name := p.ptr }.pstring m

def Parse.perm (m : Store) (p : Parse) : Parse := { p with fcall.perm := getUint m p.ptr }.read intSize

def Parse.mode (m : Store) (p : Parse) : Parse := { p with fcall.mode := getUchar m p.ptr }.read charSize

def Parse.offset (m : Store) (p : Parse) : Parse := { p with fcall.offset := getUlong m p.ptr }.read longSize

def Parse.count (m : Store) (p : Parse) : Parse := { p with fcall.count := getUint m p.ptr }.read intSize

def Parse.data (m : Store) (p : Parse) : Parse :=
  let p := p.count m
  let p := { p with fcall.data := p.ptr }
  p.skip p.fcall.count.toNat

def Parse.stat (m : Store) (p : Parse) : Parse :=
  let p := { p with fcall.nstat := getUshort m p.ptr }.read shrtSize
  let p := { p with fcall.stat := p.ptr }
  p.skip p.fcall.nstat.toNat

def Parse.mfid (m : Store) (p : Parse) : Parse := { p with fcall.mfid := getUint m p.ptr }.read intSize

-- The switch; none for the types it does not know.
def Parse.body (m : Store) (p : Parse) : Option Parse :=
  match FcallType.ofCode p.fcall.type with
  | some .tversion | some .rversion => some ((p.msize m).version m)
  | some .rerror => some (p.ename m)
  | some .tattach => some ((((p.fid m).afid m).uname m).aname m)
  | some .rattach | some .rmount => some (p.qid m)
  | some .twalk => some (((p.fid m).newfid m).wname m)
  | some .rwalk => some (p.wqid m)
  | some .topen => some ((p.fid m).mode m)
  | some .ropen | some .rcreate => some ((p.qid m).iounit m)
  | some .tcreate => some ((((p.fid m).name m).perm m).mode m)
  | some .tread => some (((p.fid m).offset m).count m)
  | some .rread => some (p.data m)
  | some .twrite => some (((p.fid m).offset m).data m)
  | some .rwrite => some (p.count m)
  | some .tclunk | some .tstat => some (p.fid m)
  | some .rclunk => some p
  | some .rstat => some (p.stat m)
  | some .tmount => some ((p.fid m).mfid m)
  | _ => none

def Parse.header (m : Store) (buf : Nat) (fcall : Fcall) : Parse :=
  (((⟨buf, fcall, []⟩ : Parse).read intSize).type m).tag m

def fcallBufToMsg (m : Store) (buf : Nat) (fcall : Fcall) : BitVec 32 × Parse :=
  let size := getUint m buf
  let p := Parse.header m buf fcall
  match p.body m with
  | none => (0, p)
  | some p => if size.toNat ≠ p.ptr - buf then (0, p) else (size, p)

end Anthill
