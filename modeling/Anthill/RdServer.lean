import Anthill.RdReadDir
import Anthill.RdReadFile
import Anthill.VfsServer

set_option autoImplicit false

namespace Anthill

open Bytes (Store Counted)

/-- What the ramdisk's server meets outside of the disk while it handles a message: where the path that it looks for and
the buffer that it reads to lie, whether strdup gets its memory, and how many headers a search goes through at most. The
path of a Twalk is at NULL where malloc has no room for it. -/
structure RdRequest extends Received where
  path : Nat
  readBuf : Nat
  allocated : Bool
  fuel : Nat

/-- The functions of rd.c that the server calls. What they have put at their buffers stands for the number of bytes that
they return. -/
structure Disk where
  find : RdRequest → List Byte → Option Nat
  kind : Nat → Byte
  type : Nat → BitVec 32
  readFile : RdRequest → Nat → BitVec 64 → BitVec 32 → Option (List Byte)
  readDir : RdRequest → Nat → BitVec 64 → BitVec 32 → Option (List Byte)
  stat : RdRequest → Nat → Option (List Byte)

def rdDisk (m : Store) : Disk where
  find r path := rdFind (m.write r.path (Bytes.split (BitVec.ofNat 16 path.length) shrtSize ++ path)) r.path r.fuel
  kind header := m (header + headerTypeOff)
  type := rdGetType m
  readFile r header offset count :=
    let read := rdReadFile m header r.readBuf offset count
    some (read.mem.bytes r.readBuf read.len.toNat)
  readDir r header offset count :=
    match rdReadDir m r.allocated r.fuel header offset count vfsMaxIounit with
    | .ret buffer => some buffer
    | .unfinished | .overread | .fault => none
  stat r header :=
    match rdGetStat m r.allocated header vfsMaxIounit with
    | .ret size buffer _ => some (buffer.take size)
    | .overread | .fault => none

structure RdServer (σ : Type) where
  clients : σ

namespace RdServer

def einvalid : Counted 16 Byte := ⟨chars "Invalid message", einvalid_short⟩

def enotfound : Counted 16 Byte := ⟨chars "Requested File not found", by decide⟩

def eclient : Counted 16 Byte := ⟨chars "Client error", eclient_short⟩

section Handlers

variable {σ : Type} (lib : ClientLib σ) (d : Disk) (r : RdRequest)

def withClient (s : RdServer σ) (next : Nat → Option (Answer × RdServer σ)) : Option (Answer × RdServer σ) :=
  (lib.get r.mqId s.clients).bind fun client => if client = 0 then some (r.error eclient, s) else next client

def withHeader (s : RdServer σ) (next : Nat → Option Answer) : Option (Answer × RdServer σ) :=
  withClient lib r s fun client =>
    (lib.fidGet client (r.msg.value .fid) s.clients).bind fun header =>
      if header = 0 then some (r.error enotfound, s) else (next header).map fun answer => (answer, s)

def attach (s : RdServer σ) : Option (Answer × RdServer σ) :=
  (attachClient lib r.toReceived s.clients).bind fun (client, clients) =>
    let s : RdServer σ := ⟨clients⟩
    let fid := r.msg.value .fid
    match client with
    | none => some (none, s)
    | some client =>
      if fid = nofid ∨ r.msg.value .afid ≠ nofid then some (r.error einvalid, s)
      else
        (d.find r (r.msg.value .aname).1).bind fun header =>
          if header = 0 then some (r.error enotfound, s)
          else
            (lib.fidAdd client fid header r.pair s.clients).map fun (_, clients) =>
              (r.answer ((r.msg.to .rattach).set .qid ⟨d.type header, 0, fid.setWidth 64⟩), ⟨clients⟩)

-- What is sent of a buffer of VFS_MAX_IOUNIT bytes. It has no result where more has been put at it.
def filled {w : Nat} (wide : vfsMaxIounit < 2 ^ w) (data : List Byte) : Option (Counted w Byte) :=
  if room : data.length ≤ vfsMaxIounit then some ⟨data, Nat.lt_of_le_of_lt room wide⟩ else none

def read (s : RdServer σ) : Option (Answer × RdServer σ) :=
  withHeader lib r s fun header =>
    let rread (data : List Byte) := (filled (by decide) data).map fun data => r.answer ((r.msg.to .rread).set .data data)
    if d.kind header = rdtFile then (d.readFile r header (r.msg.value .offset) (r.msg.value .count)).bind rread
    else if d.kind header = rdtDir then (d.readDir r header (r.msg.value .offset) (r.msg.value .count)).bind rread
    else some (r.error einvalid)

def stat (s : RdServer σ) : Option (Answer × RdServer σ) :=
  withHeader lib r s fun header =>
    (d.stat r header).bind fun stat =>
      if stat.length = 0 then some (r.error enotfound)
      else (filled (by decide) stat).map fun stat => r.answer ((r.msg.to .rstat).set .stat stat)

-- The qids of the elements as far as they are found, and the header of the last one. It has no result where the path is
-- longer than the memory that `room` says it has.
def walkLoop (room : Nat) : List (Counted 16 Byte) → List Byte → List Qid → Nat → Option (List Qid × Nat)
  | [], _, wqid, header => some (wqid, header)
  | name :: names, path, wqid, _ =>
    let path := path ++ name.1 ++ if names = [] then [] else [0x2f]
    if room < path.length then none
    else
      (d.find r path).bind fun header =>
        if header = 0 then some (wqid, 0)
        else walkLoop room names path (wqid ++ [⟨d.type header, 0, nofid.setWidth 64⟩]) header

-- What fcall_path_size returns.
def pathSize (wname : List (Counted 16 Byte)) : Nat :=
  let total := (joinSlash (wname.map Subtype.val)).length - 1
  if shrtMax < total then 0 else total

def walk (s : RdServer σ) : Option (Answer × RdServer σ) :=
  let wname := (r.msg.value .wname).1
  let newfid := r.msg.value .newfid
  if newfid = nofid then some (r.error einvalid, s)
  else
    withClient lib r s fun client =>
      if r.path = 0 then some (r.error eclient, s)
      else
        (walkLoop d r (pathSize wname + 1) wname [0x2f] [] 0).bind fun (wqid, header) =>
          let rwalk (wqid : List Qid) := r.answer ((r.msg.to .rwalk).set .wqid ⟨wqid.take wname.length,
            Nat.lt_of_le_of_lt (List.length_take_le _ _) (r.msg.value .wname).2⟩)
          if wqid.length = 0 then some (r.error enotfound, s)
          else if wqid.length = wname.length then
            (lib.fidAdd client newfid header r.pair s.clients).map fun (_, clients) =>
              (rwalk (wqid.modify (wqid.length - 1) fun qid => { qid with id := newfid.setWidth 64 }), ⟨clients⟩)
          else some (rwalk wqid, s)

/-- What is done for a message that has been parsed. One of another type is sent back as it is. -/
def handleMessage (s : RdServer σ) : Option (Answer × RdServer σ) :=
  match r.msg.type with
  | .tattach => attach lib d r s
  | .tread => read lib d r s
  | .tstat => stat lib d r s
  | .twalk => walk lib d r s
  | _ => some (some (r.msg, r.mqId), s)

end Handlers

theorem length_joinSlash_cons (e : List Byte) (es : List (List Byte)) :
    (joinSlash (e :: es)).length = e.length + 1 + (joinSlash es).length := by
  rw [joinSlash, List.flatMap_cons, List.length_append, List.length_cons, joinSlash]

theorem pathTotal_length (m : Store) (ptr n : Nat) :
    pathTotal m ptr n = (joinSlash ((pathAt m ptr n).map Subtype.val)).length - 1 := by
  induction n generalizing ptr with
  | zero => rfl
  | succ n ih =>
    have length : (pstringAt m ptr).1.length = (getUshort m ptr).toNat := Store.length_bytes ..
    rw [pathTotal, ih, pathAt, List.map_cons, length_joinSlash_cons, length]
    cases n with
    | zero => rfl
    | succ n =>
      rw [if_neg (Nat.succ_ne_zero n), pathAt, List.map_cons, length_joinSlash_cons]
      omega

theorem fcallPathSize_eq (m : Store) (nwname : BitVec 16) (wname : Nat) :
    fcallPathSize m nwname wname = pathSize (pathAt m wname nwname.toNat) := by
  rw [fcallPathSize, pathTotal_length, pathSize]

end RdServer

end Anthill
