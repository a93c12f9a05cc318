import Anthill.Message
import Anthill.PathSplit
import Anthill.Rpc
import Anthill.Stdio
import Anthill.Vnode

set_option autoImplicit false

namespace Anthill

open Bytes (Counted Store)
open Rpc (Talk)

abbrev fopenMax : Nat := 16

instance fopenMax_neZero : NeZero fopenMax := ⟨by decide⟩

def oTrunc : BitVec 32 := 1 <<< 6

def oAppend : BitVec 32 := 1 <<< 7

def oDirectory : BitVec 32 := 1 <<< 8

inductive OpenErrno where
  | eacces | emfile | eio | ebadf | einval
deriving DecidableEq

/-- The streams of a process, and what it counts for its messages. -/
structure Files where
  openFiles : Fin fopenMax → File
  fidCount : BitVec 32
  tagCount : BitVec 16
  initialised : Bool
  errno : Option OpenErrno

-- What has been split from a path, or nothing where it is refused.
abbrev Elements := Option (Counted 16 (Counted 16 Byte))

/-- What a process does until a function of the table returns. -/
abbrev FileTalk (α : Type) := Talk Message Message α

-- A process as it starts.
def noFiles : Files := ⟨fun _ => ⟨0, 0, 0, 0, 0, 0, 0, 0⟩, 2, 0, false, none⟩

-- What fcall_path_split makes of a path: it returns -1 where it refuses one.
def pathElements (host : Allocator) (m : Store) (wname : Nat) (path : List Byte) : Option Elements :=
  (fcallPathSplit host ⟨m, []⟩ wname path).map fun r =>
    if r.result = -1 then none
    else some ⟨pathAt r.mem.bytes r.wname (BitVec.ofInt 16 r.result).toNat, by
      rw [length_pathAt]
      exact BitVec.isLt _⟩

namespace Files

def stream (f : Files) (k : Fin fopenMax) (file : File) : Files := { f with openFiles := Function.update f.openFiles k file }

def fails (f : Files) (e : OpenErrno) : Files := { f with errno := some e }

-- A message with the next tag.
def message (f : Files) (type : FcallType) : Message := ⟨type, f.tagCount, Field.blank⟩

def tagged (f : Files) : Files := { f with tagCount := f.tagCount + 1 }

def isOpen (f : Files) (k : Fin fopenMax) : Bool := (f.openFiles k).has fOpen

end Files

/-- vfs_msg_send: a message that does not fit is not sent. -/
def sendMessage (msg : Message) : FileTalk (Option Message) :=
  if msg.Fits then .ask msg fun reply => .done (some reply) else .done none

-- The reply, if there is one of a type.
def replyOf (type : FcallType) (reply : Option Message) : Option Message := reply.filter fun reply => reply.type = type

-- The name of the queue that replies come to.
def vfsName (pid : BitVec 64) : List Byte := chars "vfs/" ++ intChars pid 10

/-- A process: its name for the server has room in a pstring. -/
structure VfsProcess where
  pid : BitVec 64
  short : (vfsName pid).length ≤ 14

def VfsProcess.uname (p : VfsProcess) : Counted 16 Byte := ⟨vfsName p.pid, Nat.lt_of_le_of_lt p.short (by decide)⟩

/-- file_init, whose queues can be opened or not. -/
def fileInit (p : VfsProcess) (queues : Bool) (f : Files) : FileTalk (Bool × Files) :=
  if queues then
    let msg := ((((f.message .tattach).set .fid 0).set .afid nofid).set .uname p.uname).set .aname ⟨chars "/", slash_short⟩
    (sendMessage msg).bind fun reply =>
      let f := f.tagged
      match replyOf .rattach reply with
      | none => .done (false, f)
      | some _ =>
        let file := f.openFiles 0
        .done (true, { f.stream 0 { file with flags := file.flags ||| fOpen, fid := 0 } with initialised := true })
  else .done (false, f)

def checkInit (p : VfsProcess) (queues : Bool) (f : Files) : FileTalk (Bool × Files) :=
  if f.initialised then .done (true, f) else fileInit p queues f

def fileWalk (fid : BitVec 32) (wname : Counted 16 (Counted 16 Byte)) (f : Files) : FileTalk (Bool × Files) :=
  let msg := (((f.message .twalk).set .fid (f.openFiles 0).fid).set .newfid fid).set .wname wname
  (sendMessage msg).bind fun reply =>
    let f := f.tagged
    match replyOf .rwalk reply with
    | none => .done (false, f.fails .eacces)
    | some _ => .done (true, f)

-- The flags of a stream and the mode of its Topen.
def openFlags (oflag : BitVec 32) : BitVec 32 × Byte :=
  let has (flag : BitVec 32) : Bool := oflag &&& flag != 0
  let (mode, flags) : Byte × BitVec 32 :=
    if has oRdonly then (1 <<< 0, fRead) else if has oWronly then (1 <<< 1, fWrite) else (1 <<< 2, fRead ||| fWrite)
  let mode := if has oTrunc then mode ||| 1 <<< 4 else mode
  let flags := if has oAppend then flags ||| fAppend else flags
  (if has oDirectory then flags ||| fDir else flags, mode)

def freeStream (f : Files) : Option (Fin fopenMax) := (List.finRange fopenMax).find? fun k => !f.isOpen k

def File.opens (file : File) (fid flags : BitVec 32) : File :=
  { file with fid := fid, flags := file.flags ||| (flags ||| fOpen), offset := 0 }

-- The end of file_open, when the fid stands for the path.
def openWalked (fid oflag : BitVec 32) (f : Files) : FileTalk (Option (Fin fopenMax) × Files) :=
  let msg := ((f.message .topen).set .fid fid).set .mode (openFlags oflag).2
  (sendMessage msg).bind fun reply =>
    let f := f.tagged
    match replyOf .ropen reply with
    | none => .done (none, f.fails .eacces)
    | some _ =>
      match freeStream f with
      | none => .done (none, f.fails .emfile)
      | some k => .done (some k, f.stream k ((f.openFiles k).opens fid (openFlags oflag).1))

/-- file_open, with what fcall_path_split makes of the path. -/
def fileOpen (p : VfsProcess) (queues : Bool) (elements : Elements) (oflag : BitVec 32) (f : Files) :
    FileTalk (Option (Fin fopenMax) × Files) :=
  (checkInit p queues f).bind fun (ready, f) =>
    if ready then
      let fid := f.fidCount
      let f := { f with fidCount := f.fidCount + 1 }
      match elements with
      | none => .done (none, f.fails .eacces)
      | some wname => (fileWalk fid wname f).bind fun (walked, f) => if walked then openWalked fid oflag f else .done (none, f)
    else .done (none, f.fails .eacces)

/-- file_close, behind the flush of the buffer. -/
def fileClose (k : Fin fopenMax) (f : Files) : FileTalk (Bool × Files) :=
  let msg := (f.message .tclunk).set .fid (f.openFiles k).fid
  (sendMessage msg).bind fun reply =>
    .done ((replyOf .rclunk reply).isSome, f.tagged.stream k ⟨nofid, 0, 0, 0, 0, 0, 0, 0⟩)

def fileFind (fid : BitVec 32) (f : Files) : Option (Fin fopenMax) :=
  (List.finRange fopenMax).find? fun k => (f.openFiles k).fid = fid ∧ f.isOpen k

-- The length is read from the record of the reply.
def fileGetStat (fid : BitVec 32) (f : Files) : FileTalk (Option (BitVec 64) × Files) :=
  (sendMessage ((f.message .tstat).set .fid fid)).bind fun reply =>
    let f := f.tagged
    match reply with
    | none => .done (none, f.fails .eio)
    | some reply =>
      if reply.type = .rstat then .done (some (Bytes.combine 64 (((reply.value .stat).1.drop sizeofQid).take 8)), f)
      else .done (none, f.fails .ebadf)

end Anthill
