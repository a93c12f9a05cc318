import Anthill.Mqueue
import Anthill.Paged
import Anthill.Task

set_option autoImplicit false

namespace Anthill

-- A C string is given by its characters before the first NUL.
abbrev CChar := { c : Byte // c ≠ 0 }

def firstChar : List CChar → Byte
  | [] => 0
  | c :: _ => c.val

-- `n` is what `--n` has left to compare.
def strncmpFrom : Nat → List CChar → List CChar → Int
  | n + 1, c :: left, d :: right =>
    if c = d then strncmpFrom n left right else (c.val.toNat : Int) - d.val.toNat
  | _, left, right => (firstChar left).toNat - (firstChar right).toNat

-- For a positive `n`, as every caller passes.
def strncmp (s1 s2 : List CChar) (n : Nat) : Int := strncmpFrom (n - 1) s1 s2

abbrev nodeBufCnt : Nat := 18
abbrev msbNameMax : Nat := 32
abbrev queueSize : Nat := 8
abbrev maxConn : Nat := 8

instance connNeZero : NeZero maxConn := ⟨by decide⟩

instance nodeBufNeZero : NeZero nodeBufCnt := ⟨by decide⟩

structure Conn where
  id : Int
  addr : Word
deriving DecidableEq, Repr

-- `name` is what strlen and strncmp see of the array: its characters before the first NUL.
structure Msgbuf where
  name : List CChar
  addr : Word
  owner : Word
  size : Word
  recvQueue : Fin queueSize → Int
  recvQueuePos : Word
  connections : Fin maxConn → Conn

abbrev Buffers := Fin nodeBufCnt → Msgbuf

/-- The contents of a page, read as a struct msgbuf_node. -/
structure MsgbufNode where
  next : Word
  buffers : Buffers

/-- The list from `first` on. Every node but the last is followed by the next one of `nodes`; `next` is
the pointer in the last one. -/
structure Registry where
  nodes : List Buffers
  next : Word

structure MsgSys where
  sys : Sys
  reg : Registry

structure MsgbufRId where
  id : Int
  err : KernErr
deriving DecidableEq, Repr

def Msgbuf.blank : Msgbuf where
  name := []
  addr := 0
  owner := 0
  size := 0
  recvQueue _ := 0
  recvQueuePos := 0
  connections _ := ⟨0, 0⟩

-- What a pointer to message buffer `n` reads.
def Registry.buf (reg : Registry) (n : Nat) : Msgbuf := (Paged.get reg.nodes n).getD .blank

def Registry.setBuf (reg : Registry) (n : Nat) (f : Msgbuf → Msgbuf) : Registry :=
  { reg with nodes := Paged.modify reg.nodes n f }

-- The node that `id / NODE_BUF_CNT` steps from `first` lead to. The first step, or the use of node 0,
-- dereferences `first`, and a step from the last node follows `next`. A negative id becomes a size_t
-- that is past the end of every list that memory has room for.
def Registry.nodeOf (reg : Registry) (id : Int) : Except Halt (Option Buffers) :=
  if reg.nodes = [] then .error .fault
  else
    match if id < 0 then none else reg.nodes[id.toNat / nodeBufCnt]? with
    | some node => .ok (some node)
    | none => if reg.next = 0 then .ok none else .error .fault

-- The pointer that _msgbuf_get returns is the number of a message buffer.
def msgbufGet (reg : Registry) (id : Int) : Except Halt (Option Nat) :=
  match reg.nodeOf id with
  | .error halt => .error halt
  | .ok none => .ok none
  | .ok (some node) =>
    .ok (if (node (Paged.place nodeBufCnt id.toNat)).name = [] then none else some id.toNat)

-- The body of the outer loop ends in a return: `node = node->next` is never used.
def msgbufGetId (reg : Registry) (name : List CChar) : Except Halt Int :=
  match reg.nodes with
  | [] => .error .fault
  | node :: _ =>
    match Slots.first fun i => strncmp (node i).name name msbNameMax = 0 with
    | some i => .ok i.val
    | none => .ok (-1)

-- The inner loop of _msgbuf_alloc over the node at `list_idx`: `none` at a name collision, else the
-- first empty message buffer so far.
def scanNode (name : List CChar) (listIdx : Nat) (node : Buffers) (id : Option Nat) :
    Option (Option Nat) :=
  match Slots.first fun i => strncmp name (node i).name msbNameMax = 0 with
  | some _ => none
  | none =>
    match id with
    | some id => some (some id)
    | none => some ((Slots.first fun i => (node i).name = []).map fun i => listIdx * nodeBufCnt + i.val)

def scanNodes (name : List CChar) : Nat → List Buffers → Option Nat → Option (Option Nat)
  | _, [], id => some id
  | listIdx, node :: nodes, id =>
    match scanNode name listIdx node id with
    | none => none
    | some id => scanNodes name (listIdx + 1) nodes id

/-- The `n`-th page that is handed out for a node holds `stale n` before _msgbuf_alloc writes to it. -/
abbrev Stale := Nat → MsgbufNode

-- The outer loop of _msgbuf_alloc from the end of the list on. A round without an empty message buffer
-- takes one of the frames that the kernel manages, so the fuel is never used up.
def growNodes (stale : Stale) (name : List CChar) :
    Nat → Kernel → Registry → Option Nat → Except Halt (Except KernErr Nat × Kernel × Registry)
  | _, k, reg, some id => if reg.next = 0 then .ok (.ok id, k, reg) else .error .fault
  | 0, _, _, none => .error .hang
  | fuel + 1, k, reg, none =>
    if reg.next ≠ 0 then .error .fault
    else
      match memKernelAllocPage k .rw with
      | (⟨_, .ok⟩, k) =>
        let page := stale reg.nodes.length
        match scanNode name reg.nodes.length page.buffers none with
        | none => .ok (.error .msbExs, k, ⟨reg.nodes ++ [page.buffers], page.next⟩)
        | some id => growNodes stale name fuel k ⟨reg.nodes ++ [page.buffers], page.next⟩ id
      | (⟨_, err⟩, k) => .ok (.error err, k, reg)

def findSlot (stale : Stale) (name : List CChar) (k : Kernel) (reg : Registry) :
    Except Halt (Except KernErr Nat × Kernel × Registry) :=
  match scanNodes name 0 reg.nodes none with
  | none => .ok (.error .msbExs, k, reg)
  | some id => growNodes stale name managed k reg id

-- strlcpy of the name. The NUL of a name that fills the array goes to the low byte of `addr`.
def Msgbuf.copyName (msgbuf : Msgbuf) (name : List CChar) : Msgbuf :=
  { msgbuf with
    name := name.take msbNameMax
    addr := if msbNameMax ≤ name.length then msgbuf.addr &&& ~~~(0xff : Word) else msgbuf.addr }

def msgbufAlloc (stale : Stale) (name : List CChar) (k : Kernel) (reg : Registry) :
    Except Halt (Except KernErr Nat × Kernel × Registry) :=
  let found :=
    if reg.nodes = [] then
      match memKernelAllocPage k .rw with
      | (⟨_, .ok⟩, k) => findSlot stale name k ⟨[(stale 0).buffers], 0⟩
      | (⟨_, err⟩, k) => .ok (.error err, k, reg)
    else findSlot stale name k reg
  match found with
  | .error halt => .error halt
  | .ok (.error err, k, reg) => .ok (.error err, k, reg)
  | .ok (.ok id, k, reg) =>
    let reg := reg.setBuf id fun msgbuf => msgbuf.copyName name
    if msbNameMax < name.length then
      .ok (.error .msbNam, k, reg.setBuf id fun msgbuf => { msgbuf with name := [] })
    else .ok (.ok id, k, reg)

-- The search of mem_user_find_empty starts over after at most one round for each page address, so one
-- that takes more rounds never ends.
def findEmptyRounds : Nat := 2 ^ 52

-- One round of the loop of _buffer_alloc; `.error` is an early return. A page that cannot be mapped is
-- reported with the `err` of its allocation.
def bufferStep (k : Kernel) (tranTable vaddr : Word) :
    Except (Except Halt (MemRAddr × Kernel)) Kernel :=
  match memKernelAllocPage k .rw with
  | (⟨page, .ok⟩, k) =>
    match memUserMapPage k tranTable vaddr (virtToPhys page) .rw .norm with
    | .error halt => .error (.error halt)
    | .ok (.ok, k) => .ok k
    | .ok (_, k) => .error (.ok (⟨0, .ok⟩, k))
  | (⟨_, err⟩, k) => .error (.ok (⟨0, err⟩, k))

def bufferLoop (tranTable vaddr : Word) : Kernel → Nat → Nat → Except Halt (MemRAddr × Kernel)
  | k, _, 0 => .ok (⟨vaddr, .ok⟩, k)
  | k, i, count + 1 =>
    match bufferStep k tranTable (pageAt vaddr i) with
    | .error early => early
    | .ok k => bufferLoop tranTable vaddr k (i + 1) count

def bufferAlloc (s : Sys) (size : Word) : Except Halt (MemRAddr × Kernel) :=
  let tranTable := s.table s.current
  let pageCnt := (memSizeToPages size).toNat
  match memUserFindEmpty s.kernel.mem tranTable pageCnt findEmptyRounds 0x200000 with
  | none => .error .hang
  | some vaddr =>
    if vaddr = 0 then .ok (⟨0, .memOom⟩, s.kernel) else bufferLoop tranTable vaddr s.kernel 0 pageCnt

def Sys.setKernel (s : Sys) (k : Kernel) : Sys := { s with kernel := k }

-- What msgbuf_create assigns to the message buffer that it has found.
def Msgbuf.claim (msgbuf : Msgbuf) (owner : Word) : Msgbuf :=
  { msgbuf with owner := owner, recvQueue := fun _ => -1, connections := fun _ => ⟨-1, 0⟩ }

-- The value stored through `send_buf` comes with the result.
def msgbufCreate (stale : Stale) (s : MsgSys) (name : List CChar) (size : Word) (sendBuf : Bool) :
    Except Halt ((MsgbufRId × Option Word) × MsgSys) :=
  if name.length = 0 ∨ msbNameMax < name.length then .ok ((⟨-1, .msbNam⟩, none), s)
  else if sendBuf ∧ size = 0 then .ok ((⟨-1, .msbSiz⟩, none), s)
  else
    match msgbufAlloc stale name s.sys.kernel s.reg with
    | .error halt => .error halt
    | .ok (.error err, k, reg) => .ok ((⟨-1, err⟩, none), ⟨s.sys.setKernel k, reg⟩)
    | .ok (.ok id, k, reg) =>
      match msgbufGet reg id with
      | .error halt => .error halt
      | .ok none => .error .fault
      | .ok (some n) =>
        let reg := reg.setBuf n fun msgbuf => msgbuf.claim s.sys.current
        let sys := s.sys.setKernel k
        if sendBuf then
          match bufferAlloc sys size with
          | .error halt => .error halt
          | .ok (⟨addr, .ok⟩, k) =>
            .ok ((⟨id, .ok⟩, some addr),
              ⟨sys.setKernel k, reg.setBuf n fun msgbuf => { msgbuf with addr := addr, size := size }⟩)
          | .ok (⟨_, err⟩, k) => .ok ((⟨-1, err⟩, none), ⟨sys.setKernel k, reg⟩)
        else
          .ok ((⟨id, .ok⟩, none),
            ⟨sys, reg.setBuf n fun msgbuf => { msgbuf with addr := 0, size := 0 }⟩)

-- The loop of _conn_free over the pages that remain, from page `p` on.
def unmapConn (tranTable addr : Word) : Kernel → Nat → Nat → Except Halt Kernel
  | k, _, 0 => .ok k
  | k, p, count + 1 =>
    match memUserUnmapPage k tranTable (pageAt addr p) with
    | (⟨_, .ok⟩, k) => unmapConn tranTable addr k (p + 1) count
    | _ => .error (.panic "Message buffer disconnection tried to unmap non-mapped page")

def Msgbuf.setConn (msgbuf : Msgbuf) (c : Fin maxConn) (conn : Conn) : Msgbuf :=
  { msgbuf with connections := Function.update msgbuf.connections c conn }

-- The connection that the search of _conn_free stops at: the last one where none matches.
def connSearch (msgbuf : Msgbuf) (recvId : Int) : Fin maxConn :=
  (Slots.first fun i => (msgbuf.connections i).id = recvId).getD 7

-- The receiver is used for a buffer with pages only, and then without a check for NULL.
def unmapReceiver (s : MsgSys) (conn : Conn) (receiver : Option Nat) (pages : Nat) : Except Halt Kernel :=
  if pages = 0 then .ok s.sys.kernel
  else
    match receiver with
    | none => .error .fault
    | some r => unmapConn (s.sys.table (s.reg.buf r).owner) conn.addr s.sys.kernel 0 pages

def connFree (s : MsgSys) (n : Nat) (recvId : Int) : Except Halt (KernErr × MsgSys) :=
  let msgbuf := s.reg.buf n
  let c := connSearch msgbuf recvId
  let conn := msgbuf.connections c
  match msgbufGet s.reg conn.id with
  | .error halt => .error halt
  | .ok receiver =>
    (unmapReceiver s conn receiver (memSizeToPages msgbuf.size).toNat).map fun k =>
      (.ok, ⟨s.sys.setKernel k, s.reg.setBuf n fun msgbuf => msgbuf.setConn c ⟨-1, 0⟩⟩)

def connGet (msgbuf : Msgbuf) (recvId : Int) : Option (Fin maxConn) :=
  Slots.first fun i => (msgbuf.connections i).id = recvId

-- The loop of msgbuf_close over the connections that remain.
def closeConns (n : Nat) : MsgSys → List (Fin maxConn) → Except Halt MsgSys
  | s, [] => .ok s
  | s, c :: rest =>
    if ((s.reg.buf n).connections c).id = -1 then closeConns n s rest
    else
      match connFree s n ((s.reg.buf n).connections c).id with
      | .error halt => .error halt
      | .ok (_, s) => closeConns n s rest

-- The loop of msgbuf_close over the pages that remain, from page `p` on.
def closePages (tranTable addr : Word) : Kernel → Nat → Nat → Except Halt (KernErr × Kernel)
  | k, _, 0 => .ok (.ok, k)
  | k, p, count + 1 =>
    let kaddr := memUserGetKaddr k.mem tranTable (pageAt addr p)
    match memKernelFreePage (memUserUnmapPage k tranTable (pageAt addr p)).2 kaddr with
    | .error halt => .error halt
    | .ok (.ok, k) => closePages tranTable addr k (p + 1) count
    | .ok (err, k) => .ok (err, k)

-- Whether message buffer `n` is owned by the current task.
def MsgSys.owns (s : MsgSys) (n : Nat) : Prop :=
  (s.sys.task (s.reg.buf n).owner).pid = s.sys.currentTask.pid

instance (s : MsgSys) (n : Nat) : Decidable (s.owns n) := inferInstanceAs (Decidable (_ = _))

def MsgSys.clearName (s : MsgSys) (n : Nat) : MsgSys :=
  { s with reg := s.reg.setBuf n fun msgbuf => { msgbuf with name := [] } }

def msgbufClose (s : MsgSys) (id : Int) : Except Halt (KernErr × MsgSys) :=
  match msgbufGet s.reg id with
  | .error halt => .error halt
  | .ok none => .ok (.msbFnd, s)
  | .ok (some n) =>
    if ¬ s.owns n then .ok (.msbFnd, s)
    else if (s.reg.buf n).addr = 0 then .ok (.ok, s.clearName n)
    else
      match closeConns n s (List.finRange maxConn) with
      | .error halt => .error halt
      | .ok s =>
        let msgbuf := s.reg.buf n
        match closePages (s.sys.table s.sys.current) msgbuf.addr s.sys.kernel 0
            (memSizeToPages msgbuf.size).toNat with
        | .error halt => .error halt
        | .ok (.ok, k) => .ok (.ok, { s with sys := s.sys.setKernel k }.clearName n)
        | .ok (err, k) => .ok (err, { s with sys := s.sys.setKernel k })

def connAlloc (msgbuf : Msgbuf) (recvId : Int) : Except KernErr (Fin maxConn) :=
  match Slots.first fun i => (msgbuf.connections i).id = recvId with
  | some _ => .error .msbCoe
  | none =>
    match Slots.first fun i => (msgbuf.connections i).id = -1 with
    | none => .error .msbCof
    | some c => .ok c

-- The loop of msgbuf_connect from page `i` on. Every page is looked up at the sender's first one.
def connectLoop (sendTable sendAddr recvTable recvBuf : Word) :
    Kernel → Nat → Nat → Except Halt (KernErr × Kernel)
  | k, _, 0 => .ok (.ok, k)
  | k, i, count + 1 =>
    let paddr := virtToPhys (memUserGetKaddr k.mem sendTable sendAddr)
    match memUserMapPage k recvTable (pageAt recvBuf i) paddr .rw .norm with
    | .error halt => .error halt
    | .ok (.ok, k) => connectLoop sendTable sendAddr recvTable recvBuf k (i + 1) count
    | .ok (err, k) =>
      .ok (err, (List.range i).foldl (fun k j => (memUserUnmapPage k recvTable (pageAt recvBuf j)).2) k)

def msgbufConnect (s : MsgSys) (id : Int) (name : List CChar) : Except Halt (MsgbufRId × MsgSys) :=
  match msgbufGet s.reg id with
  | .error halt => .error halt
  | .ok none => .ok (⟨-1, .msbFnd⟩, s)
  | .ok (some n) =>
    match msgbufGetId s.reg name with
    | .error halt => .error halt
    | .ok receiverId =>
      if receiverId = -1 then .ok (⟨-1, .msbFnd⟩, s)
      else
        match msgbufGet s.reg receiverId with
        | .error halt => .error halt
        | .ok none => .error (.panic "Message buffer ID does not correspond to any message buffer")
        | .ok (some r) =>
          match connAlloc (s.reg.buf n) receiverId with
          | .error err => .ok (⟨-1, err⟩, s)
          | .ok c =>
            let sendTable := s.sys.table (s.reg.buf n).owner
            let recvTable := s.sys.table (s.reg.buf r).owner
            let pageCnt := (memSizeToPages (s.reg.buf n).size).toNat
            match memUserFindEmpty s.sys.kernel.mem recvTable pageCnt findEmptyRounds 0x200000 with
            | none => .error .hang
            | some recvBuf =>
              if recvBuf = 0 then .ok (⟨-1, .memOom⟩, s)
              else
                match connectLoop sendTable (s.reg.buf n).addr recvTable recvBuf s.sys.kernel 0 pageCnt with
                | .error halt => .error halt
                | .ok (.ok, k) =>
                  .ok (⟨receiverId, .ok⟩, ⟨s.sys.setKernel k,
                    s.reg.setBuf n fun msgbuf => msgbuf.setConn c ⟨receiverId, recvBuf⟩⟩)
                | .ok (err, k) => .ok (⟨-1, err⟩, { s with sys := s.sys.setKernel k })

def msgbufDisconnect (s : MsgSys) (sendId recvId : Int) : Except Halt (KernErr × MsgSys) :=
  match msgbufGet s.reg sendId, msgbufGet s.reg recvId with
  | .ok (some n), .ok (some _) => if s.owns n then connFree s n recvId else .ok (.msbFnd, s)
  | .ok _, .ok _ => .ok (.msbFnd, s)
  | .error halt, _ => .error halt
  | _, .error halt => .error halt

end Anthill
