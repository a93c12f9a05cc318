import Anthill.ClientLib
import Anthill.Message
import Anthill.Stdio
import Anthill.VnodeDir

set_option autoImplicit false

namespace Anthill

open Bytes (Counted)

namespace VfsServer

def einvalid : Counted 16 Byte := ⟨chars "Invalid message", einvalid_short⟩

def enoclient : Counted 16 Byte := ⟨chars "Failed to find client", by decide⟩

def eserver : Counted 16 Byte := ⟨chars "Server failed", by decide⟩

def enofid : Counted 16 Byte := ⟨chars "Unknown fid", by decide⟩

end VfsServer

/-- A message that a server has received. With it come what mq_open returns for a name, and the addresses that calloc
returns for a client and for its fid. -/
structure Received where
  msg : Message
  mqId : Int
  mqOpen : List Byte → Int
  client : Nat
  pair : Nat

/-- What is sent for a message, and the queue it is sent to. Some messages are not answered. -/
abbrev Answer := Option (Message × Int)

def Received.answer (r : Received) (msg : Message) : Answer := msg.put.map fun msg => (msg, r.mqId)

def Received.error (r : Received) (ename : Counted 16 Byte) : Answer := r.answer ((r.msg.to .rerror).set .ename ename)

theorem Received.answer_some {r : Received} {msg reply : Message} {mq : Int} (is : r.answer msg = some (reply, mq)) :
    reply = msg ∧ mq = r.mqId := by
  obtain ⟨put, done, same⟩ := Option.map_eq_some_iff.mp is
  obtain ⟨rfl, rfl⟩ := Prod.mk.inj same
  rw [Message.put] at done
  split at done
  · exact ⟨(Option.some.inj done).symm, rfl⟩
  · cases done

/-- An answer under the tag of the message and to its queue, of the type that answers it or an Rerror. -/
structure Received.Replies (r : Received) (reply : Message) (mq : Int) : Prop where
  tag : reply.tag = r.msg.tag
  queue : mq = r.mqId
  type : reply.type = .rerror ∨ reply.type.code = r.msg.type.code + 1

/-- What else the VFS meets outside of its memory while it handles a message: the address that calloc returns for the fid
of a client's standard output, the drivers, whether a channel takes the Tattach of a mount and whether an Rattach is read
back from it, and what vnode_forward leaves in the buffer, if it does not fail and if that can be parsed. The search for a
path takes at most `fuel` iterations. -/
structure Request extends Received where
  stdout : Nat
  drivers : Drivers
  fuel : Nat
  written : Vnode → Bool
  attached : Vnode → BitVec 64 → Bool
  forward : Vnode → Message → Option (Option (Message × Int))

-- The clients as libvfs or its table keeps them.
structure VfsServer (σ : Type) where
  clients : σ
  tree : VnodeTree

/-- Where the vnodes lie in memory. -/
structure Placement where
  addr : VnodeId → Nat
  vnode : Nat → VnodeId
  vnode_addr : ∀ v, vnode (addr v) = v
  nonnull : ∀ v, addr v ≠ 0

/-- vnode_attach. The answer is read under the fid of the vnode that the mount is below. It has no result where that is
NULL. -/
def vnodeAttach (r : Request) (t : VnodeTree) (channel mount : VnodeId) : Option (Bool × VnodeTree) :=
  let t := t.update mount fun x => { x with channelNode := some channel }
  if r.written (t.node channel) then
    (t.node mount).mountNode.map fun above =>
      if r.attached (t.node channel) (t.node above).qid.id then (true, t.update mount fun x => { x with mountNode := none })
      else (false, t)
  else some (false, t)

/-- How _attach begins in every server: with the client of the queue that uname names. It has no result where the name
fills `client_name`, whose end is behind it then. -/
def attachClient {σ : Type} (lib : ClientLib σ) (r : Received) (s : σ) : Option (Option Nat × σ) :=
  let uname := (r.msg.value .uname).1
  if uname.length = 0 then some (none, s)
  else if 32 < uname.length then some (none, s)
  else if uname.length = 32 then none
  else (lib.create (r.mqOpen uname) r.client s).map fun (client, s) => (if client = 0 then none else some client, s)

section Handlers

variable {σ : Type} (lib : ClientLib σ) (p : Placement) (r : Request)

namespace VfsServer

-- How all the handlers but _attach begin.
def withClient (s : VfsServer σ) (next : Nat → Option (Answer × VfsServer σ)) : Option (Answer × VfsServer σ) :=
  (lib.get r.mqId s.clients).bind fun client => if client = 0 then some (r.error enoclient, s) else next client

def withVnode (s : VfsServer σ) (client : Nat) (next : VnodeId → Option (Answer × VfsServer σ)) :
    Option (Answer × VfsServer σ) :=
  (lib.fidGet client (r.msg.value .fid) s.clients).bind fun vnode =>
    if vnode = 0 then some (r.error enofid, s) else next (p.vnode vnode)

-- What a handler that calls vnode_forward answers.
def forward (tree : VnodeTree) (vnode : VnodeId) : Answer :=
  match r.forward (tree.node vnode) r.msg with
  | none => r.error eserver
  | some answer => answer

-- What is answered from a vnode's children.
def readDir (tree : VnodeTree) (vnode : VnodeId) : Option Answer :=
  match entries : vnodeReadDir tree vnode (r.msg.value .offset) (r.msg.value .count) with
  | none => none
  | some data =>
    some (if data.length = 0 then r.error eserver
      else
        r.answer ((r.msg.to .rread).set .data ⟨data, Nat.lt_of_le_of_lt (vnodeReadDir_length entries)
          (r.msg.value .count).isLt⟩))

def attach (s : VfsServer σ) : Option (Answer × VfsServer σ) :=
  (attachClient lib r.toReceived s.clients).bind fun (client, clients) =>
    let s := { s with clients := clients }
    match client with
    | none => some (none, s)
    | some client =>
      if (r.msg.value .aname).1.length = 0 ∨ r.msg.value .fid = nofid then some (r.error einvalid, s)
      else
        (lib.fidAdd client (r.msg.value .fid) (p.addr []) r.pair s.clients).bind fun (pair, clients) =>
          let s := { s with clients := clients }
          let rattach := r.answer ((r.msg.to .rattach).set .qid (s.tree.node []).qid)
          if pair = 0 then some (r.error enoclient, s)
          else if r.msg.value .fid = 0 then
            -- "uart" is looked for in what may be NULL.
            (vnodeFindChild s.tree [] (.of (chars "dev"))).bind fun dev =>
              let uart := ((vnodeFindChild s.tree dev (.of (chars "uart"))).map p.addr).getD 0
              (lib.fidAdd client (r.msg.value .fid + 1) uart r.stdout s.clients).map fun (pair, clients) =>
                let s := { s with clients := clients }
                if pair = 0 then (r.error enoclient, s) else (rattach, s)
          else some (rattach, s)

def clunk (s : VfsServer σ) : Option (Answer × VfsServer σ) :=
  withClient lib r s fun client =>
    if r.msg.value .fid = nofid then some (r.error einvalid, s)
    else
      (lib.fidRemove client (r.msg.value .fid) s.clients).map fun (err, clients) =>
        let s := { s with clients := clients }
        if err ≠ 0 then (r.error enofid, s) else (r.answer (r.msg.to .rclunk), s)

-- Of the fields of the new vnode channel_node is not set.
def create (s : VfsServer σ) : Option (Answer × VfsServer σ) :=
  withClient lib r s fun client =>
    if r.msg.value .fid = nofid ∨ (r.msg.value .perm).getLsbD 31 = false then some (r.error einvalid, s)
    else
      withVnode lib p r s client fun parent =>
        match vnodeAddChild r.drivers s.tree parent with
        | none => some (r.error eserver, s)
        | some (child, tree) =>
          (pstrdup r.drivers child (.of (r.msg.value .name).1)).bind fun name =>
            let qid : Qid := ⟨r.msg.value .perm, 0, tree.idCount.setWidth 64⟩
            let tree := { tree.update child fun x => ⟨some name, qid, none, x.channelNode, 0, -1⟩ with
              idCount := tree.idCount + 1 }
            (lib.fidUpdate client (r.msg.value .fid) (p.addr child) s.clients).map fun (_, clients) =>
              (r.answer (((r.msg.to .rcreate).set .qid qid).set .iounit (BitVec.ofNat 32 vfsMaxIounit)),
                ⟨clients, tree⟩)

def mount (s : VfsServer σ) : Option (Answer × VfsServer σ) :=
  withClient lib r s fun client =>
    if r.msg.value .fid = nofid ∨ r.msg.value .mfid = nofid then some (r.error einvalid, s)
    else
      (lib.fidGet client (r.msg.value .fid) s.clients).bind fun channel =>
        (lib.fidGet client (r.msg.value .mfid) s.clients).bind fun mount =>
          if channel = 0 ∨ mount = 0 then some (r.error enofid, s)
          else
            (vnodeAttach r s.tree (p.vnode channel) (p.vnode mount)).map fun (attached, tree) =>
              let s := { s with tree := tree }
              if attached then (r.answer ((r.msg.to .rmount).set .qid (tree.node (p.vnode mount)).qid), s)
              else (r.error eserver, s)

def open_ (s : VfsServer σ) : Option (Answer × VfsServer σ) :=
  withClient lib r s fun client =>
    if r.msg.value .fid = nofid then some (r.error einvalid, s)
    else
      withVnode lib p r s client fun vnode =>
        some (r.answer (((r.msg.to .ropen).set .qid (s.tree.node vnode).qid).set .iounit
          (BitVec.ofNat 32 vfsMaxIounit)), s)

def read (s : VfsServer σ) : Option (Answer × VfsServer σ) :=
  withClient lib r s fun client =>
    withVnode lib p r s client fun vnode =>
      if (s.tree.node vnode).mqId = -1 ∧ (s.tree.node vnode).channelNode = none then
        (readDir r s.tree vnode).map fun answer => (answer, s)
      else some (forward r s.tree vnode, s)

def stat (s : VfsServer σ) : Option (Answer × VfsServer σ) :=
  withClient lib r s fun client =>
    withVnode lib p r s client fun vnode => some (forward r s.tree vnode, s)

def walk (s : VfsServer σ) : Option (Answer × VfsServer σ) :=
  withClient lib r s fun client =>
    if r.msg.value .fid = nofid ∨ r.msg.value .newfid = nofid then some (r.error einvalid, s)
    else
      let wname := r.msg.value .wname
      (vnodeScan r.drivers (wname.1.map fun name => .of name.1) r.fuel s.tree).bind fun scanned =>
        let s := { s with tree := scanned.tree }
        let rwalk := r.answer ((r.msg.to .rwalk).set .wqid ⟨(scanned.wqid.take scanned.count).take wname.1.length,
          Nat.lt_of_le_of_lt (List.length_take_le _ _) wname.2⟩)
        match scanned.node with
        | some node =>
          if scanned.count = wname.1.length then
            (lib.fidAdd client (r.msg.value .newfid) (p.addr node) r.pair s.clients).map fun (pair, clients) =>
              let s := { s with clients := clients }
              if pair = 0 then (r.error enoclient, s) else (rwalk, s)
          else some (rwalk, s)
        | none => some (rwalk, s)

def write (s : VfsServer σ) : Option (Answer × VfsServer σ) :=
  withClient lib r s fun client =>
    if r.msg.value .fid = nofid then some (r.error einvalid, s)
    else withVnode lib p r s client fun vnode => some (forward r s.tree vnode, s)

/-- What is done for a message that has been parsed. -/
def handleMessage (s : VfsServer σ) : Option (Answer × VfsServer σ) :=
  match r.msg.type with
  | .tattach => attach lib p r s
  | .tclunk => clunk lib r s
  | .tcreate => create lib p r s
  | .tmount => mount lib p r s
  | .topen => open_ lib p r s
  | .tread => read lib p r s
  | .tstat => stat lib p r s
  | .twalk => walk lib p r s
  | .twrite => write lib p r s
  | _ => some (none, s)

end VfsServer

end Handlers

end Anthill
