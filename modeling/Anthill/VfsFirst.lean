import Anthill.VfsSessions

set_option autoImplicit false

namespace Anthill

open LinkedList

/-- The list of a client's fids begins with one of them. -/
def Vfs.Begins (h : Vfs) (c : Nat) (fid : BitVec 32) : Prop := ∃ node pair, h.clients c = some node ∧
  node.data.fids ≠ 0 ∧ h.pairs node.data.fids = some pair ∧ pair.data.fid = fid

theorem Vfs.Begins.firstFid {h : Vfs} {c : Nat} {fid : BitVec 32} (begins : h.Begins c fid) : h.firstFid c = some fid := by
  obtain ⟨node, pair, there, -, first, is⟩ := begins
  rw [Vfs.firstFid, there, Option.bind_some, first, Option.map_some, is]

section Nodes

variable {α : Type} {m m' : Nodes α} {p next : Nat} {node : LinkedList.Node α}

/-- A node keeps its data when a link changes. -/
theorem setNext_data (done : setNext m p next = some m') (b : Nat) (there : m b = some node) :
    ∃ node', m' b = some node' ∧ node'.data = node.data := by
  obtain ⟨old, here, rfl⟩ := Option.map_eq_some_iff.mp done
  by_cases same : b = p
  · subst same
    obtain rfl := Option.some.inj (here.symm.trans there)
    exact ⟨_, Function.update_self .., rfl⟩
  · exact ⟨node, (Function.update_of_ne same ..).trans there, rfl⟩

theorem setData_data {f : α → α} (done : setData m p f = some m') (b : Nat) (there : m b = some node) :
    ∃ node', m' b = some node' ∧ (b ≠ p ∧ node'.data = node.data ∨ b = p ∧ node'.data = f node.data) := by
  obtain ⟨old, here, rfl⟩ := Option.map_eq_some_iff.mp done
  by_cases same : b = p
  · subst same
    obtain rfl := Option.some.inj (here.symm.trans there)
    exact ⟨_, Function.update_self .., .inr ⟨rfl, rfl⟩⟩
  · exact ⟨node, (Function.update_of_ne same ..).trans there, .inl ⟨same, rfl⟩⟩

end Nodes

section Begins

variable {h h' : Vfs} {c : Nat} {first : BitVec 32}

theorem Vfs.Begins.congr (begins : h.Begins c first)
    (clients : ∀ node, h.clients c = some node → ∃ node', h'.clients c = some node' ∧ node'.data.fids = node.data.fids)
    (pairs : ∀ a node, h.pairs a = some node → node.data.fid = first →
      ∃ node', h'.pairs a = some node' ∧ node'.data.fid = node.data.fid) : h'.Begins c first := by
  obtain ⟨node, pair, there, some_, begin_, is⟩ := begins
  obtain ⟨node', there', same⟩ := clients node there
  obtain ⟨pair', begin', same'⟩ := pairs _ pair begin_ is
  exact ⟨node', pair', there', same ▸ some_, same ▸ begin', same'.trans is⟩

theorem Vfs.Begins.create {mq : Int} {addr r : Nat} (begins : h.Begins c first)
    (made : vfsClientCreate mq addr h = some (r, h')) (fresh : h.clients addr = none) : h'.Begins c first := by
  have kept (b : Nat) (node : LinkedList.Node ClientData) (there : h.clients b = some node) :
      Function.update h.clients addr (some ⟨⟨mq, 0⟩, 0⟩) b = some node := by
    refine (Function.update_of_ne ?_ ..).trans there
    rintro rfl
    cases fresh.symm.trans there
  simp only [vfsClientCreate] at made
  split at made
  · obtain ⟨-, rfl⟩ := Prod.mk.inj (Option.some.inj made)
    exact begins
  · split at made
    · obtain ⟨-, rfl⟩ := Prod.mk.inj (Option.some.inj made)
      exact begins.congr (fun node there => ⟨node, kept c node there, rfl⟩) fun _ node there _ => ⟨node, there, rfl⟩
    · obtain ⟨lastClient, -, made⟩ := Option.bind_eq_some_iff.mp made
      obtain ⟨m, linked, is⟩ := Option.map_eq_some_iff.mp made
      obtain ⟨-, rfl⟩ := Prod.mk.inj is
      refine begins.congr (fun node there => ?_) fun _ node there _ => ⟨node, there, rfl⟩
      obtain ⟨node', there', same⟩ := setNext_data linked c (kept c node there)
      exact ⟨node', there', congrArg ClientData.fids same⟩

/-- A fid is added behind the others. -/
theorem Vfs.Begins.fidAdd {client obj addr r : Nat} {fid : BitVec 32} (begins : h.Begins c first)
    (made : vfsClientFidAdd client fid obj addr h = some (r, h')) (fresh : h.pairs addr = none) : h'.Begins c first := by
  have kept (b : Nat) (node : LinkedList.Node FidData) (there : h.pairs b = some node) :
      Function.update h.pairs addr (some ⟨⟨fid, obj⟩, 0⟩) b = some node := by
    refine (Function.update_of_ne ?_ ..).trans there
    rintro rfl
    cases fresh.symm.trans there
  simp only [vfsClientFidAdd] at made
  obtain ⟨node, there, made⟩ := Option.bind_eq_some_iff.mp made
  split at made
  · next empty =>
    obtain ⟨m, set, is⟩ := Option.map_eq_some_iff.mp made
    obtain ⟨-, rfl⟩ := Prod.mk.inj is
    have other : c ≠ client := by
      rintro rfl
      obtain ⟨node', _, there', some_, -⟩ := begins
      obtain rfl := Option.some.inj (there.symm.trans there')
      exact some_ empty
    refine begins.congr (fun node there => ?_) fun a node there _ => ⟨node, kept a node there, rfl⟩
    obtain ⟨node', there', same⟩ := setData_data set c there
    rcases same with ⟨-, same⟩ | ⟨same, -⟩
    · exact ⟨node', there', congrArg ClientData.fids same⟩
    · exact absurd same other
  · obtain ⟨prevPair, -, made⟩ := Option.bind_eq_some_iff.mp made
    obtain ⟨m, linked, is⟩ := Option.map_eq_some_iff.mp made
    obtain ⟨-, rfl⟩ := Prod.mk.inj is
    refine begins.congr (fun node there => ⟨node, there, rfl⟩) fun a node there _ => ?_
    obtain ⟨node', there', same⟩ := setNext_data linked a (kept a node there)
    exact ⟨node', there', congrArg FidData.fid same⟩

/-- The first fid of a client begins its list. -/
theorem vfsClientFidAdd_begins {client obj addr r : Nat} {fid : BitVec 32} {node : LinkedList.Node ClientData}
    (made : vfsClientFidAdd client fid obj addr h = some (r, h')) (there : h.clients client = some node)
    (empty : node.data.fids = 0) (some_ : addr ≠ 0) : h'.Begins client fid := by
  simp only [vfsClientFidAdd, there, Option.bind_some, empty, if_true] at made
  obtain ⟨m, set, is⟩ := Option.map_eq_some_iff.mp made
  obtain ⟨-, rfl⟩ := Prod.mk.inj is
  obtain ⟨old, here, rfl⟩ := Option.map_eq_some_iff.mp set
  exact ⟨_, _, Function.update_self .., some_, Function.update_self .., rfl⟩

theorem Vfs.Begins.fidUpdate {client obj : Nat} {fid : BitVec 32} {r : Int} (begins : h.Begins c first)
    (made : vfsClientFidUpdate client fid obj h = some (r, h')) : h'.Begins c first := by
  obtain ⟨⟨pair, prevPair⟩, -, made⟩ := Option.bind_eq_some_iff.mp made
  simp only at made
  split at made
  · obtain ⟨-, rfl⟩ := Prod.mk.inj (Option.some.inj made)
    exact begins
  · obtain ⟨m, set, is⟩ := Option.map_eq_some_iff.mp made
    obtain ⟨-, rfl⟩ := Prod.mk.inj is
    refine begins.congr (fun node there => ⟨node, there, rfl⟩) fun a node there _ => ?_
    obtain ⟨node', there', same | same⟩ := setData_data set a there
    · exact ⟨node', there', congrArg FidData.fid same.2⟩
    · exact ⟨node', there', by rw [same.2]⟩

theorem find_hits {α : Type} {m : Nodes α} {hit : α → Bool} {fuel p prev q before : Nat}
    (found : find m hit fuel p prev = some (q, before)) (some_ : q ≠ 0) : ∃ node, m q = some node ∧ hit node.data := by
  induction fuel generalizing p prev with
  | zero => cases found
  | succ fuel ih =>
    rw [find] at found
    split at found
    · obtain ⟨rfl, -⟩ := Prod.mk.inj (Option.some.inj found)
      exact absurd rfl some_
    · obtain ⟨node, there, found⟩ := Option.bind_eq_some_iff.mp found
      split at found
      · next hits =>
        obtain ⟨rfl, -⟩ := Prod.mk.inj (Option.some.inj found)
        exact ⟨node, there, hits⟩
      · exact ih found

theorem Vfs.Begins.fidRemove {client : Nat} {fid : BitVec 32} {r : Int} (begins : h.Begins c first)
    (made : vfsClientFidRemove client fid h = some (r, h')) (other : fid ≠ first) : h'.Begins c first := by
  obtain ⟨⟨pair, prevPair⟩, found, made⟩ := Option.bind_eq_some_iff.mp made
  simp only at made
  split at made
  · obtain ⟨-, rfl⟩ := Prod.mk.inj (Option.some.inj made)
    exact begins
  · next some_ =>
    obtain ⟨_, -, made⟩ := Option.bind_eq_some_iff.mp made
    obtain ⟨m, linked, made⟩ := Option.bind_eq_some_iff.mp made
    obtain ⟨m', set, is⟩ := Option.map_eq_some_iff.mp made
    obtain ⟨-, rfl⟩ := Prod.mk.inj is
    obtain ⟨owner, -, found⟩ := Option.bind_eq_some_iff.mp found
    obtain ⟨removed, at_, hits⟩ := find_hits found some_
    refine begins.congr (fun node there => ⟨node, there, rfl⟩) fun a node there named => ?_
    have apart : a ≠ pair := by
      rintro rfl
      obtain rfl := Option.some.inj (at_.symm.trans there)
      exact other ((beq_iff_eq.mp hits).symm.trans named)
    obtain ⟨node₁, there₁, same₁⟩ := setNext_data linked a there
    obtain ⟨node₂, there₂, same₂⟩ := setData_data set a there₁
    rcases same₂ with ⟨-, same₂⟩ | ⟨same, -⟩
    · exact ⟨node₂, (Function.update_of_ne apart ..).trans there₂, congrArg FidData.fid (same₂.trans same₁)⟩
    · exact absurd same apart

end Begins

namespace VfsServer

section Clients

variable {σ : Type} {lib : ClientLib σ} {p : Placement} {r : Request} {s : VfsServer σ} {x : Answer × VfsServer σ}

-- The client that a message comes from.
structure Caller (lib : ClientLib σ) (r : Request) (s : σ) (client : Nat) : Prop where
  got : lib.get r.mqId s = some client
  some_ : client ≠ 0

theorem withClient_cases {next : Nat → Option (Answer × VfsServer σ)} (done : withClient lib r s next = some x) :
    x.2 = s ∨ ∃ client, Caller lib r s.clients client ∧ next client = some x := by
  obtain ⟨client, got, done⟩ := Option.bind_eq_some_iff.mp done
  split at done
  · exact .inl (congrArg Prod.snd (Option.some.inj done)).symm
  · next some_ => exact .inr ⟨client, ⟨got, some_⟩, done⟩

theorem withVnode_cases {client : Nat} {next : VnodeId → Option (Answer × VfsServer σ)}
    (done : withVnode lib p r s client next = some x) : x.2 = s ∨ ∃ vnode, next vnode = some x := by
  obtain ⟨vnode, -, done⟩ := Option.bind_eq_some_iff.mp done
  split at done
  · exact .inl (congrArg Prod.snd (Option.some.inj done)).symm
  · exact .inr ⟨_, done⟩

/-- A message but a Tattach calls the library once for a change at most. -/
inductive Changes (lib : ClientLib σ) (p : Placement) (r : Request) (s s' : σ) : Prop where
  | none (same : s' = s)
  | fidAdd (type : r.msg.type = .twalk) (client addr : Nat) (caller : Caller lib r s client) (node : VnodeId)
      (made : lib.fidAdd client (r.msg.value .newfid) (p.addr node) r.pair s = some (addr, s'))
  | fidUpdate (type : r.msg.type = .tcreate) (client obj : Nat) (err : Int)
      (made : lib.fidUpdate client (r.msg.value .fid) obj s = some (err, s'))
  | fidRemove (type : r.msg.type = .tclunk) (client : Nat) (caller : Caller lib r s client) (err : Int)
      (made : lib.fidRemove client (r.msg.value .fid) s = some (err, s'))

theorem Changes.of_eq (is : x.2 = s) : Changes lib p r s.clients x.2.clients := .none (by rw [is])

theorem Changes.of_done {answer : Answer} (done : some (answer, s) = some x) : Changes lib p r s.clients x.2.clients :=
  .of_eq (congrArg Prod.snd (Option.some.inj done)).symm

theorem clunk_changes (type : r.msg.type = .tclunk) (done : clunk lib r s = some x) :
    Changes lib p r s.clients x.2.clients := by
  rcases withClient_cases done with is | ⟨client, caller, done⟩
  · exact .of_eq is
  split at done
  · exact .of_done done
  · obtain ⟨⟨err, clients⟩, made, rfl⟩ := Option.map_eq_some_iff.mp done
    refine .fidRemove type client caller err ?_
    simp only
    split
    · exact made
    · exact made

theorem create_changes (type : r.msg.type = .tcreate) (done : create lib p r s = some x) :
    Changes lib p r s.clients x.2.clients := by
  rcases withClient_cases done with is | ⟨client, caller, done⟩
  · exact .of_eq is
  split at done
  · exact .of_done done
  rcases withVnode_cases done with is | ⟨parent, done⟩
  · exact .of_eq is
  simp only at done
  split at done
  · exact .of_done done
  · next child tree _ =>
    obtain ⟨name, -, done⟩ := Option.bind_eq_some_iff.mp done
    obtain ⟨⟨err, clients⟩, made, rfl⟩ := Option.map_eq_some_iff.mp done
    exact .fidUpdate type client _ err made

theorem mount_changes (done : mount lib p r s = some x) : x.2.clients = s.clients := by
  rcases withClient_cases done with is | ⟨client, caller, done⟩
  · rw [is]
  split at done
  · rw [← Option.some.inj done]
  obtain ⟨channel, -, done⟩ := Option.bind_eq_some_iff.mp done
  obtain ⟨mount, -, done⟩ := Option.bind_eq_some_iff.mp done
  split at done
  · rw [← Option.some.inj done]
  · obtain ⟨⟨attached, tree⟩, -, rfl⟩ := Option.map_eq_some_iff.mp done
    simp only
    split
    · rfl
    · rfl

theorem walk_changes (type : r.msg.type = .twalk) (done : walk lib p r s = some x) :
    Changes lib p r s.clients x.2.clients := by
  rcases withClient_cases done with is | ⟨client, caller, done⟩
  · exact .of_eq is
  split at done
  · exact .of_done done
  obtain ⟨scanned, -, done⟩ := Option.bind_eq_some_iff.mp done
  simp only at done
  split at done
  · next node _ =>
    split at done
    · obtain ⟨⟨pair, clients⟩, made, rfl⟩ := Option.map_eq_some_iff.mp done
      refine .fidAdd type client pair caller node ?_
      simp only
      split
      · exact made
      · exact made
    · rw [← Option.some.inj done]
      exact .none rfl
  · rw [← Option.some.inj done]
    exact .none rfl

theorem handleMessage_changes (other : r.msg.type ≠ .tattach) (done : handleMessage lib p r s = some x) :
    Changes lib p r s.clients x.2.clients := by
  rw [handleMessage] at done
  split at done
  · next type => exact absurd type other
  · next type => exact clunk_changes type done
  · next type => exact create_changes type done
  · exact .none (mount_changes done)
  · rcases withClient_cases done with is | ⟨client, caller, done⟩
    · exact .of_eq is
    split at done
    · exact .of_done done
    rcases withVnode_cases done with is | ⟨vnode, done⟩
    · exact .of_eq is
    · exact .of_done done
  · rcases withClient_cases done with is | ⟨client, caller, done⟩
    · exact .of_eq is
    rcases withVnode_cases done with is | ⟨vnode, done⟩
    · exact .of_eq is
    split at done
    · obtain ⟨answer, -, rfl⟩ := Option.map_eq_some_iff.mp done
      exact .none rfl
    · exact .of_done done
  · rcases withClient_cases done with is | ⟨client, caller, done⟩
    · exact .of_eq is
    rcases withVnode_cases done with is | ⟨vnode, done⟩
    · exact .of_eq is
    · exact .of_done done
  · next type => exact walk_changes type done
  · rcases withClient_cases done with is | ⟨client, caller, done⟩
    · exact .of_eq is
    split at done
    · exact .of_done done
    rcases withVnode_cases done with is | ⟨vnode, done⟩
    · exact .of_eq is
    · exact .of_done done
  · exact .of_done done

/-- What a Tattach calls the library for: a client, its root and its standard output. -/
inductive Attaches (lib : ClientLib σ) (p : Placement) (r : Request) (s s' : σ) : Prop where
  | refused (bad : (r.msg.value .uname).1 = [] ∨ 32 < (r.msg.value .uname).1.length) (same : s' = s)
  | created (client : Nat) (bad : client = 0 ∨ (r.msg.value .aname).1 = [] ∨ r.msg.value .fid = nofid)
      (made : lib.create (r.mqOpen (r.msg.value .uname).1) r.client s = some (client, s'))
  | root (client pair : Nat) (mid : σ) (bad : pair = 0 ∨ r.msg.value .fid ≠ 0)
      (made : lib.create (r.mqOpen (r.msg.value .uname).1) r.client s = some (client, mid)) (some_ : client ≠ 0)
      (added : lib.fidAdd client (r.msg.value .fid) (p.addr []) r.pair mid = some (pair, s'))
  | stdout (client pair out obj : Nat) (mid mid' : σ) (first : r.msg.value .fid = 0)
      (made : lib.create (r.mqOpen (r.msg.value .uname).1) r.client s = some (client, mid)) (some_ : client ≠ 0)
      (added : lib.fidAdd client (r.msg.value .fid) (p.addr []) r.pair mid = some (pair, mid')) (there : pair ≠ 0)
      (second : lib.fidAdd client (r.msg.value .fid + 1) obj r.stdout mid' = some (out, s'))

theorem attach_attaches (done : attach lib p r s = some x) : Attaches lib p r s.clients x.2.clients := by
  obtain ⟨⟨client, clients⟩, started, done⟩ := Option.bind_eq_some_iff.mp done
  simp only [attachClient] at started
  split at started
  · next none_ =>
    obtain ⟨rfl, rfl⟩ := Prod.mk.inj (Option.some.inj started)
    rw [← Option.some.inj done]
    exact .refused (.inl (List.length_eq_zero_iff.mp none_)) rfl
  split at started
  · next long =>
    obtain ⟨rfl, rfl⟩ := Prod.mk.inj (Option.some.inj started)
    rw [← Option.some.inj done]
    exact .refused (.inr long) rfl
  split at started
  · cases started
  obtain ⟨⟨made, clients'⟩, created, is⟩ := Option.map_eq_some_iff.mp started
  obtain ⟨rfl, rfl⟩ := Prod.mk.inj is
  by_cases none_ : made = 0
  · rw [if_pos none_] at done
    rw [← Option.some.inj done]
    exact .created made (.inl none_) created
  rw [if_neg none_] at done
  simp only at done
  split at done
  · next bad =>
    rw [← Option.some.inj done]
    exact .created made (.inr (bad.imp List.length_eq_zero_iff.mp id)) created
  obtain ⟨⟨pair, mid⟩, added, done⟩ := Option.bind_eq_some_iff.mp done
  simp only at done
  split at done
  · next null =>
    rw [← Option.some.inj done]
    exact .root made pair _ (.inl null) created none_ added
  · next there =>
    split at done
    · next first =>
      obtain ⟨dev, -, done⟩ := Option.bind_eq_some_iff.mp done
      obtain ⟨⟨out, last⟩, second, rfl⟩ := Option.map_eq_some_iff.mp done
      refine .stdout made pair out (((vnodeFindChild s.tree dev (.of (chars "uart"))).map p.addr).getD 0) clients' mid first
        created none_ added there ?_
      simp only
      split
      · exact second
      · exact second
    · next other =>
      rw [← Option.some.inj done]
      exact .root made pair _ (.inr other) created none_ added

end Clients

section First

variable {p : Placement} {r : Request} {h h' : Vfs} {tree : VnodeTree} {x : Answer × VfsServer Vfs} {c : Nat}
  {first : BitVec 32}

theorem libvfs_create_begins {mq : Int} {addr client : Nat} (made : libvfs.create mq addr h = some (client, h'))
    (callocs : h.Callocs addr) (begins : h.Begins c first) : h'.Begins c first := by
  have made : (if addr = 0 then some (0, h) else vfsClientCreate mq addr h) = some (client, h') := made
  split at made
  · obtain ⟨-, rfl⟩ := Prod.mk.inj (Option.some.inj made)
    exact begins
  · next some_ => exact begins.create made (callocs.resolve_left some_).2.2

theorem libvfs_fidAdd_begins {client obj addr pair : Nat} {fid : BitVec 32}
    (made : libvfs.fidAdd client fid obj addr h = some (pair, h')) (callocs : h.Callocs addr) (begins : h.Begins c first) :
    h'.Begins c first := by
  have made : (if addr = 0 then some (0, h) else vfsClientFidAdd client fid obj addr h) = some (pair, h') := made
  split at made
  · obtain ⟨-, rfl⟩ := Prod.mk.inj (Option.some.inj made)
    exact begins
  · next some_ => exact begins.fidAdd made (callocs.resolve_left some_).2.1

theorem Changes.begins (changes : Changes libvfs p r h h') (callocs : h.Callocs r.pair)
    (clunk : r.msg.type = .tclunk → r.msg.value .fid ≠ first) (begins : h.Begins c first) : h'.Begins c first := by
  cases changes with
  | none same => exact same ▸ begins
  | fidAdd _ client addr _ node made => exact libvfs_fidAdd_begins made callocs begins
  | fidUpdate _ client obj err made => exact begins.fidUpdate made
  | fidRemove type client _ err made => exact begins.fidRemove made (clunk type)

theorem libvfs_create_fresh {mq : Int} {addr client b : Nat} (made : libvfs.create mq addr h = some (client, h'))
    (other : b = 0 ∨ b ≠ addr) (callocs : h.Callocs b) : h'.Callocs b := by
  have made : (if addr = 0 then some (0, h) else vfsClientCreate mq addr h) = some (client, h') := made
  split at made
  · obtain ⟨-, rfl⟩ := Prod.mk.inj (Option.some.inj made)
    exact callocs
  · exact other.elim .inl fun other => callocs.imp id fun fresh => vfsClientCreate_fresh made other fresh

theorem libvfs_fidAdd_fresh {client obj addr pair b : Nat} {fid : BitVec 32}
    (made : libvfs.fidAdd client fid obj addr h = some (pair, h')) (other : b = 0 ∨ b ≠ addr) (callocs : h.Callocs b) :
    h'.Callocs b := by
  have made : (if addr = 0 then some (0, h) else vfsClientFidAdd client fid obj addr h) = some (pair, h') := made
  split at made
  · obtain ⟨-, rfl⟩ := Prod.mk.inj (Option.some.inj made)
    exact callocs
  · exact other.elim .inl fun other => callocs.imp id fun fresh => vfsClientFidAdd_fresh made other fresh

/-- After a Tattach every list of fids begins as it did, and that of a new client with the fid of its root. -/
theorem Attaches.begins (attaches : Attaches libvfs p r h h')
    (callocs : ∀ addr, addr ∈ [r.client, r.pair, r.stdout] → h.Callocs addr)
    (apart : [r.client, r.pair, r.stdout].Pairwise fun a b => b = 0 ∨ b ≠ a) (begins : h.Begins c first) :
    h'.Begins c first := by
  obtain ⟨client, pair, stdout⟩ : h.Callocs r.client ∧ h.Callocs r.pair ∧ h.Callocs r.stdout := by
    refine ⟨?_, ?_, ?_⟩ <;> exact callocs _ (by simp)
  simp only [List.pairwise_cons, List.mem_cons, List.not_mem_nil, or_false, forall_eq_or_imp, forall_eq] at apart
  obtain ⟨⟨pairClient, stdoutClient⟩, stdoutPair, -⟩ := apart
  cases attaches with
  | refused _ same => exact same ▸ begins
  | created _ _ made => exact libvfs_create_begins made client begins
  | root _ _ mid _ made _ added =>
    exact libvfs_fidAdd_begins added (libvfs_create_fresh made pairClient pair) (libvfs_create_begins made client begins)
  | stdout _ _ _ _ mid mid' _ made _ added _ second =>
    refine libvfs_fidAdd_begins second (libvfs_fidAdd_fresh added stdoutPair (libvfs_create_fresh made stdoutClient stdout)) ?_
    exact libvfs_fidAdd_begins added (libvfs_create_fresh made pairClient pair) (libvfs_create_begins made client begins)

theorem libvfs_create_node {mq : Int} {addr client : Nat} (made : libvfs.create mq addr h = some (client, h'))
    (some_ : client ≠ 0) : client = addr ∧ ∃ node, h'.clients client = some node ∧ node.data.fids = 0 := by
  have made : (if addr = 0 then some (0, h) else vfsClientCreate mq addr h) = some (client, h') := made
  split at made
  · obtain ⟨rfl, -⟩ := Prod.mk.inj (Option.some.inj made)
    exact absurd rfl some_
  · simp only [vfsClientCreate] at made
    split at made
    · obtain ⟨rfl, -⟩ := Prod.mk.inj (Option.some.inj made)
      exact absurd rfl some_
    · split at made
      · obtain ⟨rfl, rfl⟩ := Prod.mk.inj (Option.some.inj made)
        exact ⟨rfl, _, Function.update_self .., rfl⟩
      · obtain ⟨lastClient, -, made⟩ := Option.bind_eq_some_iff.mp made
        obtain ⟨m, linked, is⟩ := Option.map_eq_some_iff.mp made
        obtain ⟨rfl, rfl⟩ := Prod.mk.inj is
        obtain ⟨node, there, same⟩ := setNext_data linked addr (Function.update_self ..)
        exact ⟨rfl, node, there, congrArg ClientData.fids same⟩

theorem libvfs_fidAdd_starts {client obj addr pair : Nat} {fid : BitVec 32} {node : LinkedList.Node ClientData}
    (made : libvfs.fidAdd client fid obj addr h = some (pair, h')) (some_ : addr ≠ 0) (there : h.clients client = some node)
    (empty : node.data.fids = 0) : h'.Begins client fid := by
  have made : (if addr = 0 then some (0, h) else vfsClientFidAdd client fid obj addr h) = some (pair, h') := made
  rw [if_neg some_] at made
  exact vfsClientFidAdd_begins made there empty some_

end First

end VfsServer

end Anthill
