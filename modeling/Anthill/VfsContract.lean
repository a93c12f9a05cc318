import Anthill.FileContract
import Anthill.VfsAnswers
import Anthill.VfsFirst
import Anthill.VfsInit

set_option autoImplicit false

namespace Anthill

-- What the table has for the process whose queue is `mq`.
def Table.fids (t : Table) (mq : Int) : FidView := if t.client mq = 0 then none else some (t.objs (t.client mq))

section Table

variable {t : Table} {c : Nat} {mq mq' : Int} {fid : BitVec 32} {obj : Option Nat}

theorem Table.fids_set_self (some_ : t.client mq ≠ 0) : (t.set (t.client mq) fid obj).fids mq = (t.fids mq).set fid obj := by
  rw [Table.fids, Table.fids, Table.set_client, if_neg some_, if_neg some_, Table.set_objs, Function.update_self]
  rfl

theorem Table.fids_set_other (other : t.client mq ≠ c) : (t.set c fid obj).fids mq = t.fids mq := by
  rw [Table.fids, Table.fids, Table.set_client, Table.set_objs_other other]

theorem Table.fids_free : (t.fids mq).Free fid ↔ (t.client mq ≠ 0 → t.objs (t.client mq) fid = none) := by
  rw [Table.fids]
  split
  · next none_ => exact ⟨fun _ some_ => absurd none_ some_, fun _ objs is => by cases is⟩
  · next some_ =>
    refine ⟨fun free _ => free _ rfl, fun free objs is => ?_⟩
    obtain rfl := Option.some.inj is
    exact free some_

theorem Table.fids_knows : (t.fids mq).Knows fid ↔ t.client mq ≠ 0 ∧ t.obj (t.client mq) fid ≠ 0 := by
  rw [Table.fids, Table.obj]
  constructor
  · rintro ⟨objs, obj, is, there, some_⟩
    split at is
    · cases is
    · next client =>
      obtain rfl := Option.some.inj is
      rw [there]
      exact ⟨client, some_⟩
  · rintro ⟨client, some_⟩
    rw [if_neg client]
    cases there : t.objs (t.client mq) fid with
    | none =>
      rw [there] at some_
      exact absurd rfl some_
    | some obj =>
      rw [there] at some_
      exact ⟨_, obj, rfl, there, some_⟩

theorem Table.insert_fids (other : mq' ≠ mq) (fresh : c ∉ t.live) : (t.insert c mq).fids mq' = t.fids mq' := by
  rw [Table.fids, Table.fids, Table.insert_client_other other]
  split
  · rfl
  · next some_ =>
    rw [Table.insert_objs, Function.update_of_ne]
    rintro rfl
    exact fresh (Table.client_live some_)

end Table

section Same

variable {a b : Message} {v v' : FidView} {answer : Answer} {reply : Option Message}

theorem Message.Same.allows (same : a.Same b) (allowed : vfsContract.allows v b) : vfsContract.allows v a := by
  obtain ⟨type, tag, value⟩ := a
  obtain ⟨type', tag', value'⟩ := b
  obtain rfl : type = type' := same.type
  have values : ∀ ds, type.fields = some ds → ∀ d, d ∈ ds → value d = value' d := same.values
  cases type <;> simp only [vfsContract] at allowed ⊢
  case tattach =>
    have values := values _ rfl
    rw [values .fid (by simp), values .uname (by simp), values .aname (by simp)]
    exact allowed
  case twalk => rw [values _ rfl .newfid (by simp)]; exact allowed
  case tclunk => rw [values _ rfl .fid (by simp)]; exact allowed

theorem Message.Same.effect (same : a.Same b)
    (done : vfsContract.effect v a (answer.map Prod.fst) v')
    (got : Option.Rel (fun reply sent => reply.Same sent.1) reply answer) : vfsContract.effect v b reply v' := by
  obtain ⟨type, tag, value⟩ := a
  obtain ⟨type', tag', value'⟩ := b
  obtain rfl : type = type' := same.type
  have values : ∀ ds, type.fields = some ds → ∀ d, d ∈ ds → value d = value' d := same.values
  have replied {P : FcallType → Prop} (all : ∀ reply : Message, answer.map Prod.fst = some reply → P reply.type)
      (got' : Message) (is : reply = some got') : P got'.type := by
    subst is
    cases got with
    | @some _ sent same => exact same.type ▸ all sent.1 rfl
  cases type <;> simp only [vfsContract] at done ⊢
  all_goals first | exact done | skip
  case tattach => exact replied (P := fun type => type = .rattach ∧ _ ∨ type ≠ .rattach ∧ _) done
  case twalk =>
    have values := values _ rfl
    rw [values .newfid (by simp)] at done
    exact done.imp id (And.imp_right fun all => replied (P := fun type => type = .rwalk) all)
  case topen =>
    have values := values _ rfl
    rw [values .fid (by simp)] at done
    exact ⟨done.1, replied (P := fun type => type = .ropen ↔ _) done.2⟩
  case tclunk =>
    rw [values _ rfl .fid (by simp)] at done
    exact done

theorem vfsContract_still (attach : a.type ≠ .tattach) (open_ : a.type ≠ .topen) : vfsContract.effect v a reply v := by
  simp only [vfsContract]
  split
  · next type => exact absurd type attach
  · exact .inl trivial
  · exact .inl trivial
  · next type => exact absurd type open_
  · trivial

end Same

namespace VfsServer

/-- What the server meets for a message of the process whose queue is `i`: the name of the process is that of its queue,
vnode_forward puts back the queue of what it passes on, and calloc does not fail for a new client. -/
structure Offers (s : VfsServer Vfs) (i : Nat) (r : Request) : Prop where
  mqId : r.mqId = i
  mqOpen : r.mqOpen (r.msg.value .uname).1 = i
  forward : ∀ v msg reply mq, r.forward v msg = some (some (reply, mq)) → mq = i
  callocs : ∀ addr, addr ∈ [r.client, r.pair, r.stdout] → s.clients.Callocs addr
  apart : [r.client, r.pair, r.stdout].Pairwise fun a b => b = 0 ∨ b ≠ a
  attach : r.msg.type = .tattach → r.client ≠ 0 ∧ r.pair ≠ 0 ∧ r.stdout ≠ 0

/-- The server as its processes see it. It parses what they send, and they parse what it answers. -/
def vfsServe (p : Placement) : Rpc.Serve Nat Message Message (VfsServer Vfs × VfsServer Table) := fun i msg s reply s' =>
  ∃ r answer answer', r.msg.Same msg ∧ Offers s.1 i r ∧ handleMessage libvfs p r s.1 = some (answer, s'.1) ∧
    handleMessage clientTable p r s.2 = some (answer', s'.2) ∧
    Option.Rel (fun reply sent => reply.Same sent.1) reply answer

/-- What holds between the messages where the processes keep to the contract. -/
structure Orderly (p : Placement) (s : VfsServer Vfs × VfsServer Table) : Prop where
  serving : Serving p s
  first : ∀ c, c ∈ s.2.clients.live → s.1.clients.Begins c 0

theorem booted_orderly (p : Placement) (tree : VnodeTree) : Orderly p (booted tree) :=
  ⟨booted_serving p tree, fun _ member => absurd member List.not_mem_nil⟩

section Changes

variable {p : Placement} {r : Request} {t t' : Table}

/-- The table changes for a message's own client. -/
theorem Changes.table (changes : Changes clientTable p r t t') (legal : r.msg.type ≠ .tcreate) :
    t' = t ∨ t.client r.mqId ≠ 0 ∧
      ((∃ v, r.msg.type = .twalk ∧ t' = t.set (t.client r.mqId) (r.msg.value .newfid) (some (p.addr v))) ∨
        r.msg.type = .tclunk ∧ t' = t.set (t.client r.mqId) (r.msg.value .fid) Option.none) := by
  have called {client : Nat} (caller : Caller clientTable r t client) : client = t.client r.mqId ∧ t.client r.mqId ≠ 0 := by
    have is : t.client r.mqId = client := Option.some.inj caller.got
    exact ⟨is.symm, is ▸ caller.some_⟩
  cases changes with
  | none same => exact .inl same
  | fidAdd type client addr caller v made =>
    obtain ⟨rfl, some_⟩ := called caller
    simp only [clientTable, Option.some.injEq] at made
    split at made
    · exact .inl (Prod.mk.inj made).2.symm
    · exact .inr ⟨some_, .inl ⟨v, type, (Prod.mk.inj made).2.symm⟩⟩
  | fidUpdate type => exact absurd type legal
  | fidRemove type client caller err made =>
    obtain ⟨rfl, some_⟩ := called caller
    simp only [clientTable, ClientCall.spec, Option.some.injEq] at made
    split at made
    · exact .inr ⟨some_, .inr ⟨type, (Prod.mk.inj made).2.symm⟩⟩
    · exact .inl (Prod.mk.inj made).2.symm

theorem libvfs_create_addr {h h' : Vfs} {mq : Int} {addr client : Nat} (made : libvfs.create mq addr h = some (client, h'))
    (opened : mq ≠ -1) : client = addr := by
  have made : (if addr = 0 then some (0, h) else vfsClientCreate mq addr h) = some (client, h') := made
  split at made
  · next null => exact (Prod.mk.inj (Option.some.inj made)).1.symm.trans null.symm
  · rw [vfsClientCreate, if_neg opened] at made
    simp only at made
    split at made
    · exact (Prod.mk.inj (Option.some.inj made)).1.symm
    · obtain ⟨lastClient, -, made⟩ := Option.bind_eq_some_iff.mp made
      obtain ⟨m, -, is⟩ := Option.map_eq_some_iff.mp made
      exact (Prod.mk.inj is).1.symm

theorem libvfs_fidAdd_addr {h h' : Vfs} {client obj addr pair : Nat} {fid : BitVec 32}
    (made : libvfs.fidAdd client fid obj addr h = some (pair, h')) : pair = addr := by
  have made : (if addr = 0 then some (0, h) else vfsClientFidAdd client fid obj addr h) = some (pair, h') := made
  split at made
  · next null => exact (Prod.mk.inj (Option.some.inj made)).1.symm.trans null.symm
  · obtain ⟨node, -, made⟩ := Option.bind_eq_some_iff.mp made
    simp only at made
    split at made
    · obtain ⟨m, -, is⟩ := Option.map_eq_some_iff.mp made
      exact (Prod.mk.inj is).1.symm
    · obtain ⟨prevPair, -, made⟩ := Option.bind_eq_some_iff.mp made
      obtain ⟨m, -, is⟩ := Option.map_eq_some_iff.mp made
      exact (Prod.mk.inj is).1.symm

end Changes

section Attach

variable {p : Placement} {r : Request} {i : Nat} {s : VfsServer Vfs × VfsServer Table} {v : FidView}

/-- The Tattach of a process that is no client yet. -/
structure Attaching (s : VfsServer Vfs × VfsServer Table) (i : Nat) (r : Request) : Prop where
  offers : Offers s.1 i r
  new : NewClient r
  first : s.2.clients.client i = 0

theorem attaching_of (offers : Offers s.1 i r) (type : r.msg.type = .tattach)
    (allowed : vfsContract.allows (s.2.clients.fids i) r.msg) : Attaching s i r := by
  rw [vfsContract] at allowed
  simp only [type] at allowed
  obtain ⟨first, fid, named, short, aname⟩ := allowed
  have opened : r.mqOpen (r.msg.value .uname).1 ≠ -1 := by
    rw [offers.mqOpen]
    omega
  refine ⟨offers, ⟨type, fid, ⟨named, short⟩, aname, opened, offers.attach type⟩, ?_⟩
  by_contra some_
  rw [Table.fids, if_neg some_] at first
  cases first

theorem Attaching.table {x : Answer × VfsServer Table} (attaching : Attaching s i r)
    (done : attach clientTable p r s.2 = some x) : ∃ uart, x.2.clients = withNew p r uart s.2.clients ∧
      ∀ reply mq, x.1 = some (reply, mq) → reply.type = .rattach := by
  rw [attaching.new.attach] at done
  obtain ⟨dev, -, rfl⟩ := Option.map_eq_some_iff.mp done
  refine ⟨_, rfl, fun reply mq is => ?_⟩
  simp only at is
  obtain ⟨rfl, -⟩ := Received.answer_some is
  rfl

/-- The other fids of a new client are free, and those of the other clients stay. -/
theorem Attaching.view (attaching : Attaching s i r) (serving : Serving p s) (uart : Nat) :
    let t' := withNew p r uart s.2.clients
    (∃ objs, t'.fids i = some objs ∧ ∀ fid : BitVec 32, 2 ≤ fid.toNat → objs fid = none) ∧
      (∀ j : Nat, j ≠ i → t'.fids j = s.2.clients.fids j) ∧
      ∀ c, c ∈ t'.live → c ∈ s.2.clients.live ∨ c = r.client := by
  obtain ⟨client, -⟩ := attaching.new.memory
  have fresh : r.client ∉ s.2.clients.live := serving.clients.fresh_live (attaching.offers.callocs _ (by simp))
  have self : (s.2.clients.insert r.client i).client i = r.client :=
    Table.insert_client_self attaching.first serving.clients.nonnull
  rw [withNew, attaching.offers.mqOpen]
  refine ⟨⟨_, by rw [Table.fids, Table.set_client, Table.set_client, self, if_neg client], fun fid large => ?_⟩,
    fun j other => ?_, fun c live => ?_⟩
  · have zero : fid ≠ 0 := by
      rintro rfl
      cases large
    have one : fid ≠ 1 := by
      rintro rfl
      exact absurd large (by decide)
    rw [Table.set_objs, Function.update_self, Function.update_of_ne one, Table.set_objs, Function.update_self,
      Function.update_of_ne zero, Table.insert_objs, Function.update_self]
  · have other : ((j : Nat) : Int) ≠ i := fun same => other (Int.ofNat.inj same)
    have apart : (s.2.clients.insert r.client i).client j ≠ r.client := by
      rw [Table.insert_client_other other]
      rintro same
      exact fresh (same ▸ Table.client_live (same.symm ▸ client))
    calc _ = ((s.2.clients.insert r.client i).set r.client 0 (some (p.addr []))).fids j := Table.fids_set_other apart
      _ = (s.2.clients.insert r.client i).fids j := Table.fids_set_other apart
      _ = s.2.clients.fids j := Table.insert_fids other fresh
  · have live : c ∈ (s.2.clients.insert r.client i).live := live
    rw [Table.live, Table.insert, List.map_append] at live
    exact (List.mem_append.mp live).imp id List.mem_singleton.mp

/-- The fids of a new client begin with that of its root. -/
theorem Attaching.starts {h' : Vfs} (attaching : Attaching s i r) (attaches : Attaches libvfs p r s.1.clients h') :
    h'.Begins r.client 0 := by
  obtain ⟨client_, pair_, -⟩ := attaching.new.memory
  obtain ⟨named, short⟩ := attaching.new.uname
  have opened := attaching.new.opened
  cases attaches with
  | refused bad => exact (bad.elim named fun long => by omega).elim
  | created client bad made =>
    rcases bad with null | empty | nofid_
    · exact absurd ((libvfs_create_addr made opened).symm.trans null) client_
    · exact absurd empty attaching.new.aname
    · cases attaching.new.fid.symm.trans nofid_
  | root client pair mid bad made some_ added =>
    rcases bad with null | other
    · exact absurd ((libvfs_fidAdd_addr added).symm.trans null) pair_
    · exact absurd attaching.new.fid other
  | stdout client pair out obj mid mid' first made some_ added there second =>
    obtain rfl := libvfs_create_addr made opened
    obtain ⟨-, node, at_, empty⟩ := libvfs_create_node made some_
    have begins : mid'.Begins r.client 0 := attaching.new.fid ▸ libvfs_fidAdd_starts added pair_ at_ empty
    have apart := attaching.offers.apart
    simp only [List.pairwise_cons, List.mem_cons, List.not_mem_nil, or_false, forall_eq_or_imp, forall_eq] at apart
    obtain ⟨⟨-, stdoutClient⟩, stdoutPair, -⟩ := apart
    have callocs := attaching.offers.callocs r.stdout (by simp)
    exact libvfs_fidAdd_begins second (libvfs_fidAdd_fresh added stdoutPair (libvfs_create_fresh made stdoutClient callocs))
      begins

end Attach

section Kept

variable {p : Placement} {r : Request} {i : Nat} {s s' : VfsServer Vfs × VfsServer Table} {answer answer' : Answer}

theorem Orderly.fits (orderly : Orderly p s) (offers : Offers s.1 i r)
    (allowed : vfsContract.allows (s.2.clients.fids i) r.msg) : Fine s r where
  callocs := offers.callocs
  apart := offers.apart
  walk type live := by
    rw [vfsContract] at allowed
    simp only [type, Table.fids_free] at allowed
    rw [offers.mqId] at live ⊢
    refine allowed ?_
    rintro none_
    exact orderly.serving.clients.nonnull (none_ ▸ live)
  clunk type live := by
    rw [vfsContract] at allowed
    simp only [type] at allowed
    rw [(orderly.first _ live).firstFid]
    exact fun same => allowed (Option.some.inj same).symm

/-- The answer to a Topen says whether the fid is known. -/
theorem open_answer {t : VfsServer Table} {x : Answer × VfsServer Table} (done : open_ clientTable p r t = some x)
    (reply : Message) (mq : Int) (is : x.1 = some (reply, mq)) : reply.type = .ropen ↔
      r.msg.value .fid ≠ nofid ∧ t.clients.client r.mqId ≠ 0 ∧ t.clients.obj (t.clients.client r.mqId) (r.msg.value .fid) ≠ 0 := by
  have failed {ename : Bytes.Counted 16 Byte} {bad : Prop} (done : some (r.error ename, t) = some x) (cause : ¬ bad) :
      reply.type = .ropen ↔ bad := by
    obtain rfl := Option.some.inj done
    obtain ⟨rfl, -⟩ := Received.answer_some (show r.toReceived.answer _ = some (reply, mq) from is)
    exact ⟨fun type => absurd (show FcallType.rerror = .ropen from type) (by decide), fun is => absurd is cause⟩
  have found : clientTable.get r.mqId t.clients = some (t.clients.client r.mqId) := rfl
  have got : clientTable.fidGet (t.clients.client r.mqId) (r.msg.value .fid) t.clients =
    some (t.clients.obj (t.clients.client r.mqId) (r.msg.value .fid)) := rfl
  rw [open_, withClient, found, Option.bind_some] at done
  split at done
  · next none_ => exact failed done fun known => known.2.1 none_
  split at done
  · next is => exact failed done fun known => known.1 is
  rw [withVnode, got, Option.bind_some] at done
  split at done
  · next none_ => exact failed done fun known => known.2.2 none_
  · next some_ known none_ =>
    obtain rfl := Option.some.inj done
    simp only at is
    obtain ⟨rfl, -⟩ := Received.answer_some is
    exact ⟨fun _ => ⟨known, some_, none_⟩, fun _ => rfl⟩

/-- A fid is added with an Rwalk only. -/
theorem walk_answer {t : VfsServer Table} {x : Answer × VfsServer Table} (done : walk clientTable p r t = some x) :
    x.2.clients = t.clients ∨ ∀ reply mq, x.1 = some (reply, mq) → reply.type = .rwalk := by
  rcases withClient_some done with is | done
  · exact .inl (by rw [is])
  split at done
  · exact .inl (by rw [← Option.some.inj done])
  obtain ⟨scanned, -, done⟩ := Option.bind_eq_some_iff.mp done
  simp only at done
  split at done
  · split at done
    · rcases added_some done with ⟨-, rfl⟩ | ⟨-, rfl⟩
      · exact .inl rfl
      · refine .inr fun reply mq is => ?_
        simp only at is
        obtain ⟨rfl, -⟩ := Received.answer_some is
        rfl
    · exact .inl (by rw [← Option.some.inj done])
  · exact .inl (by rw [← Option.some.inj done])

/-- What the contract says of a message holds of the table, for its own process and for the others. -/
theorem Orderly.table (orderly : Orderly p s) (offers : Offers s.1 i r)
    (allowed : vfsContract.allows (s.2.clients.fids i) r.msg)
    (done : handleMessage clientTable p r s.2 = some (answer, s'.2)) :
    vfsContract.effect (s.2.clients.fids i) r.msg (answer.map Prod.fst) (s'.2.clients.fids i) ∧
      (∀ j : Nat, j ≠ i → s'.2.clients.fids j = s.2.clients.fids j) ∧
      ∀ c, c ∈ s'.2.clients.live → c ∈ s.2.clients.live ∨ r.msg.type = .tattach ∧ c = r.client := by
  have nodup := orderly.serving.clients.nodup
  have nonnull := orderly.serving.clients.nonnull
  by_cases type : r.msg.type = .tattach
  · have attaching := attaching_of offers type allowed
    rw [handleMessage] at done
    simp only [type] at done
    obtain ⟨obj, clients, replied⟩ := attaching.table done
    obtain ⟨view, others, live⟩ := attaching.view orderly.serving obj
    rw [← clients] at view others live
    refine ⟨?_, others, fun c member => (live c member).imp id fun new => ⟨type, new⟩⟩
    simp only [vfsContract, type]
    rintro reply is
    obtain ⟨sent, done, rfl⟩ := Option.map_eq_some_iff.mp is
    exact .inl ⟨replied sent.1 sent.2 done, view⟩
  · have legal : r.msg.type ≠ .tcreate := by
      intro type
      rw [vfsContract] at allowed
      simp only [type] at allowed
    have other_ (j : Nat) (other : j ≠ i) (some_ : s.2.clients.client i ≠ 0) : s.2.clients.client j ≠ s.2.clients.client i :=
      fun same => other (Int.ofNat.inj (Table.client_inj nodup some_ same))
    have changed := (handleMessage_changes (p := p) type done).table legal
    rw [offers.mqId] at changed
    simp only at changed
    rcases changed with same | ⟨some_, ⟨v, walked, is⟩ | ⟨clunked, is⟩⟩
    · refine ⟨?_, fun j _ => by rw [same], fun c live => .inl (same ▸ live)⟩
      rw [same]
      by_cases opened : r.msg.type = .topen
      · simp only [handleMessage, opened] at done
        simp only [vfsContract, opened, true_and, Table.fids_knows]
        rintro reply sent
        obtain ⟨⟨reply, mq⟩, answered, rfl⟩ := Option.map_eq_some_iff.mp sent
        have told := open_answer done reply mq answered
        rwa [offers.mqId] at told
      · exact vfsContract_still type opened
    · refine ⟨?_, fun j other => ?_, fun c live => ?_⟩
      · simp only [handleMessage, walked] at done
        simp only [vfsContract, walked]
        rcases walk_answer done with same | replied
        · exact .inl (by rw [show s'.2.clients = s.2.clients from same])
        · refine .inr ⟨⟨p.addr v, p.nonnull v, by rw [is, Table.fids_set_self some_]⟩, fun reply sent => ?_⟩
          obtain ⟨answered, there, rfl⟩ := Option.map_eq_some_iff.mp sent
          exact replied answered.1 answered.2 there
      · rw [is, Table.fids_set_other (other_ j other some_)]
      · rw [is] at live
        exact .inl live
    · refine ⟨?_, fun j other => ?_, fun c live => ?_⟩
      · simp only [vfsContract, clunked]
        rw [is, Table.fids_set_self some_]
        exact .inr rfl
      · rw [is, Table.fids_set_other (other_ j other some_)]
      · rw [is] at live
        exact .inl live

theorem Orderly.next (orderly : Orderly p s) (offers : Offers s.1 i r)
    (allowed : vfsContract.allows (s.2.clients.fids i) r.msg) (done : handleMessage libvfs p r s.1 = some (answer, s'.1))
    (done' : handleMessage clientTable p r s.2 = some (answer', s'.2)) : Orderly p s' ∧ answer = answer' := by
  have fine := orderly.fits offers allowed
  have alike := orderly.serving.alike fine
  rw [done, done'] at alike
  have serving := (orderly.serving.step fine ⟨answer, answer', done, done'⟩).1
  refine ⟨⟨serving, fun c member => ?_⟩, (Option.rel_some_some.mp alike).answer⟩
  have live := (orderly.table offers allowed done').2.2 c member
  by_cases type : r.msg.type = .tattach
  · simp only [handleMessage, type] at done
    have attaches := attach_attaches done
    rcases live with old | ⟨-, rfl⟩
    · exact attaches.begins offers.callocs offers.apart (orderly.first c old)
    · exact (attaching_of offers type allowed).starts attaches
  · have old := live.resolve_right fun new => type new.1
    refine (handleMessage_changes (p := p) type done).begins (offers.callocs _ (by simp)) (fun clunked => ?_)
      (orderly.first c old)
    rw [vfsContract] at allowed
    simp only [clunked] at allowed
    exact allowed

/-- The server keeps the contract with each of its processes. -/
theorem vfsServe_kept (p : Placement) :
    vfsContract.Kept (vfsServe p) (Orderly p) fun (i : Nat) s => s.2.clients.fids i where
  keeps := by
    rintro i msg s reply s' orderly allowed ⟨r, answer, answer', same, offers, done, done', -⟩
    exact (orderly.next offers (same.allows allowed) done done').1
  own := by
    rintro i msg s reply s' orderly allowed ⟨r, answer, answer', same, offers, done, done', got⟩
    obtain rfl := (orderly.next offers (same.allows allowed) done done').2
    exact same.effect (orderly.table offers (same.allows allowed) done').1 got
  others := by
    rintro i msg s reply s' orderly allowed ⟨r, answer, answer', same, offers, done, done', -⟩
    exact (orderly.table offers (same.allows allowed) done').2.1

end Kept

end VfsServer

end Anthill
