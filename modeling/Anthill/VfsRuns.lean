import Anthill.VfsSessions
import Anthill.VnodeStays
import Mathlib.Logic.Equiv.List

set_option autoImplicit false

namespace Anthill

namespace VfsServer

/-- The fids of the clients stand for vnodes that are there, or for NULL. -/
def Known (p : Placement) (s : VfsServer Table) : Prop := ∀ c fid obj, s.clients.objs c fid = some obj →
  obj = 0 ∨ ∃ v, s.tree.Present v ∧ p.addr v = obj

/-- What a message can do: vnodes are not taken away, and no other client's fids change. -/
structure Moves (p : Placement) (r : Request) (s s' : VfsServer Table) : Prop where
  stays : s.tree.Stays s'.tree
  live : ∀ c, c ∈ s.clients.live → c ∈ s'.clients.live
  clients : ∀ mq, s.clients.client mq ≠ 0 → s'.clients.client mq = s.clients.client mq
  objs : ∀ c fid obj, s'.clients.objs c fid = some obj →
    s.clients.objs c fid = some obj ∨ obj = 0 ∨ ∃ v, s'.tree.Present v ∧ p.addr v = obj
  others : ∀ c, c ≠ s.clients.client r.mqId → c ≠ r.client → s'.clients.objs c = s.clients.objs c

section Moves

variable {p : Placement} {r : Request} {s s' : VfsServer Table}

theorem Moves.refl (s : VfsServer Table) : Moves p r s s :=
  ⟨.refl _, fun _ live => live, fun _ _ => rfl, fun _ _ _ is => .inl is, fun _ _ _ => rfl⟩

-- Only the vnodes change.
theorem Moves.of_tree {tree : VnodeTree} (stays : s.tree.Stays tree) : Moves p r s ⟨s.clients, tree⟩ :=
  ⟨stays, fun _ live => live, fun _ _ => rfl, fun _ _ _ is => .inl is, fun _ _ _ => rfl⟩

-- The client that the message comes from gets or loses a fid.
theorem Moves.of_set {tree : VnodeTree} (stays : s.tree.Stays tree) (fid : BitVec 32) (obj : Option Nat)
    (known : ∀ o, obj = some o → o = 0 ∨ ∃ v, tree.Present v ∧ p.addr v = o) :
    Moves p r s ⟨s.clients.set (s.clients.client r.mqId) fid obj, tree⟩ where
  stays := stays
  live _ live := live
  clients _ _ := rfl
  objs _ _ _ is := (Table.set_objs_cases is).imp id (known _)
  others _ other _ := Table.set_objs_other other

theorem Moves.known (moves : Moves p r s s') (known : Known p s) : Known p s' := by
  intro c fid obj is
  rcases moves.objs c fid obj is with old | new
  · exact (known c fid obj old).imp id (Exists.imp fun v => And.imp_left (moves.stays.present v))
  · exact new

theorem withClient_some {f : Nat → Option (Answer × VfsServer Table)} {x : Answer × VfsServer Table}
    (done : withClient clientTable r s f = some x) : x.2 = s ∨ f (s.clients.client r.mqId) = some x := by
  have found : clientTable.get r.mqId s.clients = some (s.clients.client r.mqId) := rfl
  rw [withClient, found, Option.bind_some] at done
  split at done
  · exact .inl (congrArg Prod.snd (Option.some.inj done)).symm
  · exact .inr done

theorem withVnode_some {client : Nat} {f : VnodeId → Option (Answer × VfsServer Table)} {x : Answer × VfsServer Table}
    (known : Known p s) (done : withVnode clientTable p r s client f = some x) :
    x.2 = s ∨ ∃ v, s.tree.Present v ∧ f v = some x := by
  have found : clientTable.fidGet client (r.msg.value .fid) s.clients =
    some (s.clients.obj client (r.msg.value .fid)) := rfl
  rw [withVnode, found, Option.bind_some] at done
  split at done
  · exact .inl (congrArg Prod.snd (Option.some.inj done)).symm
  · next some_ =>
    rw [Table.obj] at some_ done
    cases is : s.clients.objs client (r.msg.value .fid) with
    | none =>
      rw [is] at some_
      exact absurd rfl some_
    | some obj =>
      rw [is] at some_ done
      obtain ⟨v, present, at_⟩ := (known _ _ _ is).resolve_left some_
      rw [Option.getD_some, ← at_, p.vnode_addr] at done
      exact .inr ⟨v, present, done⟩

-- The end of the handlers that answer with an error if a fid cannot be added.
theorem added_some {t : Table} {tree : VnodeTree} {client addr obj : Nat} {fid : BitVec 32} {done₁ done₂ : Answer}
    {x : Answer × VfsServer Table}
    (done : ((clientTable.fidAdd client fid obj addr t).map fun (pair, t') =>
      if pair = 0 then (done₁, (⟨t', tree⟩ : VfsServer Table)) else (done₂, ⟨t', tree⟩)) = some x) :
    addr = 0 ∧ x = (done₁, ⟨t, tree⟩) ∨ addr ≠ 0 ∧ x = (done₂, ⟨t.set client fid (some obj), tree⟩) := by
  rw [clientTable, Option.map_some] at done
  obtain rfl := Option.some.inj done
  by_cases null : addr = 0
  · simp [null]
  · simp [null]

theorem attach_moves {x : Answer × VfsServer Table} (done : attach clientTable p r s = some x) : Moves p r s x.2 := by
  rw [attach] at done
  obtain ⟨⟨client, clients⟩, made, done⟩ := Option.bind_eq_some_iff.mp done
  have start : clients = s.clients ∧ client = none ∨ clients = s.clients.insert r.client (r.mqOpen (r.msg.value .uname).1) ∧
      client = some r.client := by
    simp only [attachClient, clientTable] at made
    split at made
    · obtain ⟨rfl, rfl⟩ := Prod.mk.inj (Option.some.inj made)
      exact .inl ⟨rfl, rfl⟩
    split at made
    · obtain ⟨rfl, rfl⟩ := Prod.mk.inj (Option.some.inj made)
      exact .inl ⟨rfl, rfl⟩
    split at made
    · cases made
    rw [Option.map_some] at made
    split at made
    · obtain ⟨rfl, rfl⟩ := Prod.mk.inj (Option.some.inj made)
      exact .inl ⟨rfl, if_pos rfl⟩
    · next some_ =>
      obtain ⟨rfl, rfl⟩ := Prod.mk.inj (Option.some.inj made)
      exact .inr ⟨rfl, if_neg (not_or.mp some_).1⟩
  rcases start with ⟨rfl, rfl⟩ | ⟨rfl, rfl⟩
  · obtain rfl := Option.some.inj done
    exact .refl s
  · -- The new client has no fids, and gets up to two.
    have inserted (t' : Table) (live : t'.clients = (s.clients.insert r.client (r.mqOpen (r.msg.value .uname).1)).clients)
        (objs : ∀ c fid obj, t'.objs c fid = some obj →
          (s.clients.insert r.client (r.mqOpen (r.msg.value .uname).1)).objs c fid = some obj ∨
            obj = 0 ∨ ∃ v, s.tree.Present v ∧ p.addr v = obj)
        (others : ∀ c, c ≠ r.client →
          t'.objs c = (s.clients.insert r.client (r.mqOpen (r.msg.value .uname).1)).objs c) :
        Moves p r s ⟨t', s.tree⟩ := by
      refine ⟨.refl _, fun c member => ?_, fun mq some_ => ?_, fun c fid obj is => ?_, fun c _ other => ?_⟩
      · rw [Table.live, live, Table.insert, List.map_append]
        exact List.mem_append_left _ member
      · simp only [Table.client, live]
        exact Table.insert_client some_
      · refine (objs c fid obj is).imp (fun old => ?_) id
        rw [Table.insert_objs] at old
        by_cases new : c = r.client
        · rw [new, Function.update_self] at old
          cases old
        · rwa [Function.update_of_ne new] at old
      · rw [others c other, Table.insert_objs, Function.update_of_ne other]
    simp only at done
    split at done
    · obtain rfl := Option.some.inj done
      exact inserted _ rfl (fun _ _ _ is => .inl is) fun _ _ => rfl
    obtain ⟨⟨pair, clients⟩, added, done⟩ := Option.bind_eq_some_iff.mp done
    have root (obj : Nat) (is : some (p.addr []) = some obj) : obj = 0 ∨ ∃ v, s.tree.Present v ∧ p.addr v = obj :=
      .inr ⟨[], trivial, Option.some.inj is⟩
    have one : clients = s.clients.insert r.client (r.mqOpen (r.msg.value .uname).1) ∨
        clients = (s.clients.insert r.client (r.mqOpen (r.msg.value .uname).1)).set r.client (r.msg.value .fid)
          (some (p.addr [])) := by
      rw [clientTable] at added
      simp only [Option.some.injEq] at added
      split at added
      · exact .inl (Prod.mk.inj added).2.symm
      · exact .inr (Prod.mk.inj added).2.symm
    have first : Moves p r s ⟨clients, s.tree⟩ := by
      rcases one with rfl | rfl
      · exact inserted _ rfl (fun _ _ _ is => .inl is) fun _ _ => rfl
      · exact inserted _ rfl (fun _ _ _ is => (Table.set_objs_cases is).imp id (root _))
          fun _ other => Table.set_objs_other other
    split at done
    · obtain rfl := Option.some.inj done
      exact first
    split at done
    · obtain ⟨dev, found, done⟩ := Option.bind_eq_some_iff.mp done
      have uart (obj : Nat)
          (is : some (((vnodeFindChild s.tree dev (.of (chars "uart"))).map p.addr).getD 0) = some obj) :
          obj = 0 ∨ ∃ v, s.tree.Present v ∧ p.addr v = obj := by
        obtain rfl := Option.some.inj is
        cases there : vnodeFindChild s.tree dev (.of (chars "uart")) with
        | none => exact .inl rfl
        | some v => exact .inr ⟨v, vnodeFindChild_present (vnodeFindChild_present (v := []) trivial found) there, rfl⟩
      rcases added_some done with ⟨-, rfl⟩ | ⟨-, rfl⟩
      · exact first
      · show Moves p r s ⟨_, s.tree⟩
        refine ⟨.refl _, first.live, first.clients, fun c fid obj got => ?_, fun c caller other => ?_⟩
        · rcases Table.set_objs_cases got with old | new
          · exact first.objs c fid obj old
          · exact .inr (uart obj new)
        · exact (Table.set_objs_other other).trans (first.others c caller other)
    · obtain rfl := Option.some.inj done
      exact first

theorem clunk_moves {x : Answer × VfsServer Table} (done : clunk clientTable r s = some x) : Moves p r s x.2 := by
  rcases withClient_some done with is | done
  · rw [is]
    exact .refl s
  split at done
  · obtain rfl := Option.some.inj done
    exact .refl s
  obtain ⟨⟨err, clients⟩, removed, rfl⟩ := Option.map_eq_some_iff.mp done
  rw [clientTable] at removed
  simp only [ClientCall.spec, Option.some.injEq] at removed
  have moves : Moves p r s ⟨clients, s.tree⟩ := by
    split at removed
    · obtain ⟨-, rfl⟩ := Prod.mk.inj removed
      exact .of_set (.refl _) _ none fun o is => by cases is
    · obtain ⟨-, rfl⟩ := Prod.mk.inj removed
      exact .refl s
  simp only
  split
  · exact moves
  · exact moves

theorem create_moves {x : Answer × VfsServer Table} (known : Known p s)
    (done : create clientTable p r s = some x) : Moves p r s x.2 := by
  rcases withClient_some done with is | done
  · rw [is]
    exact .refl s
  split at done
  · obtain rfl := Option.some.inj done
    exact .refl s
  rcases withVnode_some known done with is | ⟨parent, present, done⟩
  · rw [is]
    exact .refl s
  simp only at done
  split at done
  · obtain rfl := Option.some.inj done
    exact .refl s
  · next child tree made =>
    obtain ⟨name, -, done⟩ := Option.bind_eq_some_iff.mp done
    obtain ⟨⟨err, clients⟩, updated, rfl⟩ := Option.map_eq_some_iff.mp done
    obtain ⟨stays, there⟩ := VnodeTree.stays_add made fun x => ⟨some name,
      ⟨r.msg.value .perm, 0, tree.idCount.setWidth 64⟩, none, x.channelNode, 0, -1⟩
    have counted (t : VnodeTree) (n : BitVec 32) : t.Stays { t with idCount := n } :=
      .of_nodes (fun _ _ => Nat.le_refl _) fun _ _ => rfl
    have stays := stays.trans (counted _ (tree.idCount + 1))
    have there := (counted _ (tree.idCount + 1)).present _ (there present)
    rw [clientTable] at updated
    simp only [ClientCall.spec, Option.some.injEq] at updated
    split at updated
    · obtain ⟨-, rfl⟩ := Prod.mk.inj updated
      refine .of_set stays _ _ fun o is => .inr ⟨child, there, Option.some.inj is⟩
    · obtain ⟨-, rfl⟩ := Prod.mk.inj updated
      exact .of_tree stays

theorem vnodeAttach_stays {t t' : VnodeTree} {channel mount : VnodeId} {attached : Bool}
    (done : vnodeAttach r t channel mount = some (attached, t')) : t.Stays t' := by
  have first : t.Stays (t.update mount fun x => { x with channelNode := some channel }) :=
    VnodeTree.stays_update t mount (Nat.le_refl _) rfl
  rw [vnodeAttach] at done
  split at done
  · obtain ⟨above, -, is⟩ := Option.map_eq_some_iff.mp done
    split at is
    · obtain ⟨-, rfl⟩ := Prod.mk.inj is
      exact first.trans (VnodeTree.stays_update _ mount (Nat.le_refl _) rfl)
    · obtain ⟨-, rfl⟩ := Prod.mk.inj is
      exact first
  · obtain ⟨-, rfl⟩ := Prod.mk.inj (Option.some.inj done)
    exact first

theorem mount_moves {x : Answer × VfsServer Table} (done : mount clientTable p r s = some x) : Moves p r s x.2 := by
  rcases withClient_some done with is | done
  · rw [is]
    exact .refl s
  split at done
  · obtain rfl := Option.some.inj done
    exact .refl s
  obtain ⟨channel, -, done⟩ := Option.bind_eq_some_iff.mp done
  obtain ⟨mount, -, done⟩ := Option.bind_eq_some_iff.mp done
  split at done
  · obtain rfl := Option.some.inj done
    exact .refl s
  · obtain ⟨⟨attached, tree⟩, tried, rfl⟩ := Option.map_eq_some_iff.mp done
    have moves : Moves p r s ⟨s.clients, tree⟩ := .of_tree (vnodeAttach_stays tried)
    simp only
    split
    · exact moves
    · exact moves

theorem walk_moves {x : Answer × VfsServer Table} (done : walk clientTable p r s = some x) : Moves p r s x.2 := by
  rcases withClient_some done with is | done
  · rw [is]
    exact .refl s
  split at done
  · obtain rfl := Option.some.inj done
    exact .refl s
  obtain ⟨scanned, searched, done⟩ := Option.bind_eq_some_iff.mp done
  obtain ⟨stays, found⟩ := vnodeScan_stays searched
  have unchanged : Moves p r s ⟨s.clients, scanned.tree⟩ := .of_tree stays
  simp only at done
  split at done
  · next node is =>
    split at done
    · rcases added_some done with ⟨-, rfl⟩ | ⟨-, rfl⟩
      · exact unchanged
      · exact .of_set stays _ _ fun o is' => .inr ⟨node, found node is, Option.some.inj is'⟩
    · obtain rfl := Option.some.inj done
      exact unchanged
  · obtain rfl := Option.some.inj done
    exact unchanged

-- The handlers that look for a vnode and change nothing.

theorem withClient_keeps {f : Nat → Option (Answer × VfsServer Table)} {x : Answer × VfsServer Table}
    (keeps : f (s.clients.client r.mqId) = some x → x.2 = s) (done : withClient clientTable r s f = some x) : x.2 = s :=
  (withClient_some done).elim id keeps

theorem withVnode_keeps {client : Nat} {f : VnodeId → Option (Answer × VfsServer Table)} {x : Answer × VfsServer Table}
    (keeps : ∀ v, f v = some x → x.2 = s) (done : withVnode clientTable p r s client f = some x) : x.2 = s := by
  obtain ⟨vnode, -, done⟩ := Option.bind_eq_some_iff.mp done
  split at done
  · exact (congrArg Prod.snd (Option.some.inj done)).symm
  · exact keeps _ done

theorem answered_keeps {answer : Answer} {x : Answer × VfsServer Table} (done : some (answer, s) = some x) : x.2 = s :=
  (congrArg Prod.snd (Option.some.inj done)).symm

theorem open_keeps {x : Answer × VfsServer Table} (done : open_ clientTable p r s = some x) : x.2 = s := by
  refine withClient_keeps (fun done => ?_) done
  split at done
  · exact answered_keeps done
  · exact withVnode_keeps (fun _ done => answered_keeps done) done

theorem read_keeps {x : Answer × VfsServer Table} (done : read clientTable p r s = some x) : x.2 = s := by
  refine withClient_keeps (fun done => withVnode_keeps (fun vnode done => ?_) done) done
  split at done
  · obtain ⟨answer, -, is⟩ := Option.map_eq_some_iff.mp done
    exact answered_keeps (congrArg some is)
  · exact answered_keeps done

theorem stat_keeps {x : Answer × VfsServer Table} (done : stat clientTable p r s = some x) : x.2 = s :=
  withClient_keeps (fun done => withVnode_keeps (fun _ done => answered_keeps done) done) done

theorem write_keeps {x : Answer × VfsServer Table} (done : write clientTable p r s = some x) : x.2 = s := by
  refine withClient_keeps (fun done => ?_) done
  split at done
  · exact answered_keeps done
  · exact withVnode_keeps (fun _ done => answered_keeps done) done

theorem handleMessage_moves {x : Answer × VfsServer Table} (known : Known p s)
    (done : handleMessage clientTable p r s = some x) : Moves p r s x.2 := by
  have kept (is : x.2 = s) : Moves p r s x.2 := by
    rw [is]
    exact .refl s
  rw [handleMessage] at done
  split at done
  · exact attach_moves done
  · exact clunk_moves done
  · exact create_moves known done
  · exact mount_moves done
  · exact kept (open_keeps done)
  · exact kept (read_keeps done)
  · exact kept (stat_keeps done)
  · exact walk_moves done
  · exact kept (write_keeps done)
  · exact kept (answered_keeps done)

end Moves

-- The server in memory, and beside it the one with the table.
def Step (p : Placement) (s : VfsServer Vfs × VfsServer Table) (r : Request) (s' : VfsServer Vfs × VfsServer Table) :
    Prop :=
  ∃ answer answer', handleMessage libvfs p r s.1 = some (answer, s'.1) ∧
    handleMessage clientTable p r s.2 = some (answer', s'.2)

abbrev Fine (s : VfsServer Vfs × VfsServer Table) (r : Request) : Prop := Fits s.1.clients s.2.clients r

def booted (tree : VnodeTree) : VfsServer Vfs × VfsServer Table := (⟨noClients.1, tree⟩, ⟨noClients.2, tree⟩)

-- The Tattach of the process whose queue is `mq`, with its root under the fid 2.
def attaching (mq : Int) (client pair stdout : Nat) : Request where
  msg := ((((⟨.tattach, 1, Field.blank⟩ : Message).set .fid 2).set .afid nofid).set .uname
    ⟨chars "vfs/7", vfs7_short⟩).set .aname ⟨chars "/", slash_short⟩
  mqId := mq
  mqOpen _ := mq
  client := client
  pair := pair
  stdout := stdout
  drivers := firstOnly
  fuel := 8
  written _ := false
  attached _ _ := false
  forward _ _ := none

def encoded : Placement where
  addr v := Encodable.encode v + 1
  vnode n := (Encodable.decode (n - 1)).getD []
  vnode_addr v := by rw [Nat.add_sub_cancel, Encodable.encodek, Option.getD_some]
  nonnull v := Nat.succ_ne_zero _

-- The state after a message, when it is handled.
def after (s : VfsServer Vfs × VfsServer Table) (r : Request) : VfsServer Vfs × VfsServer Table :=
  ((handleMessage libvfs encoded r s.1).elim s.1 Prod.snd, (handleMessage clientTable encoded r s.2).elim s.2 Prod.snd)

def oneServed : VfsServer Vfs × VfsServer Table := after (booted (bootTree 1)) (attaching 5 16 32 48)

def twoServed : VfsServer Vfs × VfsServer Table := after oneServed (attaching 6 64 80 96)

theorem first_fine : Fine (booted (bootTree 1)) (attaching 5 16 32 48) where
  callocs addr _ := (Nat.eq_zero_or_pos addr).imp id fun positive => ⟨positive.ne', rfl, rfl⟩
  apart := by decide
  walk is := absurd is (by decide)
  clunk is := absurd is (by decide)

theorem oneServed_run : Run (Step encoded) Fine (booted (bootTree 1)) oneServed :=
  .next _ _ _ .start first_fine ⟨_, _, rfl, rfl⟩

theorem second_fine : Fine oneServed (attaching 6 64 80 96) where
  callocs addr member := by
    have is : addr = 64 ∨ addr = 80 ∨ addr = 96 := by simpa [attaching] using member
    rcases is with rfl | rfl | rfl <;> exact .inr ⟨by decide, rfl, rfl⟩
  apart := by decide
  walk is := absurd is (by decide)
  clunk is := absurd is (by decide)

/-- What holds between the messages. -/
structure Serving (p : Placement) (s : VfsServer Vfs × VfsServer Table) : Prop where
  tree : s.1.tree = s.2.tree
  clients : Tabled s.1.clients s.2.clients
  known : Known p s.2

section Runs

variable {p : Placement} {tree : VnodeTree} {s s' : VfsServer Vfs × VfsServer Table} {r : Request}

theorem booted_serving (p : Placement) (tree : VnodeTree) : Serving p (booted tree) :=
  ⟨rfl, noClients_tabled, fun _ _ _ is => by cases is⟩

theorem Serving.alike (serving : Serving p s) (fine : Fine s r) :
    Alike (handleMessage libvfs p r s.1) (handleMessage clientTable p r s.2) := by
  obtain ⟨⟨h, tree⟩, ⟨t, tree'⟩⟩ := s
  obtain rfl : tree = tree' := serving.tree
  exact handleMessage_alike p tree serving.clients fine

theorem Serving.step (serving : Serving p s) (fine : Fine s r) (step : Step p s r s') :
    Serving p s' ∧ Moves p r s.2 s'.2 := by
  obtain ⟨answer, answer', done, done'⟩ := step
  have alike := serving.alike fine
  rw [done, done'] at alike
  have alike := Option.rel_some_some.mp alike
  have moves := handleMessage_moves serving.known done'
  exact ⟨⟨alike.tree, alike.clients, moves.known serving.known⟩, moves⟩

theorem Serving.of_run (run : Run (Step p) Fine (booted tree) s) : Serving p s :=
  run.invariant (Serving p) (booted_serving p tree) fun _ _ _ serving fine step => (serving.step fine step).1

theorem Serving.refines (serving : Serving p s) (fine : Fine s r) :
    (handleMessage libvfs p r s.1).map (fun x => (x.1, x.2.tree)) =
      (handleMessage clientTable p r s.2).map fun x => (x.1, x.2.tree) := by
  have alike := serving.alike fine
  cases first : handleMessage libvfs p r s.1 <;> cases second : handleMessage clientTable p r s.2 <;>
    rw [first, second] at alike
  · rfl
  · cases alike
  · cases alike
  · have alike := Option.rel_some_some.mp alike
    rw [Option.map_some, Option.map_some, alike.answer, alike.tree]

theorem Serving.found (serving : Serving p s) {mq : Int} {c : Nat} (found : vfsClientGet mq s.1.clients = some c)
    (some_ : c ≠ 0) : s.2.clients.client mq = c ∧ c ∈ s.2.clients.live := by
  have is : some c = some (s.2.clients.client mq) := found.symm.trans (serving.clients.get mq)
  obtain rfl := Option.some.inj is
  exact ⟨rfl, Table.client_live some_⟩

theorem Serving.fid (serving : Serving p s) {c : Nat} (live : c ∈ s.2.clients.live) (fid : BitVec 32) :
    vfsClientFidGet c fid s.1.clients = some (s.2.clients.obj c fid) := serving.clients.fidGet live fid

-- What others do changes nothing for a client.
structure Undisturbed (c : Nat) (s s' : VfsServer Vfs × VfsServer Table) : Prop where
  live : c ∈ s'.2.clients.live
  objs : s'.2.clients.objs c = s.2.clients.objs c
  stays : s.2.tree.Stays s'.2.tree

theorem Undisturbed.of_run {c : Nat} (serving : Serving p s) (live : c ∈ s.2.clients.live)
    (run : Run (Step p) (fun s r => Fine s r ∧ vfsClientGet r.mqId s.1.clients ≠ some c) s s') :
    Serving p s' ∧ Undisturbed c s s' := by
  refine run.invariant (fun s' => Serving p s' ∧ Undisturbed c s s') ⟨serving, live, rfl, .refl _⟩ ?_
  rintro mid r next ⟨serving, undisturbed⟩ ⟨fine, other⟩ step
  obtain ⟨serving', moves⟩ := serving.step fine step
  have caller : c ≠ mid.2.clients.client r.mqId := by
    rintro rfl
    exact other (serving.clients.get r.mqId)
  have new : c ≠ r.client := by
    rintro rfl
    exact serving.clients.fresh_live (fine.callocs _ (by simp)) undisturbed.live
  exact ⟨serving', moves.live c undisturbed.live, (moves.others c caller new).trans undisturbed.objs,
    undisturbed.stays.trans moves.stays⟩

end Runs

end VfsServer

end Anthill
