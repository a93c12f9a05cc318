import Anthill.VfsServer

set_option autoImplicit false

namespace Anthill

namespace VfsServer

/-- The same answer and vnodes, and the lists that the table stands for. -/
structure Same (x : Answer × VfsServer Vfs) (y : Answer × VfsServer Table) : Prop where
  answer : x.1 = y.1
  tree : x.2.tree = y.2.tree
  clients : Tabled x.2.clients y.2.clients

abbrev Alike : Option (Answer × VfsServer Vfs) → Option (Answer × VfsServer Table) → Prop := Option.Rel Same

/-- What a server can rely on: calloc returns NULL or memory that is not in use, the fid of a Twalk is a new one for its
client, and the first fid of a client is not removed. -/
structure Fits (h : Vfs) (t : Table) (r : Request) : Prop where
  callocs : ∀ addr, addr ∈ [r.client, r.pair, r.stdout] → h.Callocs addr
  apart : [r.client, r.pair, r.stdout].Pairwise fun a b => b = 0 ∨ b ≠ a
  walk : r.msg.type = .twalk → t.client r.mqId ∈ t.live → t.objs (t.client r.mqId) (r.msg.value .newfid) = none
  clunk : r.msg.type = .tclunk → t.client r.mqId ∈ t.live → h.firstFid (t.client r.mqId) ≠ some (r.msg.value .fid)

section Alike

variable {h : Vfs} {t : Table} {r : Request} (p : Placement) (tree : VnodeTree) (tabled : Tabled h t)

theorem Same.of (answer : Answer) {h : Vfs} {t : Table} (tree : VnodeTree) (tabled : Tabled h t) :
    Same (answer, ⟨h, tree⟩) (answer, ⟨t, tree⟩) := ⟨rfl, rfl, tabled⟩

include tabled

theorem withClient_alike {f : Nat → Option (Answer × VfsServer Vfs)} {g : Nat → Option (Answer × VfsServer Table)}
    (next : t.client r.mqId ∈ t.live → Alike (f (t.client r.mqId)) (g (t.client r.mqId))) :
    Alike (withClient libvfs r ⟨h, tree⟩ f) (withClient clientTable r ⟨t, tree⟩ g) := by
  have found : clientTable.get r.mqId t = some (t.client r.mqId) := rfl
  rw [withClient, withClient, tabled.get, found, Option.bind_some, Option.bind_some]
  split
  · exact .some (Same.of _ tree tabled)
  · next some_ => exact next (Table.client_live some_)

theorem withVnode_alike {c : Nat} (live : c ∈ t.live) {f : VnodeId → Option (Answer × VfsServer Vfs)}
    {g : VnodeId → Option (Answer × VfsServer Table)} (next : ∀ vnode, Alike (f vnode) (g vnode)) :
    Alike (withVnode libvfs p r ⟨h, tree⟩ c f) (withVnode clientTable p r ⟨t, tree⟩ c g) := by
  have found (fid : BitVec 32) : clientTable.fidGet c fid t = some (t.obj c fid) := rfl
  rw [withVnode, withVnode, tabled.fidGet live, found, Option.bind_some, Option.bind_some]
  split
  · exact .some (Same.of _ tree tabled)
  · exact next _

theorem fidAdd_alike {c : Nat} (live : c ∈ t.live) (fid : BitVec 32) (obj : Nat) {addr : Nat} (callocs : h.Callocs addr)
    (missing : t.objs c fid = none) (done : Answer) :
    Alike
      ((libvfs.fidAdd c fid obj addr h).map fun (pair, h') =>
        (if pair = 0 then (r.error enoclient, ⟨h', tree⟩) else (done, ⟨h', tree⟩)))
      ((clientTable.fidAdd c fid obj addr t).map fun (pair, t') =>
        (if pair = 0 then (r.error enoclient, ⟨t', tree⟩) else (done, ⟨t', tree⟩))) := by
  obtain ⟨h', t', pair, first, second, next, -, -⟩ := tabled.fidAdd live fid obj callocs missing
  rw [first, second, Option.map_some, Option.map_some]
  refine .some ?_
  simp only
  split
  · exact Same.of _ tree next
  · exact Same.of _ tree next

theorem attach_alike (fits : Fits h t r) :
    Alike (attach libvfs p r ⟨h, tree⟩) (attach clientTable p r ⟨t, tree⟩) := by
  obtain ⟨client, pair, stdout⟩ : h.Callocs r.client ∧ h.Callocs r.pair ∧ h.Callocs r.stdout := by
    refine ⟨?_, ?_, ?_⟩ <;> exact fits.callocs _ (by simp)
  have apart := fits.apart
  simp only [List.pairwise_cons, List.mem_cons, List.not_mem_nil, or_false, forall_eq_or_imp, forall_eq] at apart
  obtain ⟨⟨pairClient, stdoutClient⟩, stdoutPair, -⟩ := apart
  have keep {h h' : Vfs} {a b : Nat} (kept : ∀ b, b ≠ a → h.Callocs b → h'.Callocs b) (other : b = 0 ∨ b ≠ a)
      (callocs : h.Callocs b) : h'.Callocs b :=
    other.elim .inl fun other => kept b other callocs
  rw [attach, attach, attachClient, attachClient]
  simp only
  split
  · exact .some (Same.of _ tree tabled)
  split
  · exact .some (Same.of _ tree tabled)
  split
  · exact .none
  obtain ⟨h₁, t₁, c, first, second, next, made, kept₁⟩ := tabled.create (r.mqOpen (r.msg.value .uname).1) client
  rw [first, second, Option.map_some, Option.map_some, Option.bind_some, Option.bind_some]
  by_cases none_ : c = 0
  · simp only [none_, if_true]
    exact .some (Same.of _ tree next)
  simp only [none_, if_false]
  obtain ⟨rfl, live, fresh⟩ := made none_
  split
  · exact .some (Same.of _ tree next)
  obtain ⟨h₂, t₂, pair', first, second, next₂, added, kept₂⟩ :=
    next.fidAdd live (r.msg.value .fid) (p.addr []) (keep kept₁ pairClient pair) (by rw [fresh])
  rw [first, second, Option.bind_some, Option.bind_some]
  simp only
  split
  · exact .some (Same.of _ tree next₂)
  next some_ =>
  split
  · next zero =>
    cases found : vnodeFindChild tree [] (.of (chars "dev")) with
    | none => exact .none
    | some dev =>
      obtain rfl := added some_
      -- The fid of the standard output is another one.
      have other : (r.msg.value .fid + 1 : BitVec 32) ≠ r.msg.value .fid := by
        rw [zero]
        decide
      refine fidAdd_alike (r := r) tree next₂ live _ _ (keep kept₂ stdoutPair (keep kept₁ stdoutClient stdout)) ?_ _
      rw [Table.set_objs, Function.update_self, Function.update_of_ne other, fresh]
  · exact .some (Same.of _ tree next₂)

theorem clunk_alike (fits : Fits h t r) (type : r.msg.type = .tclunk) :
    Alike (clunk libvfs r ⟨h, tree⟩) (clunk clientTable r ⟨t, tree⟩) := by
  refine withClient_alike tree tabled fun live => ?_
  split
  · exact .some (Same.of _ tree tabled)
  · obtain ⟨h', t', err, first, second, next⟩ := tabled.fidRemove live (r.msg.value .fid) (fits.clunk type live)
    simp only [first, second, Option.map_some]
    refine .some ?_
    split
    · exact Same.of _ tree next
    · exact Same.of _ tree next

theorem create_alike : Alike (create libvfs p r ⟨h, tree⟩) (create clientTable p r ⟨t, tree⟩) := by
  refine withClient_alike tree tabled fun live => ?_
  split
  · exact .some (Same.of _ tree tabled)
  refine withVnode_alike p tree tabled live fun parent => ?_
  simp only
  cases vnodeAddChild r.drivers tree parent with
  | none => exact .some (Same.of _ tree tabled)
  | some made =>
    simp only
    cases pstrdup r.drivers made.1 (.of (r.msg.value .name).1) with
    | none => exact .none
    | some name =>
      obtain ⟨h', t', err, first, second, next⟩ := tabled.fidUpdate live (r.msg.value .fid) (p.addr made.1)
      simp only [Option.bind_some, first, second, Option.map_some]
      exact .some (Same.of _ _ next)

theorem mount_alike : Alike (mount libvfs p r ⟨h, tree⟩) (mount clientTable p r ⟨t, tree⟩) := by
  refine withClient_alike tree tabled fun live => ?_
  split
  · exact .some (Same.of _ tree tabled)
  have got (fid : BitVec 32) : clientTable.fidGet (t.client r.mqId) fid t = some (t.obj (t.client r.mqId) fid) := rfl
  simp only [tabled.fidGet live, got, Option.bind_some]
  split
  · exact .some (Same.of _ tree tabled)
  · cases vnodeAttach r tree (p.vnode (t.obj (t.client r.mqId) (r.msg.value .fid)))
      (p.vnode (t.obj (t.client r.mqId) (r.msg.value .mfid))) with
    | none => exact .none
    | some done =>
      refine .some ?_
      simp only
      split
      · exact Same.of _ _ tabled
      · exact Same.of _ _ tabled

theorem open_alike : Alike (open_ libvfs p r ⟨h, tree⟩) (open_ clientTable p r ⟨t, tree⟩) := by
  refine withClient_alike tree tabled fun live => ?_
  split
  · exact .some (Same.of _ tree tabled)
  · exact withVnode_alike p tree tabled live fun vnode => .some (Same.of _ tree tabled)

theorem read_alike : Alike (read libvfs p r ⟨h, tree⟩) (read clientTable p r ⟨t, tree⟩) := by
  refine withClient_alike tree tabled fun live => withVnode_alike p tree tabled live fun vnode => ?_
  simp only
  split
  · cases readDir r tree vnode with
    | none => exact .none
    | some answer => exact .some (Same.of _ tree tabled)
  · exact .some (Same.of _ tree tabled)

theorem stat_alike : Alike (stat libvfs p r ⟨h, tree⟩) (stat clientTable p r ⟨t, tree⟩) :=
  withClient_alike tree tabled fun live => withVnode_alike p tree tabled live fun _ => .some (Same.of _ tree tabled)

theorem walk_alike (fits : Fits h t r) (type : r.msg.type = .twalk) :
    Alike (walk libvfs p r ⟨h, tree⟩) (walk clientTable p r ⟨t, tree⟩) := by
  refine withClient_alike tree tabled fun live => ?_
  split
  · exact .some (Same.of _ tree tabled)
  simp only
  cases vnodeScan r.drivers ((r.msg.value .wname).1.map fun name => .of name.1) r.fuel tree with
  | none => exact .none
  | some scanned =>
    simp only [Option.bind_some]
    cases scanned.node with
    | none => exact .some (Same.of _ _ tabled)
    | some node =>
      simp only
      split
      · exact fidAdd_alike (r := r) _ tabled live _ _ (fits.callocs r.pair (by simp)) (fits.walk type live) _
      · exact .some (Same.of _ _ tabled)

theorem write_alike : Alike (write libvfs p r ⟨h, tree⟩) (write clientTable p r ⟨t, tree⟩) := by
  refine withClient_alike tree tabled fun live => ?_
  split
  · exact .some (Same.of _ tree tabled)
  · exact withVnode_alike p tree tabled live fun vnode => .some (Same.of _ tree tabled)

/-- The server does in memory what it is meant to do with the table of its clients. -/
theorem handleMessage_alike (fits : Fits h t r) :
    Alike (handleMessage libvfs p r ⟨h, tree⟩) (handleMessage clientTable p r ⟨t, tree⟩) := by
  rw [handleMessage, handleMessage]
  cases type : r.msg.type with
  | tattach => exact attach_alike p tree tabled fits
  | tclunk => exact clunk_alike tree tabled fits type
  | tcreate => exact create_alike p tree tabled
  | tmount => exact mount_alike p tree tabled
  | topen => exact open_alike p tree tabled
  | tread => exact read_alike p tree tabled
  | tstat => exact stat_alike p tree tabled
  | twalk => exact walk_alike p tree tabled fits type
  | twrite => exact write_alike p tree tabled
  | tversion | rversion | terror | rerror | rattach | rwalk | ropen | rcreate | rread | rwrite | rclunk | rstat
  | rmount => exact .some (Same.of _ tree tabled)

end Alike

end VfsServer

end Anthill
