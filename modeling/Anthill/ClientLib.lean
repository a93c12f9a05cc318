import Anthill.VfsClient
import Mathlib.Data.List.Nodup

set_option autoImplicit false

namespace Anthill

open LinkedList

/-- The functions of libvfs that a server calls, over what they keep. The address that calloc returns, NULL too, and the
queue of mq_open come with the call. -/
structure ClientLib (σ : Type) where
  create : Int → Nat → σ → Option (Nat × σ)
  get : Int → σ → Option Nat
  fidAdd : Nat → BitVec 32 → Nat → Nat → σ → Option (Nat × σ)
  fidGet : Nat → BitVec 32 → σ → Option Nat
  fidUpdate : Nat → BitVec 32 → Nat → σ → Option (Int × σ)
  fidRemove : Nat → BitVec 32 → σ → Option (Int × σ)

def libvfs : ClientLib Vfs where
  create mq addr h := if addr = 0 then some (0, h) else vfsClientCreate mq addr h
  get := vfsClientGet
  fidAdd client fid obj addr h := if addr = 0 then some (0, h) else vfsClientFidAdd client fid obj addr h
  fidGet := vfsClientFidGet
  fidUpdate := vfsClientFidUpdate
  fidRemove := vfsClientFidRemove

def Table.client (t : Table) (mqId : Int) : Nat := ((t.clients.find? fun c => c.2 == mqId).map Prod.fst).getD 0

def Table.obj (t : Table) (client : Nat) (fid : BitVec 32) : Nat := (t.objs client fid).getD 0

/-- The library as it is meant: a table of the clients' objects. -/
def clientTable : ClientLib Table where
  create mq addr t := some (if addr = 0 ∨ mq = -1 then (0, t) else (addr, t.insert addr mq))
  get mq t := some (t.client mq)
  fidAdd client fid obj addr t := some (if addr = 0 then (0, t) else (addr, t.set client fid (some obj)))
  fidGet client fid t := some (t.obj client fid)
  fidUpdate client fid obj t := some ((ClientCall.fidUpdate client fid obj).spec t)
  fidRemove client fid t := some ((ClientCall.fidRemove client fid).spec t)

/-- The lists in memory are those of the table. -/
def Tabled (h : Vfs) (t : Table) : Prop := ∃ heads fids, Lists h t heads fids

-- The fid of a client's first pair.
def Vfs.firstFid (h : Vfs) (client : Nat) : Option (BitVec 32) :=
  (h.clients client).bind fun node => (h.pairs node.data.fids).map fun pair => pair.data.fid

theorem noClients_tabled : Tabled noClients.1 noClients.2 := ⟨_, _, noClients_lists⟩

/-- An address that calloc returns: NULL, or memory that is not in use. -/
def Vfs.Callocs (h : Vfs) (addr : Nat) : Prop := addr = 0 ∨ h.Fresh addr

section Table

variable {t : Table} {c : Nat} {fid : BitVec 32} {obj : Option Nat} {mq mq' : Int}

theorem Table.set_objs_cases {c' : Nat} {fid' : BitVec 32} {obj' : Nat} (is : (t.set c fid obj).objs c' fid' = some obj') :
    t.objs c' fid' = some obj' ∨ obj = some obj' := by
  rw [Table.set_objs] at is
  by_cases client : c' = c
  · subst client
    rw [Function.update_self] at is
    by_cases same : fid' = fid
    · rw [same, Function.update_self] at is
      exact .inr is
    · rw [Function.update_of_ne same] at is
      exact .inl is
  · rw [Function.update_of_ne client] at is
    exact .inl is

theorem Table.set_objs_other {c' : Nat} (other : c' ≠ c) : (t.set c fid obj).objs c' = t.objs c' := by
  rw [Table.set_objs, Function.update_of_ne other]

theorem Table.insert_client (some_ : t.client mq' ≠ 0) : (t.insert c mq).client mq' = t.client mq' := by
  rw [Table.client] at some_ ⊢
  rw [Table.insert, List.find?_append]
  cases found : t.clients.find? fun c => c.2 == mq' with
  | none =>
    rw [found] at some_
    exact absurd rfl some_
  | some e =>
    rw [Table.client, found]
    rfl

theorem Table.set_client (t : Table) (c : Nat) (fid : BitVec 32) (obj : Option Nat) (mq : Int) :
    (t.set c fid obj).client mq = t.client mq := rfl

theorem Table.client_mem (some_ : t.client mq ≠ 0) : (t.client mq, mq) ∈ t.clients := by
  rw [Table.client] at some_ ⊢
  cases found : t.clients.find? fun c => c.2 == mq with
  | none =>
    rw [found] at some_
    exact absurd rfl some_
  | some c =>
    have hits : c.2 = mq := beq_iff_eq.mp (List.find?_some found :)
    have member := List.mem_of_find?_eq_some found
    rw [← hits]
    exact member

theorem Table.client_live (some_ : t.client mq ≠ 0) : t.client mq ∈ t.live := List.mem_map_of_mem (Table.client_mem some_)

/-- Clients of different queues are different. -/
theorem Table.client_inj (nodup : t.live.Nodup) (some_ : t.client mq ≠ 0) (same : t.client mq' = t.client mq) : mq' = mq := by
  have first := Table.client_mem some_
  have second := Table.client_mem (same ▸ some_ : t.client mq' ≠ 0)
  rw [same] at second
  exact congrArg Prod.snd (List.inj_on_of_nodup_map nodup second first rfl)

theorem Table.insert_client_self (none_ : t.client mq = 0) (nonnull : 0 ∉ t.live) : (t.insert c mq).client mq = c := by
  rw [Table.client] at none_ ⊢
  rw [Table.insert, List.find?_append]
  cases found : t.clients.find? fun c => c.2 == mq with
  | none => simp
  | some e =>
    rw [found] at none_
    exact absurd (none_ ▸ List.mem_map_of_mem (List.mem_of_find?_eq_some found) : 0 ∈ t.live) nonnull

theorem Table.insert_client_other (other : mq' ≠ mq) : (t.insert c mq).client mq' = t.client mq' := by
  rw [Table.client, Table.client, Table.insert, List.find?_append]
  cases found : t.clients.find? fun c => c.2 == mq' with
  | none => simp [other.symm]
  | some e => rfl

end Table

section Frame

variable {α : Type} {m m' : Nodes α}

theorem setNext_none {p next : Nat} (done : setNext m p next = some m') (b : Nat) : m' b = none ↔ m b = none := by
  obtain ⟨node, here, rfl⟩ := Option.map_eq_some_iff.mp done
  by_cases same : b = p
  · rw [same, Function.update_self, here]
    simp
  · rw [Function.update_of_ne same]

theorem setData_none {p : Nat} {f : α → α} (done : setData m p f = some m') (b : Nat) : m' b = none ↔ m b = none := by
  obtain ⟨node, here, rfl⟩ := Option.map_eq_some_iff.mp done
  by_cases same : b = p
  · rw [same, Function.update_self, here]
    simp
  · rw [Function.update_of_ne same]

end Frame

section Tabled

variable {h h' : Vfs} {t : Table}

theorem Fresh.of_none {b : Nat} (fresh : h.Fresh b) (pairs : h.pairs b = none → h'.pairs b = none)
    (clients : h.clients b = none → h'.clients b = none) : h'.Fresh b :=
  ⟨fresh.1, pairs fresh.2.1, clients fresh.2.2⟩

/-- What is not in use stays so when a client is made elsewhere. -/
theorem vfsClientCreate_fresh {mq : Int} {addr r b : Nat} (made : vfsClientCreate mq addr h = some (r, h'))
    (other : b ≠ addr) (fresh : h.Fresh b) : h'.Fresh b := by
  have clients : Function.update h.clients addr (some ⟨⟨mq, 0⟩, 0⟩) b = none :=
    (Function.update_of_ne other ..).trans fresh.2.2
  simp only [vfsClientCreate] at made
  split at made
  · obtain ⟨-, rfl⟩ := Prod.mk.inj (Option.some.inj made)
    exact fresh
  · split at made
    · obtain ⟨-, rfl⟩ := Prod.mk.inj (Option.some.inj made)
      exact Fresh.of_none fresh id fun _ => clients
    · obtain ⟨lastClient, -, made⟩ := Option.bind_eq_some_iff.mp made
      obtain ⟨m, linked, is⟩ := Option.map_eq_some_iff.mp made
      obtain ⟨-, rfl⟩ := Prod.mk.inj is
      exact Fresh.of_none fresh id fun _ => (setNext_none linked b).mpr clients

theorem vfsClientFidAdd_fresh {client obj addr r b : Nat} {fid : BitVec 32}
    (made : vfsClientFidAdd client fid obj addr h = some (r, h')) (other : b ≠ addr) (fresh : h.Fresh b) :
    h'.Fresh b := by
  have pairs : Function.update h.pairs addr (some ⟨⟨fid, obj⟩, 0⟩) b = none :=
    (Function.update_of_ne other ..).trans fresh.2.1
  simp only [vfsClientFidAdd] at made
  obtain ⟨node, -, made⟩ := Option.bind_eq_some_iff.mp made
  split at made
  · obtain ⟨m, set, is⟩ := Option.map_eq_some_iff.mp made
    obtain ⟨-, rfl⟩ := Prod.mk.inj is
    exact Fresh.of_none fresh (fun _ => pairs) (setData_none set b).mpr
  · obtain ⟨prevPair, -, made⟩ := Option.bind_eq_some_iff.mp made
    obtain ⟨m, linked, is⟩ := Option.map_eq_some_iff.mp made
    obtain ⟨-, rfl⟩ := Prod.mk.inj is
    exact Fresh.of_none fresh (fun _ => (setNext_none linked b).mpr pairs) id

variable (tabled : Tabled h t)

include tabled

theorem Tabled.get (mq : Int) : libvfs.get mq h = clientTable.get mq t := by
  obtain ⟨heads, fids, lists⟩ := tabled
  exact lists.refines.find mq

theorem Tabled.fidGet {c : Nat} (live : c ∈ t.live) (fid : BitVec 32) :
    libvfs.fidGet c fid h = clientTable.fidGet c fid t := by
  obtain ⟨heads, fids, lists⟩ := tabled
  exact lists.get c live fid

theorem Tabled.goes (call : ClientCall) (legal : call.Legal h t) (fits : call.Fits h t) :
    ∃ h', call.run h = some ((call.spec t).1, h') ∧ Tabled h' (call.spec t).2 := by
  obtain ⟨heads, fids, lists⟩ := tabled
  obtain ⟨h', heads', fids', run, next⟩ := lists.goes call legal fits
  exact ⟨h', run, heads', fids', next⟩

theorem Tabled.create (mq : Int) {addr : Nat} (callocs : h.Callocs addr) : ∃ h' t' r,
    libvfs.create mq addr h = some (r, h') ∧ clientTable.create mq addr t = some (r, t') ∧ Tabled h' t' ∧
      (r ≠ 0 → r = addr ∧ r ∈ t'.live ∧ t'.objs r = fun _ => none) ∧ ∀ b, b ≠ addr → h.Callocs b → h'.Callocs b := by
  by_cases null : addr = 0
  · refine ⟨h, t, 0, if_pos null, congrArg some (if_pos (.inl null)), tabled, fun some_ => absurd rfl some_, ?_⟩
    exact fun _ _ callocs => callocs
  · have fresh := callocs.resolve_left null
    obtain ⟨h', run, next⟩ := tabled.goes (.create mq addr) fresh trivial
    obtain ⟨⟨r, h''⟩, made, is⟩ := Option.map_eq_some_iff.mp run
    obtain ⟨result, rfl⟩ := Prod.mk.inj is
    have kept (b : Nat) (other : b ≠ addr) (callocs : h.Callocs b) : h''.Callocs b :=
      callocs.imp id fun fresh => vfsClientCreate_fresh made other fresh
    by_cases failed : mq = -1
    · simp only [ClientCall.spec, failed, if_true] at result next
      obtain rfl : r = 0 := by exact_mod_cast result
      exact ⟨h'', t, 0, (if_neg null).trans made, congrArg some (if_pos (.inr failed)), next,
        fun some_ => absurd rfl some_, kept⟩
    · simp only [ClientCall.spec, failed, if_false] at result next
      obtain rfl : r = addr := by exact_mod_cast result
      refine ⟨h'', t.insert r mq, r, (if_neg null).trans made,
        congrArg some (if_neg (not_or.mpr ⟨null, failed⟩)), next, fun _ => ⟨rfl, ?_, ?_⟩, kept⟩
      · rw [Table.live, Table.insert, List.map_append]
        exact List.mem_append_right _ (List.mem_singleton_self _)
      · rw [Table.insert_objs, Function.update_self]

theorem Tabled.fidAdd {c : Nat} (live : c ∈ t.live) (fid : BitVec 32) (obj : Nat) {addr : Nat}
    (callocs : h.Callocs addr) (missing : t.objs c fid = none) : ∃ h' t' r,
    libvfs.fidAdd c fid obj addr h = some (r, h') ∧ clientTable.fidAdd c fid obj addr t = some (r, t') ∧ Tabled h' t' ∧
      (r ≠ 0 → t' = t.set c fid (some obj)) ∧ ∀ b, b ≠ addr → h.Callocs b → h'.Callocs b := by
  by_cases null : addr = 0
  · refine ⟨h, t, 0, if_pos null, congrArg some (if_pos null), tabled, fun some_ => absurd rfl some_, ?_⟩
    exact fun _ _ callocs => callocs
  · have fresh := callocs.resolve_left null
    obtain ⟨h', run, next⟩ := tabled.goes (.fidAdd c fid obj addr) ⟨live, fresh⟩ missing
    obtain ⟨⟨r, h''⟩, made, is⟩ := Option.map_eq_some_iff.mp run
    obtain ⟨result, rfl⟩ := Prod.mk.inj is
    obtain rfl : r = addr := Int.ofNat.inj result
    refine ⟨h'', _, r, (if_neg null).trans made, congrArg some (if_neg null), next, fun _ => rfl, ?_⟩
    exact fun b other callocs => callocs.imp id fun fresh => vfsClientFidAdd_fresh made other fresh

theorem Tabled.fidUpdate {c : Nat} (live : c ∈ t.live) (fid : BitVec 32) (obj : Nat) : ∃ h' t' r,
    libvfs.fidUpdate c fid obj h = some (r, h') ∧ clientTable.fidUpdate c fid obj t = some (r, t') ∧ Tabled h' t' := by
  obtain ⟨h', run, next⟩ := tabled.goes (.fidUpdate c fid obj) live trivial
  exact ⟨h', _, _, run, rfl, next⟩

theorem Tabled.fresh_live {addr : Nat} (callocs : h.Callocs addr) :
    addr ∉ t.live := by
  obtain ⟨heads, fids, lists⟩ := tabled
  rcases callocs with rfl | fresh
  · intro member
    obtain ⟨row, inside, is⟩ := List.mem_map.mp member
    have nonnull := (lists.clients.live (row.1, ⟨row.2, heads row.1⟩) (List.mem_map_of_mem inside)).1
    exact nonnull is
  · exact lists.fresh_live addr fresh

theorem Tabled.nonnull : 0 ∉ t.live := tabled.fresh_live (.inl rfl)

theorem Tabled.nodup : t.live.Nodup := by
  obtain ⟨heads, fids, lists⟩ := tabled
  exact lists.live_nodup

/-- A fid is removed unless it is in its client's first pair. -/
theorem Tabled.fidRemove {c : Nat} (live : c ∈ t.live) (fid : BitVec 32) (later : h.firstFid c ≠ some fid) :
    ∃ h' t' r, libvfs.fidRemove c fid h = some (r, h') ∧ clientTable.fidRemove c fid t = some (r, t') ∧
      Tabled h' t' := by
  have fits : (ClientCall.fidRemove c fid).Fits h t := by
    intro node pair there first same
    rw [Vfs.firstFid, there, Option.bind_some, first, Option.map_some, same] at later
    exact later rfl
  obtain ⟨h', run, next⟩ := tabled.goes (.fidRemove c fid) live fits
  exact ⟨h', _, _, run, rfl, next⟩

end Tabled

end Anthill
