import Anthill.Linked
import Anthill.Run

set_option autoImplicit false

namespace Anthill

open LinkedList

structure FidData where
  fid : BitVec 32
  obj : Nat

structure ClientData where
  mqId : Int
  fids : Nat

/-- The memory of libvfs. `made` counts the objects allocated so far, which no list is longer than. -/
structure Vfs where
  pairs : Nodes FidData
  clients : Nodes ClientData
  firstClient : Nat
  made : Nat

-- The functions take the result of calloc as `addr`, which is not NULL, and that of mq_open as `mq`. They
-- have no result where they use memory that is not allocated, or do not return.

def vfsClientCreate (mq : Int) (addr : Nat) (h : Vfs) : Option (Nat × Vfs) :=
  let h := { h with made := h.made + 1 }
  if mq = -1 then some (0, h)
  else
    let clients := Function.update h.clients addr (some ⟨⟨mq, 0⟩, 0⟩)
    if h.firstClient = 0 then some (addr, { h with clients := clients, firstClient := addr })
    else
      (last clients h.made h.firstClient).bind fun lastClient =>
        (setNext clients lastClient addr).map fun clients => (addr, { h with clients := clients })

def vfsClientFidAdd (client : Nat) (fid : BitVec 32) (obj addr : Nat) (h : Vfs) : Option (Nat × Vfs) :=
  let h := { h with made := h.made + 1 }
  let pairs := Function.update h.pairs addr (some ⟨⟨fid, obj⟩, 0⟩)
  (h.clients client).bind fun node =>
    if node.data.fids = 0 then
      (setData h.clients client fun data => { data with fids := addr }).map fun clients =>
        (addr, { h with pairs := pairs, clients := clients })
    else
      (last pairs h.made node.data.fids).bind fun prevPair =>
        (setNext pairs prevPair addr).map fun pairs => (addr, { h with pairs := pairs })

-- The pair of `fid`, or NULL, and the pair before it.
def Vfs.findPair (h : Vfs) (client : Nat) (fid : BitVec 32) : Option (Nat × Nat) :=
  (h.clients client).bind fun node =>
    find h.pairs (fun data => data.fid == fid) (h.made + 1) node.data.fids node.data.fids

def vfsClientFidGet (client : Nat) (fid : BitVec 32) (h : Vfs) : Option Nat :=
  (h.findPair client fid).bind fun (pair, _) =>
    if pair = 0 then some 0 else (h.pairs pair).map fun node => node.data.obj

def vfsClientFidUpdate (client : Nat) (fid : BitVec 32) (obj : Nat) (h : Vfs) : Option (Int × Vfs) :=
  (h.findPair client fid).bind fun (pair, _) =>
    if pair = 0 then some (-1, h)
    else (setData h.pairs pair fun data => { data with obj := obj }).map fun pairs => (0, { h with pairs := pairs })

def vfsClientFidRemove (client : Nat) (fid : BitVec 32) (h : Vfs) : Option (Int × Vfs) :=
  (h.findPair client fid).bind fun (pair, prevPair) =>
    if pair = 0 then some (-1, h)
    else
      (h.pairs pair).bind fun node =>
        (setNext h.pairs prevPair node.next).bind fun pairs =>
          (setData pairs pair fun data => { data with obj := 0 }).map fun pairs =>
            (0, { h with pairs := free pairs pair })

def vfsClientGet (mqId : Int) (h : Vfs) : Option Nat :=
  (find h.clients (fun data => data.mqId == mqId) (h.made + 1) h.firstClient 0).map Prod.fst

def removePairs (client : Nat) : Nat → Nat → Vfs → Option Vfs
  | 0, _, _ => none
  | fuel + 1, pair, h =>
    if pair = 0 then some h
    else
      (h.pairs pair).bind fun node =>
        (vfsClientFidRemove client node.data.fid h).bind fun (_, h) =>
          (h.pairs pair).bind fun node => removePairs client fuel node.next h

def vfsClientRemove (client : Nat) (h : Vfs) : Option (Nat × Vfs) :=
  (h.clients client).bind fun node =>
    (removePairs client (h.made + 1) node.data.fids h).bind fun h =>
      (h.clients client).map fun _ => (0, { h with clients := free h.clients client })

/-- What the library is for: the clients in the order of their creation, and the objects of their fids. -/
structure Table where
  clients : List (Nat × Int)
  objs : Nat → BitVec 32 → Option Nat

def Table.live (t : Table) : List Nat := t.clients.map Prod.fst

def Table.set (t : Table) (client : Nat) (fid : BitVec 32) (obj : Option Nat) : Table :=
  { t with objs := Function.update t.objs client (Function.update (t.objs client) fid obj) }

theorem Table.set_objs (t : Table) (client : Nat) (fid : BitVec 32) (obj : Option Nat) :
    (t.set client fid obj).objs = Function.update t.objs client (Function.update (t.objs client) fid obj) := rfl

def Table.insert (t : Table) (client : Nat) (mqId : Int) : Table :=
  ⟨t.clients ++ [(client, mqId)], Function.update t.objs client fun _ => none⟩

theorem Table.insert_objs (t : Table) (client : Nat) (mqId : Int) :
    (t.insert client mqId).objs = Function.update t.objs client fun _ => none := rfl

inductive ClientCall where
  | create (mq : Int) (addr : Nat)
  | fidAdd (client : Nat) (fid : BitVec 32) (obj addr : Nat)
  | fidUpdate (client : Nat) (fid : BitVec 32) (obj : Nat)
  | fidRemove (client : Nat) (fid : BitVec 32)
  | remove (client : Nat)

def ClientCall.run : ClientCall → Vfs → Option (Int × Vfs)
  | .create mq addr, h => (vfsClientCreate mq addr h).map fun (r, h) => (r, h)
  | .fidAdd client fid obj addr, h => (vfsClientFidAdd client fid obj addr h).map fun (r, h) => (r, h)
  | .fidUpdate client fid obj, h => vfsClientFidUpdate client fid obj h
  | .fidRemove client fid, h => vfsClientFidRemove client fid h
  | .remove client, h => (vfsClientRemove client h).map fun (r, h) => (r, h)

def ClientCall.spec : ClientCall → Table → Int × Table
  | .create mq addr, t =>
    if mq = -1 then (0, t) else (addr, t.insert addr mq)
  | .fidAdd client fid obj addr, t => (addr, t.set client fid (some obj))
  | .fidUpdate client fid obj, t => if (t.objs client fid).isSome then (0, t.set client fid (some obj)) else (-1, t)
  | .fidRemove client fid, t => if (t.objs client fid).isSome then (0, t.set client fid none) else (-1, t)
  | .remove client, t =>
    (0, ⟨t.clients.filter fun c => c.1 ≠ client, Function.update t.objs client fun _ => none⟩)

-- What calloc returns is not NULL and is not in use.
def Vfs.Fresh (h : Vfs) (addr : Nat) : Prop := addr ≠ 0 ∧ h.pairs addr = none ∧ h.clients addr = none

/-- A call on a client that exists, with memory from calloc. -/
def ClientCall.Legal (h : Vfs) (t : Table) : ClientCall → Prop
  | .create _ addr => h.Fresh addr
  | .fidAdd client _ _ addr => client ∈ t.live ∧ h.Fresh addr
  | .fidUpdate client _ _ | .fidRemove client _ | .remove client => client ∈ t.live

/-- The calls that keep the lists in order: a fid is added once, the fid of a client's first pair stays, and so
does every client. -/
def ClientCall.Fits (h : Vfs) (t : Table) : ClientCall → Prop
  | .create _ _ | .fidUpdate _ _ _ => True
  | .fidAdd client fid _ _ => t.objs client fid = none
  | .fidRemove client fid =>
    ∀ node pair, h.clients client = some node → h.pairs node.data.fids = some pair → pair.data.fid ≠ fid
  | .remove _ => False

def ClientCall.Step (s : Vfs × Table) (call : ClientCall) (s' : Vfs × Table) : Prop :=
  ∃ r, call.run s.1 = some (r, s'.1) ∧ s'.2 = (call.spec s.2).2

/-- What the library shows of its lists is what the table says. -/
structure Refines (h : Vfs) (t : Table) : Prop where
  get : ∀ client, client ∈ t.live → ∀ fid, vfsClientFidGet client fid h = some ((t.objs client fid).getD 0)
  find : ∀ mqId, vfsClientGet mqId h = some (((t.clients.find? fun c => c.2 == mqId).map Prod.fst).getD 0)

def noClients : Vfs × Table := (⟨fun _ => none, fun _ => none, 0, 0⟩, ⟨[], fun _ _ => none⟩)

-- The object of a fid in a list of pairs.
def lookup (l : List (Nat × FidData)) (fid : BitVec 32) : Option Nat :=
  (l.find? fun e => e.2.fid == fid).map fun e => e.2.obj

theorem lookup_append (l₁ l₂ : List (Nat × FidData)) (fid : BitVec 32) :
    lookup (l₁ ++ l₂) fid = (lookup l₁ fid).or (lookup l₂ fid) := by
  rw [lookup, List.find?_append, lookup, lookup]
  cases l₁.find? fun e => e.2.fid == fid <;> rfl

theorem lookup_cons (e : Nat × FidData) (l : List (Nat × FidData)) (fid : BitVec 32) :
    lookup (e :: l) fid = if e.2.fid = fid then some e.2.obj else lookup l fid := by
  rw [lookup, List.find?_cons]
  by_cases same : e.2.fid = fid
  · simp [same]
  · simp [same, beq_eq_false_iff_ne.mpr same, lookup]

theorem lookup_none (l : List (Nat × FidData)) (fid : BitVec 32) :
    lookup l fid = none ↔ ∀ e, e ∈ l → e.2.fid ≠ fid := by
  simp [lookup]

/-- A fid is in no pair of a list, or in a first one. -/
theorem lookup_cases (l : List (Nat × FidData)) (fid : BitVec 32) :
    (lookup l fid = none ∧ ∀ e, e ∈ l → (e.2.fid == fid) = false) ∨
      ∃ l₁ e l₂, l = l₁ ++ e :: l₂ ∧ (∀ e', e' ∈ l₁ → (e'.2.fid == fid) = false) ∧ e.2.fid = fid ∧
        lookup l fid = some e.2.obj := by
  cases found : l.find? fun e => e.2.fid == fid with
  | none =>
    refine .inl ⟨by rw [lookup, found]; rfl, fun e member => ?_⟩
    simpa using List.find?_eq_none.mp found e member
  | some e =>
    obtain ⟨hits, l₁, l₂, split, before⟩ := List.find?_eq_some_iff_append.mp found
    exact .inr ⟨l₁, e, l₂, split, fun e' member => by simpa using before e' member, by simpa using hits,
      by rw [lookup, found]; rfl⟩

section Lookup

variable {l₁ l₂ : List (Nat × FidData)} {e : Nat × FidData}
  (once : ((l₁ ++ e :: l₂).map fun e => e.2.fid).Nodup)

include once

theorem lookup_around : lookup l₁ e.2.fid = none ∧ lookup l₂ e.2.fid = none := by
  rw [List.map_append, List.map_cons, List.nodup_append] at once
  obtain ⟨-, after, apart⟩ := once
  constructor <;> rw [lookup_none] <;> rintro e' member same
  · exact apart _ (List.mem_map_of_mem member) _ (List.mem_cons_self ..) same
  · exact (List.nodup_cons.mp after).1 (same ▸ List.mem_map_of_mem (f := fun e : Nat × FidData => e.2.fid) member)

theorem lookup_update (a : Nat) (obj : Nat) : lookup (l₁ ++ (a, ⟨e.2.fid, obj⟩) :: l₂) =
    Function.update (lookup (l₁ ++ e :: l₂)) e.2.fid (some obj) := by
  funext fid
  by_cases same : fid = e.2.fid
  · subst same
    rw [Function.update_self, lookup_append, lookup_cons, if_pos rfl, (lookup_around once).1, Option.none_or]
  · rw [Function.update_of_ne same, lookup_append, lookup_append, lookup_cons, lookup_cons, if_neg (Ne.symm same),
      if_neg (Ne.symm same)]

theorem lookup_remove : lookup (l₁ ++ l₂) = Function.update (lookup (l₁ ++ e :: l₂)) e.2.fid none := by
  funext fid
  by_cases same : fid = e.2.fid
  · subst same
    rw [Function.update_self, lookup_append, (lookup_around once).1, (lookup_around once).2, Option.none_or]
  · rw [Function.update_of_ne same, lookup_append, lookup_append, lookup_cons, if_neg (Ne.symm same)]

end Lookup

theorem lookup_snoc (l : List (Nat × FidData)) (a obj : Nat) (fid : BitVec 32) (missing : lookup l fid = none) :
    lookup (l ++ [(a, ⟨fid, obj⟩)]) = Function.update (lookup l) fid (some obj) := by
  funext fid'
  by_cases same : fid' = fid
  · subst same
    rw [Function.update_self, lookup_append, lookup_cons, if_pos rfl, missing, Option.none_or]
  · rw [Function.update_of_ne same, lookup_append, lookup_cons, if_neg (Ne.symm same)]
    exact Option.or_none

-- The clients as they lie in memory, with their first pairs.
def Table.rows (t : Table) (heads : Nat → Nat) : List (Nat × ClientData) :=
  t.clients.map fun c => (c.1, ⟨c.2, heads c.1⟩)

/-- The lists in memory: one of the clients, and one of pairs for each client, which has each fid once. -/
structure Lists (h : Vfs) (t : Table) (heads : Nat → Nat) (fids : Nat → List (Nat × FidData)) : Prop where
  clients : Seg h.clients 0 h.firstClient (t.rows heads)
  pairs : ∀ c, c ∈ t.live → Seg h.pairs 0 (heads c) (fids c)
  apart : ∀ c c', c ∈ t.live → c' ∈ t.live → c ≠ c' → ∀ a, a ∈ (fids c).map Prod.fst → a ∉ (fids c').map Prod.fst
  once : ∀ c, c ∈ t.live → ((fids c).map fun e => e.2.fid).Nodup
  objs : ∀ c, c ∈ t.live → t.objs c = lookup (fids c)
  short : t.clients.length ≤ h.made ∧ ∀ c, c ∈ t.live → (fids c).length ≤ h.made

theorem noClients_lists : Lists noClients.1 noClients.2 (fun _ => 0) fun _ => [] where
  clients := rfl
  pairs _ member := absurd member List.not_mem_nil
  apart _ _ member := absurd member List.not_mem_nil
  once _ member := absurd member List.not_mem_nil
  objs _ member := absurd member List.not_mem_nil
  short := ⟨Nat.le_refl _, fun _ member => absurd member List.not_mem_nil⟩

-- A client with another first pair.
theorem Table.rows_update (t : Table) (heads : Nat → Nat) (c head : Nat) (mq : Int) (c₁ c₂ : List (Nat × Int))
    (split : t.clients = c₁ ++ (c, mq) :: c₂) (before : c ∉ c₁.map Prod.fst) (after : c ∉ c₂.map Prod.fst) :
    t.rows (Function.update heads c head) =
      c₁.map (fun c => (c.1, ⟨c.2, heads c.1⟩)) ++ (c, ⟨mq, head⟩) :: c₂.map fun c => (c.1, ⟨c.2, heads c.1⟩) := by
  have others (cs : List (Nat × Int)) (away : c ∉ cs.map Prod.fst) :
      cs.map (fun c' => ((c'.1, ⟨c'.2, Function.update heads c head c'.1⟩) : Nat × ClientData)) =
        cs.map fun c' => (c'.1, ⟨c'.2, heads c'.1⟩) := by
    refine List.map_congr_left fun c' member => ?_
    rw [Function.update_of_ne]
    rintro rfl
    exact away (List.mem_map_of_mem member)
  rw [Table.rows, split, List.map_append, List.map_cons, Function.update_self, others c₁ before, others c₂ after]

section Lists

variable {h : Vfs} {t : Table} {heads : Nat → Nat} {fids : Nat → List (Nat × FidData)}
  (lists : Lists h t heads fids)

include lists

theorem Lists.client (c : Nat) (live : c ∈ t.live) : ∃ mq next, h.clients c = some ⟨⟨mq, heads c⟩, next⟩ := by
  obtain ⟨row, member, rfl⟩ := List.mem_map.mp live
  obtain ⟨-, next, node⟩ := lists.clients.live _ (List.mem_map_of_mem member)
  exact ⟨row.2, next, node⟩

theorem Lists.live_nodup : t.live.Nodup := by
  have nodup := lists.clients.nodup
  rwa [Table.rows, List.map_map] at nodup

/-- Looking for a fid comes to the pair that has it. -/
theorem Lists.findPair (c : Nat) (live : c ∈ t.live) (fid : BitVec 32) :
    h.findPair c fid = some (search (fun data => data.fid == fid) (fids c) (heads c)) := by
  obtain ⟨mq, next, node⟩ := lists.client c live
  rw [Vfs.findPair, node, Option.bind_some]
  exact find_seg _ _ _ _ (Nat.lt_succ_of_le (lists.short.2 c live)) (lists.pairs c live)

theorem Lists.get (c : Nat) (live : c ∈ t.live) (fid : BitVec 32) :
    vfsClientFidGet c fid h = some ((t.objs c fid).getD 0) := by
  rw [vfsClientFidGet, lists.findPair c live fid, Option.bind_some, lists.objs c live]
  rcases lookup_cases (fids c) fid with ⟨missing, none⟩ | ⟨l₁, e, l₂, split, before, rfl, found⟩
  · simp only [search_none (fun data => data.fid == fid) (fids c) (heads c) none, if_true, missing, Option.getD_none]
  · have first := search_first (fun data => data.fid == e.2.fid) l₁ l₂ e (heads c) before (beq_self_eq_true e.2.fid)
    obtain ⟨nonnull, next, node⟩ := (lists.pairs c live).live e (by rw [split]; simp)
    rw [← split] at first
    simp only [first, nonnull, if_false, node, Option.map_some, found, Option.getD_some]

theorem Lists.refines : Refines h t where
  get := lists.get
  find mqId := by
    have small : (t.rows heads).length < h.made + 1 := by
      rw [Table.rows, List.length_map]
      exact Nat.lt_succ_of_le lists.short.1
    rw [vfsClientGet, find_seg _ _ _ 0 small lists.clients, Option.map_some]
    cases found : t.clients.find? fun c => c.2 == mqId with
    | none =>
      rw [search_none, Option.map_none, Option.getD_none]
      intro row member
      obtain ⟨c, inside, rfl⟩ := List.mem_map.mp member
      simpa using List.find?_eq_none.mp found c inside
    | some c =>
      obtain ⟨hits, l₁, l₂, split, before⟩ := List.find?_eq_some_iff_append.mp found
      rw [Table.rows, split, List.map_append, List.map_cons, search_first _ _ _ _ _ _ (by simpa using hits)]
      · rfl
      · intro row member
        obtain ⟨c', inside, rfl⟩ := List.mem_map.mp member
        simpa using before c' inside

/-- The lists after the pairs of one client have changed. -/
theorem Lists.change (c : Nat) (live : c ∈ t.live) (h' : Vfs) (head : Nat) (l : List (Nat × FidData)) (fid : BitVec 32)
    (obj : Option Nat) (clients : Seg h'.clients 0 h'.firstClient (t.rows (Function.update heads c head)))
    (seg : Seg h'.pairs 0 head l) (once : (l.map fun e => e.2.fid).Nodup)
    (same : ∀ b, b ∉ (fids c).map Prod.fst → h.pairs b ≠ none → h'.pairs b = h.pairs b)
    (addrs : ∀ a, a ∈ l.map Prod.fst → a ∈ (fids c).map Prod.fst ∨ h.pairs a = none)
    (objs : lookup l = Function.update (lookup (fids c)) fid obj) (made : h.made ≤ h'.made)
    (short : l.length ≤ h'.made) :
    Lists h' (t.set c fid obj) (Function.update heads c head) (Function.update fids c l) where
  clients := clients
  pairs c' live' := by
    by_cases here : c' = c
    · subst here
      rw [Function.update_self, Function.update_self]
      exact seg
    · rw [Function.update_of_ne here, Function.update_of_ne here]
      refine (lists.pairs c' live').frame fun e member => same e.1 ?_ ?_
      · exact lists.apart c' c live' live here e.1 (List.mem_map_of_mem member)
      · obtain ⟨-, next, node⟩ := (lists.pairs c' live').live e member
        simp [node]
  apart c₁ c₂ live₁ live₂ different a member again := by
    have old (c' : Nat) (inside : a ∈ (Function.update fids c l c').map Prod.fst) :
        a ∈ (fids c').map Prod.fst ∨ c' = c ∧ h.pairs a = none := by
      by_cases here : c' = c
      · subst here
        rw [Function.update_self] at inside
        exact (addrs a inside).imp id fun fresh => ⟨rfl, fresh⟩
      · rw [Function.update_of_ne here] at inside
        exact .inl inside
    have inUse (c' : Nat) (live' : c' ∈ t.live) (inside : a ∈ (fids c').map Prod.fst) : h.pairs a ≠ none := by
      obtain ⟨e, there, rfl⟩ := List.mem_map.mp inside
      obtain ⟨-, next, node⟩ := (lists.pairs c' live').live e there
      simp [node]
    rcases old c₁ member with first | ⟨is₁, fresh⟩
    · rcases old c₂ again with second | ⟨-, fresh⟩
      · exact lists.apart c₁ c₂ live₁ live₂ different a first second
      · exact inUse c₁ live₁ first fresh
    · rcases old c₂ again with second | ⟨is₂, -⟩
      · exact inUse c₂ live₂ second fresh
      · exact different (is₁.trans is₂.symm)
  once c' live' := by
    by_cases here : c' = c
    · subst here
      rw [Function.update_self]
      exact once
    · rw [Function.update_of_ne here]
      exact lists.once c' live'
  objs c' live' := by
    by_cases here : c' = c
    · subst here
      rw [Table.set_objs, Function.update_self, Function.update_self, objs, lists.objs c' live]
    · rw [Table.set_objs, Function.update_of_ne here, Function.update_of_ne here]
      exact lists.objs c' live'
  short := by
    refine ⟨Nat.le_trans lists.short.1 made, fun c' live' => ?_⟩
    by_cases here : c' = c
    · subst here
      rw [Function.update_self]
      exact short
    · rw [Function.update_of_ne here]
      exact Nat.le_trans (lists.short.2 c' live') made

/-- The lists after pairs of one client have changed, with the same first pair and no new ones. -/
theorem Lists.rewrite (c : Nat) (live : c ∈ t.live) (m : Nodes FidData) (l : List (Nat × FidData)) (fid : BitVec 32)
    (obj : Option Nat) (seg : Seg m 0 (heads c) l) (once : (l.map fun e => e.2.fid).Nodup)
    (same : ∀ b, b ∉ (fids c).map Prod.fst → m b = h.pairs b)
    (addrs : ∀ a, a ∈ l.map Prod.fst → a ∈ (fids c).map Prod.fst)
    (objs : lookup l = Function.update (lookup (fids c)) fid obj) (short : l.length ≤ h.made) :
    Lists { h with pairs := m } (t.set c fid obj) heads (Function.update fids c l) := by
  have changed := lists.change c live { h with pairs := m } (heads c) l fid obj
    (by rw [Function.update_eq_self]; exact lists.clients) seg once (fun b away _ => same b away)
    (fun a member => .inl (addrs a member)) objs (Nat.le_refl _) short
  rwa [Function.update_eq_self] at changed

end Lists

/-- What a call leaves when it goes through. -/
def ClientCall.Goes (call : ClientCall) (h : Vfs) (t : Table) : Prop :=
  ∃ h' heads fids, call.run h = some ((call.spec t).1, h') ∧ Lists h' (call.spec t).2 heads fids

section Calls

variable {h : Vfs} {t : Table} {heads : Nat → Nat} {fids : Nat → List (Nat × FidData)}
  (lists : Lists h t heads fids) (c : Nat) (live : c ∈ t.live) (fid : BitVec 32)

include lists live

theorem Lists.fidUpdate (obj : Nat) : (ClientCall.fidUpdate c fid obj).Goes h t := by
  have looked := lists.findPair c live fid
  have objs := lists.objs c live
  rcases lookup_cases (fids c) fid with ⟨missing, none⟩ | ⟨l₁, e, l₂, split, before, rfl, found⟩
  · refine ⟨h, heads, fids, ?_, ?_⟩
    · simp only [ClientCall.run, ClientCall.spec, vfsClientFidUpdate, looked, Option.bind_some, objs, missing,
        search_none (fun data => data.fid == fid) (fids c) (heads c) none, if_true, Option.isSome_none,
        Bool.false_eq_true, if_false]
    · simp only [ClientCall.spec, objs, missing, Option.isSome_none, Bool.false_eq_true, if_false]
      exact lists
  · have first := search_first (fun data => data.fid == e.2.fid) l₁ l₂ e (heads c) before (beq_self_eq_true e.2.fid)
    have seg := lists.pairs c live
    have once := lists.once c live
    have nonnull := (seg.live e (by rw [split]; simp)).1
    rw [← split] at first
    rw [split] at seg once
    obtain ⟨m, written, seg', same⟩ := seg.update fun data => { data with obj := obj }
    refine ⟨{ h with pairs := m }, heads, Function.update fids c (l₁ ++ (e.1, ⟨e.2.fid, obj⟩) :: l₂), ?_, ?_⟩
    · simp only [ClientCall.run, ClientCall.spec, vfsClientFidUpdate, looked, Option.bind_some, objs, found, first,
        nonnull, if_false, written, Option.map_some, Option.isSome_some, if_true]
    · simp only [ClientCall.spec, objs, found, Option.isSome_some, if_true]
      refine lists.rewrite c live m _ e.2.fid (some obj) seg' ?_ (fun b away => same b fun here => away ?_) ?_ ?_ ?_
      · simpa using once
      · rw [here, split]
        simp
      · rw [split]
        simp
      · rw [split]
        exact lookup_update once e.1 obj
      · have short := lists.short.2 c live
        rw [split] at short
        simpa using short

theorem Lists.fidRemove (fits : (ClientCall.fidRemove c fid).Fits h t) : (ClientCall.fidRemove c fid).Goes h t := by
  have looked := lists.findPair c live fid
  have objs := lists.objs c live
  rcases lookup_cases (fids c) fid with ⟨missing, none⟩ | ⟨l₁, e, l₂, split, before, rfl, found⟩
  · refine ⟨h, heads, fids, ?_, ?_⟩
    · simp only [ClientCall.run, ClientCall.spec, vfsClientFidRemove, looked, Option.bind_some, objs, missing,
        search_none (fun data => data.fid == fid) (fids c) (heads c) none, if_true, Option.isSome_none,
        Bool.false_eq_true, if_false]
    · simp only [ClientCall.spec, objs, missing, Option.isSome_none, Bool.false_eq_true, if_false]
      exact lists
  · have seg := lists.pairs c live
    have once := lists.once c live
    rw [split] at seg once
    -- The pair is not the first of its client.
    rcases List.eq_nil_or_concat l₁ with rfl | ⟨l, prev, rfl⟩
    · obtain ⟨mq, next, node⟩ := lists.client c live
      obtain ⟨here, -, next', pair, -⟩ := seg
      exact absurd rfl (fits _ _ node (by rw [here]; exact pair))
    · rw [List.concat_eq_append] at split before once seg
      have after := search_after (fun data => data.fid == e.2.fid) l l₂ prev e (heads c) before
        (beq_self_eq_true e.2.fid)
      have nonnull := (seg.live e (by simp)).1
      have listed : l ++ [prev] ++ e :: l₂ = l ++ prev :: e :: l₂ := by simp
      have removed := lookup_remove once
      rw [← split] at removed
      rw [listed] at seg once split
      rw [← split] at after
      obtain ⟨next, m₁, m₂, node, linked, cleared, seg', same⟩ := seg.remove fun data => { data with obj := 0 }
      refine ⟨{ h with pairs := free m₂ e.1 }, heads, Function.update fids c (l ++ prev :: l₂), ?_, ?_⟩
      · simp only [ClientCall.run, ClientCall.spec, vfsClientFidRemove, looked, Option.bind_some, objs, found, after,
          nonnull, if_false, node, linked, cleared, Option.map_some, Option.isSome_some, if_true]
      · simp only [ClientCall.spec, objs, found, Option.isSome_some, if_true]
        refine lists.rewrite c live _ _ e.2.fid none seg' ?_
          (fun b away => same b (fun here => away ?_) fun here => away ?_) ?_ ?_ ?_
        · refine once.sublist ?_
          simp
        · rw [here, split]
          simp
        · rw [here, split]
          simp
        · rw [split]
          intro a member
          simp only [List.map_append, List.map_cons, List.mem_append, List.mem_cons] at member ⊢
          tauto
        · rw [← removed, List.append_assoc]
          rfl
        · have short := lists.short.2 c live
          rw [split] at short
          simp only [List.length_append, List.length_cons] at short ⊢
          omega

theorem Lists.fidAdd (obj addr : Nat) (fresh : h.Fresh addr) (missing : t.objs c fid = none) :
    (ClientCall.fidAdd c fid obj addr).Goes h t := by
  obtain ⟨nonnull, freshPair, -⟩ := fresh
  obtain ⟨mq, next, node⟩ := lists.client c live
  have seg := lists.pairs c live
  have once := lists.once c live
  have objs := lists.objs c live
  have short := lists.short.2 c live
  rw [objs] at missing
  have newOnce : ((fids c ++ [(addr, (⟨fid, obj⟩ : FidData))]).map fun e => e.2.fid).Nodup := by
    rw [List.map_append, List.nodup_append]
    refine ⟨once, by simp, fun fid' member _ here => ?_⟩
    obtain ⟨e, inside, rfl⟩ := List.mem_map.mp member
    obtain rfl := List.mem_singleton.mp here
    exact (lookup_none _ _).mp missing e inside
  have newAddrs (a : Nat) (member : a ∈ (fids c ++ [(addr, (⟨fid, obj⟩ : FidData))]).map Prod.fst) :
      a ∈ (fids c).map Prod.fst ∨ h.pairs a = none := by
    rw [List.map_append, List.mem_append] at member
    refine member.imp id fun last => ?_
    obtain rfl := List.mem_singleton.mp last
    exact freshPair
  rcases List.eq_nil_or_concat (fids c) with empty | ⟨l, e, whole⟩
  · -- The first pair of the client.
    have none : heads c = 0 := by
      rw [empty] at seg
      exact seg
    obtain ⟨⟨_, mq'⟩, member, rfl⟩ := List.mem_map.mp live
    obtain ⟨c₁, c₂, split⟩ := List.append_of_mem member
    have nodup := lists.live_nodup
    rw [Table.live, split, List.map_append, List.map_cons, List.nodup_append] at nodup
    obtain ⟨-, after, apart⟩ := nodup
    have clients := lists.clients
    rw [Table.rows, split, List.map_append, List.map_cons] at clients
    obtain ⟨m, written, seg', -⟩ := clients.update fun data => { data with fids := addr }
    refine ⟨_, _, _, ?_, lists.change _ live ⟨Function.update h.pairs addr (some ⟨⟨fid, obj⟩, 0⟩), m, h.firstClient,
      h.made + 1⟩ addr _ fid (some obj) ?_ ?_ newOnce (fun b _ inUse => Function.update_of_ne ?_ _ _) newAddrs
      (lookup_snoc _ _ _ _ missing) (Nat.le_succ _) ?_⟩
    · simp only [ClientCall.run, ClientCall.spec, vfsClientFidAdd, node, Option.bind_some, none, if_true, written,
        Option.map_some]
    · rw [t.rows_update heads _ addr mq' c₁ c₂ split (fun inside => apart _ inside _ (List.mem_cons_self ..) rfl)
        (List.nodup_cons.mp after).1]
      exact seg'
    · rw [empty]
      exact ⟨rfl, nonnull, 0, Function.update_self .., rfl⟩
    · rintro rfl
      exact inUse freshPair
    · rw [List.length_append]
      exact Nat.succ_le_succ short
  · rw [List.concat_eq_append] at whole
    have seg₀ := seg
    rw [whole] at seg₀
    have head : heads c ≠ 0 := by
      intro none
      cases l with
      | nil => exact seg₀.2.1 (seg₀.1.symm.trans none)
      | cons e' l => exact seg₀.2.1 (seg₀.1.symm.trans none)
    have unused : addr ∉ (l ++ [e]).map Prod.fst := fun member => by
      obtain ⟨e', inside, here⟩ := List.mem_map.mp member
      obtain ⟨-, next', pair⟩ := seg₀.live e' inside
      rw [here, freshPair] at pair
      cases pair
    have enough : l.length < h.made + 1 := by
      rw [whole, List.length_append, List.length_singleton] at short
      omega
    have found := last_seg l e (h.made + 1) enough (seg₀.update_away (some ⟨⟨fid, obj⟩, 0⟩) unused)
    obtain ⟨m, linked, seg', same⟩ := seg₀.snoc addr ⟨fid, obj⟩ nonnull freshPair
    rw [← whole] at seg'
    have changed := lists.change c live ⟨m, h.clients, h.firstClient, h.made + 1⟩ (heads c) _ fid (some obj)
      (by rw [Function.update_eq_self]; exact lists.clients) seg' newOnce (fun b away inUse => same b ?_ ?_) newAddrs
      (lookup_snoc _ _ _ _ missing) (Nat.le_succ _) (by rw [List.length_append]; exact Nat.succ_le_succ short)
    · refine ⟨_, _, _, ?_, changed⟩
      simp only [ClientCall.run, ClientCall.spec, vfsClientFidAdd, node, Option.bind_some, head, if_false, found, linked,
        Option.map_some]
    · rintro rfl
      exact inUse freshPair
    · rintro rfl
      exact away (by rw [whole]; simp)

end Calls

section Create

variable {h : Vfs} {t : Table} {heads : Nat → Nat} {fids : Nat → List (Nat × FidData)}
  (lists : Lists h t heads fids) (mq : Int) (addr : Nat) (fresh : h.Fresh addr)

include lists fresh

theorem Lists.fresh_live : addr ∉ t.live := fun member => by
  obtain ⟨mq, next, node⟩ := lists.client addr member
  rw [fresh.2.2] at node
  cases node

/-- The lists with a new client, which has no pairs yet. -/
theorem Lists.added (clients : Nodes ClientData) (first : Nat)
    (seg : Seg clients 0 first (t.rows heads ++ [(addr, ⟨mq, 0⟩)])) :
    Lists ⟨h.pairs, clients, first, h.made + 1⟩ (t.insert addr mq) (Function.update heads addr 0)
      (Function.update fids addr []) := by
  have notLive := lists.fresh_live addr fresh
  have members (c : Nat) (live : c ∈ (t.insert addr mq).live) :
      (c = addr ∧ c ∉ t.live) ∨ c ≠ addr ∧ c ∈ t.live := by
    rw [Table.live, Table.insert, List.map_append, List.mem_append] at live
    rcases live with old | new
    · exact .inr ⟨fun here => notLive (here ▸ old), old⟩
    · obtain rfl := List.mem_singleton.mp new
      exact .inl ⟨rfl, notLive⟩
  constructor
  case clients =>
    have rows : t.clients.map (fun c => ((c.1, ⟨c.2, Function.update heads addr 0 c.1⟩) : Nat × ClientData)) =
        t.rows heads := by
      refine List.map_congr_left fun c member => ?_
      rw [Function.update_of_ne]
      rintro rfl
      exact notLive (List.mem_map_of_mem member)
    rw [Table.rows, Table.insert, List.map_append, rows, List.map_singleton, Function.update_self]
    exact seg
  case pairs =>
    intro c live
    rcases members c live with ⟨rfl, -⟩ | ⟨other, old⟩
    · rw [Function.update_self, Function.update_self]
      rfl
    · rw [Function.update_of_ne other, Function.update_of_ne other]
      exact lists.pairs c old
  case apart =>
    intro c c' live live' different a member
    rcases members c live with ⟨rfl, -⟩ | ⟨other, old⟩
    · rw [Function.update_self] at member
      cases member
    · rw [Function.update_of_ne other] at member
      rcases members c' live' with ⟨rfl, -⟩ | ⟨other', old'⟩
      · rw [Function.update_self]
        exact List.not_mem_nil
      · rw [Function.update_of_ne other']
        exact lists.apart c c' old old' different a member
  case once =>
    intro c live
    rcases members c live with ⟨rfl, -⟩ | ⟨other, old⟩
    · rw [Function.update_self]
      exact List.nodup_nil
    · rw [Function.update_of_ne other]
      exact lists.once c old
  case objs =>
    intro c live
    rcases members c live with ⟨rfl, -⟩ | ⟨other, old⟩
    · rw [Table.insert_objs, Function.update_self, Function.update_self]
      rfl
    · rw [Table.insert_objs, Function.update_of_ne other, Function.update_of_ne other]
      exact lists.objs c old
  case short =>
    refine ⟨?_, fun c live => ?_⟩
    · rw [Table.insert, List.length_append]
      exact Nat.succ_le_succ lists.short.1
    · rcases members c live with ⟨rfl, -⟩ | ⟨other, old⟩
      · rw [Function.update_self]
        exact Nat.zero_le _
      · rw [Function.update_of_ne other]
        exact Nat.le_succ_of_le (lists.short.2 c old)

theorem Lists.create : (ClientCall.create mq addr).Goes h t := by
  by_cases failed : mq = -1
  · refine ⟨{ h with made := h.made + 1 }, heads, fids, ?_, ?_⟩
    · simp only [ClientCall.run, ClientCall.spec, vfsClientCreate, failed, if_true, Option.map_some]
      rfl
    · simp only [ClientCall.spec, failed, if_true]
      exact ⟨lists.clients, lists.pairs, lists.apart, lists.once, lists.objs, Nat.le_succ_of_le lists.short.1,
        fun c live => Nat.le_succ_of_le (lists.short.2 c live)⟩
  · obtain ⟨nonnull, -, freshClient⟩ := id fresh
    have spec : (ClientCall.create mq addr).spec t = ((addr : Int), t.insert addr mq) := if_neg failed
    rw [ClientCall.Goes, spec]
    have seg := lists.clients
    rcases List.eq_nil_or_concat (t.rows heads) with empty | ⟨l, e, whole⟩
    · have first : h.firstClient = 0 := by
        rw [empty] at seg
        exact seg
      have next := lists.added mq addr fresh (Function.update h.clients addr (some ⟨⟨mq, 0⟩, 0⟩)) addr (by
        rw [empty]
        exact ⟨rfl, nonnull, 0, Function.update_self .., rfl⟩)
      refine ⟨_, _, _, ?_, next⟩
      simp only [ClientCall.run, vfsClientCreate, failed, first, if_true, if_false, Option.map_some]
    · rw [List.concat_eq_append] at whole
      rw [whole] at seg
      have first : h.firstClient ≠ 0 := by
        intro none
        cases l with
        | nil => exact seg.2.1 (seg.1.symm.trans none)
        | cons e' l => exact seg.2.1 (seg.1.symm.trans none)
      have unused : addr ∉ (l ++ [e]).map Prod.fst := fun member => by
        obtain ⟨e', inside, here⟩ := List.mem_map.mp member
        obtain ⟨-, next', node⟩ := seg.live e' inside
        rw [here, freshClient] at node
        cases node
      have enough : l.length < h.made + 1 := by
        have short := lists.short.1
        have size := congrArg List.length whole
        rw [Table.rows, List.length_map, List.length_append, List.length_singleton] at size
        omega
      have found := last_seg l e (h.made + 1) enough (seg.update_away (some ⟨⟨mq, 0⟩, 0⟩) unused)
      obtain ⟨m, linked, seg', -⟩ := seg.snoc addr ⟨mq, 0⟩ nonnull freshClient
      rw [← whole] at seg'
      refine ⟨_, _, _, ?_, lists.added mq addr fresh m h.firstClient seg'⟩
      simp only [ClientCall.run, vfsClientCreate, failed, first, if_false, found, Option.bind_some, linked,
        Option.map_some]

end Create

theorem Lists.goes {h : Vfs} {t : Table} {heads : Nat → Nat} {fids : Nat → List (Nat × FidData)}
    (lists : Lists h t heads fids) (call : ClientCall) (legal : call.Legal h t) (fits : call.Fits h t) :
    call.Goes h t := by
  cases call with
  | create mq addr => exact lists.create mq addr legal
  | fidAdd client fid obj addr => exact lists.fidAdd client legal.1 fid obj addr legal.2 fits
  | fidUpdate client fid obj => exact lists.fidUpdate client legal fid obj
  | fidRemove client fid => exact lists.fidRemove client legal fid fits
  | remove client => exact absurd fits id

/-- While each fid is added once and neither a client nor its first pair is removed, the library is the table
of its clients' objects, and no call uses memory that is not allocated. -/
theorem clients_refine (s : Vfs × Table)
    (run : Run ClientCall.Step (fun s call => call.Legal s.1 s.2 ∧ call.Fits s.1 s.2) noClients s) :
    Refines s.1 s.2 ∧ ∀ call : ClientCall, call.Legal s.1 s.2 → call.Fits s.1 s.2 →
      ∃ h', call.run s.1 = some ((call.spec s.2).1, h') := by
  obtain ⟨heads, fids, lists⟩ : ∃ heads fids, Lists s.1 s.2 heads fids := by
    refine run.invariant (fun s => ∃ heads fids, Lists s.1 s.2 heads fids) ⟨_, _, noClients_lists⟩ ?_
    rintro ⟨h, t⟩ call ⟨h', t'⟩ ⟨heads, fids, lists⟩ fine ⟨r, result, rfl⟩
    obtain ⟨h'', heads', fids', goes, next⟩ := lists.goes call fine.1 fine.2
    obtain ⟨-, rfl⟩ := Prod.mk.inj (Option.some.inj (result.symm.trans goes))
    exact ⟨heads', fids', next⟩
  refine ⟨lists.refines, fun call legal fits => ?_⟩
  obtain ⟨h', -, -, goes, -⟩ := lists.goes call legal fits
  exact ⟨h', goes⟩

-- The state after a call, when it goes through.
def ClientCall.next (s : Vfs × Table) (call : ClientCall) : Vfs × Table :=
  ((call.run s.1).elim s.1 Prod.snd, (call.spec s.2).2)

-- A client, and its only fid added and removed.
def oneClient : Vfs × Table := (ClientCall.create 5 16).next noClients

def oneFid : Vfs × Table := (ClientCall.fidAdd 16 1 64 32).next oneClient

def noFid : Vfs × Table := (ClientCall.fidRemove 16 1).next oneFid

theorem clients_refine_added : Refines oneFid.1 oneFid.2 :=
  (clients_refine _ (.next oneClient oneFid (.fidAdd 16 1 64 32)
    (.next noClients oneClient (.create 5 16) .start ⟨⟨by decide, rfl, rfl⟩, trivial⟩ ⟨16, rfl, rfl⟩)
    ⟨⟨by decide, by decide, rfl, rfl⟩, rfl⟩ ⟨32, rfl, rfl⟩)).1

/-- After its only fid has been removed a client still names the pair, which is freed. -/
theorem removed_fid_dangles : ¬ ∀ s, Run ClientCall.Step (fun s call => call.Legal s.1 s.2) noClients s →
    Refines s.1 s.2 := by
  intro claim
  have refines := claim noFid (.next oneFid noFid (.fidRemove 16 1)
    (.next oneClient oneFid (.fidAdd 16 1 64 32)
      (.next noClients oneClient (.create 5 16) .start ⟨by decide, rfl, rfl⟩ ⟨16, rfl, rfl⟩)
      ⟨by decide, by decide, rfl, rfl⟩ ⟨32, rfl, rfl⟩)
    (show 16 ∈ oneFid.2.live by decide) ⟨0, rfl, rfl⟩)
  have got := refines.get 16 (by decide) 1
  have dangling : vfsClientFidGet 16 1 noFid.1 = none := by decide +kernel
  rw [dangling] at got
  cases got

end Anthill
