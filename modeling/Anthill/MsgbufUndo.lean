import Anthill.KernelFrees
import Anthill.MsgbufDisconnect

set_option autoImplicit false

namespace Anthill

open Radix

-- Whether an id is one of a live message buffer.
def Registry.Has (reg : Registry) (id : Int) : Prop := 0 ≤ id ∧ reg.Live id.toNat

-- The pages of message buffer `n` where its connection `c` has them: in the process of the receiver's owner.
def MsgSys.lentPages (s : MsgSys) (n : Nat) (c : Fin maxConn) : List UserPage :=
  userPages (s.sys.table (s.reg.buf ((s.reg.buf n).connections c).id.toNat).owner) ((s.reg.buf n).connections c).addr 0
    (memSizeToPages (s.reg.buf n).size).toNat

/-- Connections that can be undone one after the other, unless message buffer `n` has no pages: the receivers are there,
and so are all the pages. -/
structure MsgSys.Undoes (s : MsgSys) (n : Nat) (conns : List (Fin maxConn)) : Prop where
  there : (memSizeToPages (s.reg.buf n).size).toNat ≠ 0 → ∀ c, c ∈ conns → s.reg.Has ((s.reg.buf n).connections c).id
  pages : UnmapsAll s.sys.kernel.mem (conns.flatMap (s.lentPages n))

-- The receivers are there, unless message buffer `n` has no pages.
def MsgSys.There (s : MsgSys) (n : Nat) (conns : List (Fin maxConn)) : Prop :=
  (memSizeToPages (s.reg.buf n).size).toNat ≠ 0 → ∀ c, c ∈ conns → s.reg.Has ((s.reg.buf n).connections c).id

-- The system with connection `c` of message buffer `n` emptied.
def MsgSys.emptied (s : MsgSys) (n : Nat) (c : Fin maxConn) (k : Kernel) : MsgSys :=
  ⟨s.sys.setKernel k, s.reg.setBuf n fun msgbuf => msgbuf.setConn c ⟨-1, 0⟩⟩

theorem Registry.get_has {reg : Registry} (listed : reg.nodes ≠ []) (last : reg.next = 0) (id : Int) :
    (msgbufGet reg id = .ok none ∧ ¬ reg.Has id) ∨ (msgbufGet reg id = .ok (some id.toNat) ∧ reg.Has id) := by
  rw [msgbufGet_eq reg id listed last]
  by_cases missing : id < 0 ∨ (reg.buf id.toNat).name = []
  · rw [if_pos missing]
    exact .inl ⟨rfl, fun has => missing.elim (fun negative => absurd has.1 (by omega)) has.2⟩
  · rw [if_neg missing]
    push Not at missing
    exact .inr ⟨rfl, missing⟩

theorem Msgbuf.OneEach.search {msgbuf : Msgbuf} (each : msgbuf.OneEach) (c : Fin maxConn)
    (used : (msgbuf.connections c).id ≠ -1) : connSearch msgbuf (msgbuf.connections c).id = c := by
  have first : (Slots.first fun i => decide ((msgbuf.connections i).id = (msgbuf.connections c).id)) = some c :=
    Slots.first_unique _ c (decide_eq_true rfl) fun i same => (each c i used (of_decide_eq_true same).symm).symm
  rw [connSearch, first, Option.getD_some]

section Emptied

variable (s : MsgSys) (n : Nat) (c : Fin maxConn) (k : Kernel)

theorem emptied_buf (m : Nat) : ∃ conns, ((s.emptied n c k).reg.buf m) = { s.reg.buf m with connections := conns } ∧
    ∀ c', m = n → c' ≠ c → conns c' = (s.reg.buf n).connections c' := by
  by_cases here : m = n
  · subst here
    by_cases inside : m < s.reg.nodes.length * nodeBufCnt
    · refine ⟨_, s.reg.buf_setBuf_self m _ inside, fun c' _ other => ?_⟩
      rw [Function.update_of_ne other]
    · exact ⟨_, s.reg.setBuf_outside m _ inside m, fun _ _ _ => rfl⟩
  · exact ⟨_, s.reg.buf_setBuf_of_ne n _ m here, fun _ same => absurd same here⟩

theorem emptied_live (m : Nat) : (s.emptied n c k).reg.Live m ↔ s.reg.Live m := by
  obtain ⟨conns, after, _⟩ := emptied_buf s n c k m
  rw [Registry.Live, after]
  rfl

theorem emptied_owner (m : Nat) : ((s.emptied n c k).reg.buf m).owner = (s.reg.buf m).owner := by
  obtain ⟨conns, after, _⟩ := emptied_buf s n c k m
  rw [after]

theorem emptied_size : ((s.emptied n c k).reg.buf n).size = (s.reg.buf n).size := by
  obtain ⟨conns, after, _⟩ := emptied_buf s n c k n
  rw [after]

theorem emptied_addr : ((s.emptied n c k).reg.buf n).addr = (s.reg.buf n).addr := by
  obtain ⟨conns, after, _⟩ := emptied_buf s n c k n
  rw [after]

theorem emptied_conn (c' : Fin maxConn) (other : c' ≠ c) :
    ((s.emptied n c k).reg.buf n).connections c' = (s.reg.buf n).connections c' := by
  obtain ⟨conns, after, kept⟩ := emptied_buf s n c k n
  rw [after]
  exact kept c' rfl other

-- The others are used as before.
theorem emptied_filter (conns : List (Fin maxConn)) (new : c ∉ conns) :
    (conns.filter fun c' => (((s.emptied n c k).reg.buf n).connections c').id ≠ -1) =
      conns.filter fun c' => ((s.reg.buf n).connections c').id ≠ -1 :=
  List.filter_congr fun c' listed => by rw [emptied_conn s n c k c' fun same => new (same ▸ listed)]

theorem emptied_lentPages (c' : Fin maxConn) (other : c' ≠ c) :
    (s.emptied n c k).lentPages n c' = s.lentPages n c' := by
  simp only [MsgSys.lentPages, emptied_conn s n c k c' other, emptied_owner, emptied_size]
  rfl

theorem emptied_has (c' : Fin maxConn) (other : c' ≠ c) :
    (s.emptied n c k).reg.Has (((s.emptied n c k).reg.buf n).connections c').id ↔
      s.reg.Has ((s.reg.buf n).connections c').id := by
  rw [emptied_conn s n c k c' other]
  exact and_congr_right fun _ => emptied_live s n c k _

theorem emptied_there (conns : List (Fin maxConn)) (others : ∀ c', c' ∈ conns → c' ≠ c) :
    (s.emptied n c k).There n conns ↔ s.There n conns := by
  rw [MsgSys.There, MsgSys.There, emptied_size]
  exact imp_congr_right fun _ => forall₂_congr fun c' listed => emptied_has s n c k c' (others c' listed)

theorem emptied_flatMap (conns : List (Fin maxConn)) (others : ∀ c', c' ∈ conns → c' ≠ c) :
    conns.flatMap ((s.emptied n c k).lentPages n) = conns.flatMap (s.lentPages n) :=
  List.flatMap_congr fun c' listed => emptied_lentPages s n c k c' (others c' listed)

end Emptied

/-- What the steps of _conn_free rely on. -/
structure MsgSys.Steady (s : MsgSys) (pos : Pos) (n : Nat) : Prop where
  listed : s.reg.nodes ≠ []
  last : s.reg.next = 0
  each : (s.reg.buf n).OneEach
  wf : KernelWf s.sys.kernel
  layout : UserLayout s.sys.kernel pos
  owners : ∀ m, s.reg.Live m → pos (s.sys.table (s.reg.buf m).owner) = some []

section Steady

variable {s : MsgSys} {pos : Pos} {n : Nat} (steady : s.Steady pos n)

include steady

theorem MsgSys.Steady.emptied (c : Fin maxConn) {k : Kernel} (wf : KernelWf k) (layout : UserLayout k pos) :
    (s.emptied n c k).Steady pos n where
  listed := by
    rw [ne_eq, ← List.length_eq_zero_iff, MsgSys.emptied, Registry.setBuf_length, List.length_eq_zero_iff]
    exact steady.listed
  last := steady.last
  each := by
    by_cases inside : n < s.reg.nodes.length * nodeBufCnt
    · rw [MsgSys.emptied, s.reg.buf_setBuf_self n _ inside]
      exact steady.each.drop (.setConn c)
    · rw [MsgSys.emptied, s.reg.setBuf_outside n _ inside]
      exact steady.each
  wf := wf
  layout := layout
  owners m live := by
    rw [emptied_owner]
    exact steady.owners m ((emptied_live s n c k m).mp live)

omit steady in
theorem connFree_eq (c : Fin maxConn) {recvId : Int} (search : connSearch (s.reg.buf n) recvId = c)
    (receiver : Option Nat) (found : msgbufGet s.reg ((s.reg.buf n).connections c).id = .ok receiver) :
    connFree s n recvId = (unmapReceiver s ((s.reg.buf n).connections c) receiver
      (memSizeToPages (s.reg.buf n).size).toNat).map fun k => (.ok, s.emptied n c k) := by
  simp only [connFree, search, found]
  rfl

theorem connFree_keeps (c : Fin maxConn) {recvId : Int} (search : connSearch (s.reg.buf n) recvId = c) {k : Kernel}
    (done : connFree s n recvId = .ok (.ok, s.emptied n c k)) :
    KernelWf k ∧ UserLayout k pos ∧ Clears pos s.sys.kernel k := by
  have kernel (k' : Kernel) (same : (KernErr.ok, s.emptied n c k) = (.ok, s.emptied n c k')) : k = k' :=
    congrArg (fun r => r.2.sys.kernel) same
  rcases Registry.get_has steady.listed steady.last ((s.reg.buf n).connections c).id with ⟨found, _⟩ | ⟨found, has⟩ <;>
    rw [connFree_eq c search _ found] at done <;> obtain ⟨k', freed, same⟩ := (map_ok _ _ _).mp done <;>
    rw [kernel k' same] <;> unfold unmapReceiver at freed <;> split_ifs at freed with empty
  · exact Except.ok.inj freed ▸ ⟨steady.wf, steady.layout, .refl pos _⟩
  · exact Except.ok.inj freed ▸ ⟨steady.wf, steady.layout, .refl pos _⟩
  · have process : Process s.sys.kernel pos _ := ⟨steady.wf, steady.layout, steady.owners _ has.2⟩
    have only := unmapConn_only _ _ _ _ process freed
    exact ⟨only.wf, only.layout, unmapConn_clears process _ _ _ freed⟩

/-- _conn_free of the connection that its search comes to. -/
theorem connFree_undoes (c : Fin maxConn) {recvId : Int} (search : connSearch (s.reg.buf n) recvId = c)
    (pages : List UserPage) (roots : ∀ page, page ∈ pages → pos page.table = some []) :
    (((memSizeToPages (s.reg.buf n).size).toNat ≠ 0 → s.reg.Has ((s.reg.buf n).connections c).id) ∧
        UnmapsAll s.sys.kernel.mem (s.lentPages n c ++ pages)) ↔
      ∃ k, connFree s n recvId = .ok (.ok, s.emptied n c k) ∧ UnmapsAll k.mem pages := by
  have kernel (k k' : Kernel) (same : (KernErr.ok, s.emptied n c k) = (.ok, s.emptied n c k')) : k = k' :=
    congrArg (fun r => r.2.sys.kernel) same
  rw [MsgSys.lentPages]
  by_cases empty : (memSizeToPages (s.reg.buf n).size).toNat = 0
  · obtain ⟨receiver, found⟩ : ∃ receiver, msgbufGet s.reg ((s.reg.buf n).connections c).id = .ok receiver :=
      ⟨_, msgbufGet_eq s.reg _ steady.listed steady.last⟩
    have done : connFree s n recvId = .ok (.ok, s.emptied n c s.sys.kernel) := by
      rw [connFree_eq c search receiver found]
      simp only [unmapReceiver, if_pos empty]
      rfl
    rw [empty, done]
    constructor
    · rintro ⟨_, all⟩
      exact ⟨s.sys.kernel, rfl, all⟩
    · rintro ⟨k, same, all⟩
      exact ⟨fun some => absurd rfl some, kernel _ _ (Except.ok.inj same) ▸ all⟩
  · rcases Registry.get_has steady.listed steady.last ((s.reg.buf n).connections c).id with
      ⟨missing, gone⟩ | ⟨found, has⟩
    · refine iff_of_false (fun both => gone (both.1 empty)) ?_
      rintro ⟨k, done, _⟩
      rw [connFree_eq c search none missing, unmapReceiver, if_neg empty] at done
      cases done
    · rw [connFree_eq c search _ found, unmapReceiver, if_neg empty,
        unmapConn_all _ _ _ _ ⟨steady.wf, steady.layout, steady.owners _ has.2⟩ pages roots]
      constructor
      · rintro ⟨_, k, freed, all⟩
        exact ⟨k, by rw [freed]; rfl, all⟩
      · rintro ⟨k, done, all⟩
        obtain ⟨k', freed, same⟩ := (map_ok _ _ _).mp done
        exact ⟨fun _ => has, k, kernel _ _ same ▸ freed, all⟩

-- The pages of connections to receivers that are there are pages of processes.
theorem lentPages_roots (conns : List (Fin maxConn)) (there : s.There n conns) (page : UserPage)
    (listed : page ∈ conns.flatMap (s.lentPages n)) : pos page.table = some [] := by
  obtain ⟨c, used, own⟩ := List.mem_flatMap.mp listed
  obtain ⟨p, _, inside, rfl⟩ := (mem_userPages _ _ _ _ _).mp own
  exact steady.owners _ (there (by omega) c used).2

end Steady

/-- The loop of msgbuf_close over the connections: those that are used are undone, and what comes after it depends on the
entries that it has cleared. -/
theorem closeConns_all {pos : Pos} (n : Nat) (pages : List UserPage) (roots : ∀ page, page ∈ pages → pos page.table = some [])
    (conns : List (Fin maxConn)) (apart : conns.Nodup) : ∀ s : MsgSys, s.Steady pos n →
      ((∃ s', closeConns n s conns = .ok s' ∧ UnmapsAll s'.sys.kernel.mem pages) ↔
        s.There n (conns.filter fun c => ((s.reg.buf n).connections c).id ≠ -1) ∧ UnmapsAll s.sys.kernel.mem
          ((conns.filter fun c => ((s.reg.buf n).connections c).id ≠ -1).flatMap (s.lentPages n) ++ pages)) := by
  induction conns with
  | nil =>
    intro s _
    constructor
    · rintro ⟨_, same, all⟩
      exact ⟨fun _ _ listed => (by cases listed), Except.ok.inj same ▸ all⟩
    · exact fun all => ⟨s, rfl, all.2⟩
  | cons c conns ih =>
    intro s steady
    obtain ⟨new, apart⟩ := List.nodup_cons.mp apart
    by_cases closed : ((s.reg.buf n).connections c).id = -1
    · rw [List.filter_cons_of_neg (by simpa using closed), closeConns, if_pos closed]
      exact ih apart s steady
    · rw [List.filter_cons_of_pos (by simpa using closed), closeConns, if_neg closed]
      have search := steady.each.search c closed
      obtain ⟨left, is⟩ : ∃ left, left = conns.filter fun c' => ((s.reg.buf n).connections c').id ≠ -1 := ⟨_, rfl⟩
      have others (c' : Fin maxConn) (listed : c' ∈ left) : c' ≠ c := fun same =>
        new (same ▸ List.mem_of_mem_filter (is ▸ listed))
      have next (k : Kernel) (steady' : (s.emptied n c k).Steady pos n) :
          (∃ s', closeConns n (s.emptied n c k) conns = .ok s' ∧ UnmapsAll s'.sys.kernel.mem pages) ↔
            s.There n left ∧ UnmapsAll k.mem (left.flatMap (s.lentPages n) ++ pages) := by
        rw [ih apart _ steady', emptied_filter s n c k conns new, ← is, emptied_there s n c k left others, emptied_flatMap s n c k left others]
        rfl
      have later (there : s.There n left) (page : UserPage) (listed : page ∈ left.flatMap (s.lentPages n) ++ pages) :
          pos page.table = some [] :=
        (List.mem_append.mp listed).elim (lentPages_roots steady left there page) (roots page)
      rw [← is, List.flatMap_cons, List.append_assoc]
      constructor
      · rintro ⟨s', done, after⟩
        rcases freed : connFree s n ((s.reg.buf n).connections c).id with halt | ⟨err, s₁⟩
        · rw [freed] at done
          cases done
        · rw [freed] at done
          obtain ⟨rfl, k, rfl⟩ := connFree_ok _ _ _ _ _ freed
          rw [search] at freed done
          obtain ⟨wf, layout, _⟩ := connFree_keeps steady c search freed
          obtain ⟨there, all⟩ := (next k (steady.emptied c wf layout)).mp ⟨s', done, after⟩
          obtain ⟨here, pages⟩ := (connFree_undoes steady c search _ (later there)).mpr ⟨k, freed, all⟩
          refine ⟨fun some c' listed => ?_, pages⟩
          rcases List.mem_cons.mp listed with rfl | later
          · exact here some
          · exact there some c' later
      · rintro ⟨there, all⟩
        have there' : s.There n left := fun some c' listed => there some c' (List.mem_cons_of_mem c listed)
        obtain ⟨k, freed, all'⟩ := (connFree_undoes steady c search _ (later there')).mp
          ⟨fun some => there some c List.mem_cons_self, all⟩
        obtain ⟨wf, layout, _⟩ := connFree_keeps steady c search freed
        rw [freed]
        exact (next k (steady.emptied c wf layout)).mpr ⟨there', all'⟩

theorem closeConns_undoes {pos : Pos} (n : Nat) (conns : List (Fin maxConn)) (apart : conns.Nodup) (s : MsgSys)
    (steady : s.Steady pos n) : (∃ s', closeConns n s conns = .ok s') ↔
      s.Undoes n (conns.filter fun c => ((s.reg.buf n).connections c).id ≠ -1) := by
  have all := closeConns_all n [] (fun _ listed => by cases listed) conns apart s steady
  rw [List.append_nil] at all
  constructor
  · rintro ⟨s', done⟩
    obtain ⟨there, pages⟩ := all.mp ⟨s', done, .nil _⟩
    exact ⟨there, pages⟩
  · rintro ⟨there, pages⟩
    obtain ⟨s', done, _⟩ := all.mpr ⟨there, pages⟩
    exact ⟨s', done⟩

/-- What the loop over the connections leaves as it was. -/
structure MsgSys.Disconnected (pos : Pos) (n : Nat) (s s' : MsgSys) : Prop where
  sys : s'.sys = s.sys.setKernel s'.sys.kernel
  addr : (s'.reg.buf n).addr = (s.reg.buf n).addr
  size : (s'.reg.buf n).size = (s.reg.buf n).size
  clears : Clears pos s.sys.kernel s'.sys.kernel

theorem closeConns_keeps {pos : Pos} (n : Nat) (conns : List (Fin maxConn)) :
    ∀ s s' : MsgSys, s.Steady pos n → closeConns n s conns = .ok s' → s'.Steady pos n ∧ s.Disconnected pos n s' := by
  induction conns with
  | nil =>
    intro s s' steady done
    exact Except.ok.inj done ▸ ⟨steady, rfl, rfl, rfl, .refl pos _⟩
  | cons c conns ih =>
    intro s s' steady done
    unfold closeConns at done
    split_ifs at done with closed
    · exact ih s s' steady done
    · rcases freed : connFree s n ((s.reg.buf n).connections c).id with halt | ⟨err, s₁⟩
      · rw [freed] at done
        cases done
      · rw [freed] at done
        obtain ⟨rfl, k, rfl⟩ := connFree_ok _ _ _ _ _ freed
        obtain ⟨wf, layout, clears⟩ := connFree_keeps steady _ rfl freed
        obtain ⟨steady', rest⟩ := ih _ s' (steady.emptied _ wf layout) done
        exact ⟨steady', rest.sys, rest.addr.trans (emptied_addr s n _ k), rest.size.trans (emptied_size s n _ k),
          clears.trans rest.clears⟩

theorem userWalk_ends {A : Type} (m : Mem) (t v : Word) (miss : A) (hit : Word → Idx → A) :
    userWalk m t v miss hit = miss ∨ ∃ level i, userWalk m t v miss hit = hit level i := by
  unfold userWalk
  simp only
  split_ifs <;> first | exact .inl rfl | exact .inr ⟨_, _, rfl⟩

theorem Kernel.TopTables.unmap {k : Kernel} (top : k.TopTables) (t v : Word) : (memUserUnmapPage k t v).2.TopTables := by
  unfold memUserUnmapPage
  rcases userWalk_ends k.mem t v (⟨0, .memUnm⟩, k) (unmapEntry k) with missed | ⟨level, i, hit⟩
  · rw [missed]
    exact top
  · rw [hit]
    by_cases zero : refCount (k.mem level i) = 0
    · rw [unmapEntry_owned k level i zero]
      exact top
    · rw [unmapEntry_shared k level i zero]
      exact top.clear level i rfl rfl

/-- The loop of msgbuf_close over the pages frees what it finds, or returns ERR_MEM_UNM. -/
theorem closePages_returns (t addr : Word) (count i : Nat) {k : Kernel} (top : k.TopTables) :
    ∃ err k', closePages t addr k i count = .ok (err, k') ∧ (err = .ok ∨ err = .memUnm) := by
  induction count generalizing k i with
  | zero => exact ⟨_, k, rfl, .inl rfl⟩
  | succ count ih =>
    obtain ⟨err, k', freed, rfl | rfl, top'⟩ := memKernelFreePage_returns (top.unmap t (pageAt addr i))
      (memUserGetKaddr k.mem t (pageAt addr i)) <;> simp only [closePages, freed]
    · exact ih (i + 1) top'
    · exact ⟨_, k', rfl, .inr rfl⟩

-- The connections of a message buffer that are used.
def Msgbuf.usedConns (msgbuf : Msgbuf) : List (Fin maxConn) :=
  (List.finRange maxConn).filter fun c => (msgbuf.connections c).id ≠ -1

/-- msgbuf_close of a message buffer with pages comes back exactly when its connections can be undone. -/
theorem msgbufClose_undoes {s : MsgSys} {pos : Pos} {id : Int} {n : Nat} (steady : s.Steady pos n)
    (found : msgbufGet s.reg id = .ok (some n)) (owned : s.owns n) (given : (s.reg.buf n).addr ≠ 0) :
    (∃ r, msgbufClose s id = .ok r) ↔ s.Undoes n (s.reg.buf n).usedConns := by
  rw [Msgbuf.usedConns, ← closeConns_undoes n _ (List.nodup_finRange maxConn) s steady]
  simp only [msgbufClose, found, not_true, owned, if_false, if_neg given]
  constructor
  · rintro ⟨r, done⟩
    split at done
    · cases done
    next s' freed => exact ⟨s', freed⟩
  · rintro ⟨s', freed⟩
    have top := (closeConns_keeps n _ s s' steady freed).1.wf.topTables
    obtain ⟨err, k, closed, rfl | rfl⟩ := closePages_returns (s'.sys.table s'.sys.current) (s'.reg.buf n).addr
      (memSizeToPages (s'.reg.buf n).size).toNat 0 top <;> simp only [freed, closed] <;> exact ⟨_, rfl⟩

/-- msgbuf_disconnect comes back exactly when the connection that its search comes to can be undone. -/
theorem msgbufDisconnect_undoes {s : MsgSys} {pos : Pos} {sendId recvId : Int} {n r : Nat} (steady : s.Steady pos n)
    (foundN : msgbufGet s.reg sendId = .ok (some n)) (foundR : msgbufGet s.reg recvId = .ok (some r)) (owned : s.owns n) :
    (∃ r, msgbufDisconnect s sendId recvId = .ok r) ↔ s.Undoes n [connSearch (s.reg.buf n) recvId] := by
  have search : connSearch (s.reg.buf n) recvId = connSearch (s.reg.buf n) recvId := rfl
  have step := connFree_undoes steady _ search [] fun _ listed => by cases listed
  simp only [msgbufDisconnect, foundN, foundR, if_pos owned]
  constructor
  · rintro ⟨⟨err, s'⟩, done⟩
    obtain ⟨rfl, k, rfl⟩ := connFree_ok _ _ _ _ _ done
    obtain ⟨there, pages⟩ := step.mpr ⟨k, done, .nil _⟩
    refine ⟨fun some c listed => ?_, by rwa [List.flatMap_singleton, ← List.append_nil (s.lentPages n _)]⟩
    rw [List.mem_singleton.mp listed]
    exact there some
  · rintro ⟨there, pages⟩
    obtain ⟨k, done, _⟩ := step.mp ⟨fun some => there some _ (List.mem_singleton_self _), by
      rwa [List.flatMap_singleton, ← List.append_nil (s.lentPages n _)] at pages⟩
    exact ⟨_, done⟩

end Anthill
