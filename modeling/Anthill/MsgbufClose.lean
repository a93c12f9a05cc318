import Anthill.MsgbufUndo
import Mathlib.Data.List.TakeWhile

set_option autoImplicit false

namespace Anthill

open Radix

theorem UserLayout.unranked {k : Kernel} {pos : Pos} (layout : UserLayout k pos) (p : Word) (q : List Idx)
    (here : pos p = some q) : k.rank p = none := (rank_none k p).mpr (layout.inUse p q here).2

theorem Clears.ranked {k k' : Kernel} {pos : Pos} {rank : Word → Option Nat} (clears : Clears pos k k')
    (apart : ∀ p q, pos p = some q → rank p = none) (p : Word) (table : rank p ≠ none) : k'.mem p = k.mem p := by
  refine clears.rows p ?_
  cases here : pos p with
  | none => rfl
  | some q => exact absurd (apart p q here) table

/-- `k` is `u` but for the kernel's own tables, in which mem_kernel_free_page has cleared entries. Those of `u` are
well-formed. -/
structure Twin (pos : Pos) (rank : Word → Option Nat) (t : Word) (k u : Kernel) : Prop where
  ranked : KernelRanked k rank
  process : Process u pos t
  agree : ∀ p q, pos p = some q → k.mem p = u.mem p
  apart : ∀ p q, pos p = some q → rank p = none
  null : k.leafAt 0 = none

namespace Twin

variable {pos : Pos} {rank : Word → Option Nat} {t : Word} {k u : Kernel} (twin : Twin pos rank t k u)

include twin

theorem kaddr (v : Word) : memUserGetKaddr k.mem t v = memUserGetKaddr u.mem t v :=
  twin.process.walk_keeps twin.agree v 0 _ _ fun p q i position => by rw [twin.agree p q position]

theorem clears (v : Word) : ((memUserUnmapPage u t v).2 = u ∧ (memUserUnmapPage k t v).2 = k) ∨
    ∃ level3 q i, pos level3 = some q ∧ (memUserUnmapPage u t v).2 = u.write level3 i 0 ∧
      (memUserUnmapPage k t v).2 = k.write level3 i 0 := by
  have process := twin.process
  unfold memUserUnmapPage
  rw [process.walk_keeps twin.agree v (⟨0, .memUnm⟩, k) (unmapEntry k) (unmapEntry k) fun _ _ _ _ => rfl,
    userWalk_eq u pos process.layout t process.root, userWalk_eq u pos process.layout t process.root]
  cases walk : node nav u.mem t (upperIdx v) with
  | none => exact .inl ⟨rfl, rfl⟩
  | some level3 =>
    have here := layout_node u pos process.layout t process.root (upperIdx v) level3 (by simp [upperIdx]) walk
    have same : k.mem level3 (leafIdx v) = u.mem level3 (leafIdx v) := by rw [twin.agree level3 _ here]
    cases valid : mmuIsValid (u.mem level3 (leafIdx v)) with
    | false => exact .inl (by simp [valid])
    | true =>
      simp only [valid, if_true]
      by_cases zero : refCount (u.mem level3 (leafIdx v)) = 0
      · rw [unmapEntry_owned u _ _ zero, unmapEntry_owned k _ _ (same ▸ zero)]
        exact .inl ⟨rfl, rfl⟩
      · rw [unmapEntry_shared u _ _ zero, unmapEntry_shared k _ _ (same ▸ zero)]
        exact .inr ⟨level3, _, _, here, rfl, rfl⟩

/-- A page that is unmapped from both leaves them alike, and is not seen by the kernel's walks. -/
theorem unmap (v : Word) : Twin pos rank t (memUserUnmapPage k t v).2 (memUserUnmapPage u t v).2 ∧
    ∀ vas, FreesAll (memUserUnmapPage k t v).2 vas ↔ FreesAll k vas := by
  have process := unmapPage_stays twin.process v
  rcases twin.clears v with ⟨keepsU, keepsK⟩ | ⟨level3, q, i, here, clearsU, clearsK⟩
  · rw [keepsU, keepsK]
    exact ⟨twin, fun _ => Iff.rfl⟩
  · rw [clearsU] at process ⊢
    rw [clearsK]
    have rows (p : Word) (table : rank p ≠ none) : (k.write level3 i 0).mem p = k.mem p := by
      refine put_page_other _ _ _ _ _ ?_
      rintro rfl
      exact table (twin.apart _ q here)
    refine ⟨⟨?_, process, ?_, twin.apart, ?_⟩, fun vas => twin.ranked.freesAll_same rows rfl vas⟩
    · exact twin.ranked.shrink rfl fun p j _ table => by rw [rows p table]
    · intro p r position
      rw [Kernel.write_mem, Kernel.write_mem]
      funext j
      rw [put, put, twin.agree p r position]
    · rw [(twin.ranked.walks_same rows rfl 0).2]
      exact twin.null

/-- A page that is given back is one that only the kernel's tables lose. -/
theorem free (entry : Word) {k' : Kernel} (freed : memKernelFreePage k (mmuGetVaddr entry) = .ok (.ok, k')) :
    Twin pos rank t k' u := by
  have reclaimed := memKernelFreePage_any twin.ranked entry .ok freed
  refine ⟨reclaimed.ranked, twin.process, fun p q position => ?_, twin.apart, ?_⟩
  · rw [reclaimed.rows p (twin.apart p q position), twin.agree p q position]
  · rcases memKernelFreePage_leaf twin.ranked.topTables (mmuGetVaddr entry) with
      ⟨_, missed⟩ | ⟨a, j, k₁, _, done, mem, root⟩
    · rw [missed] at freed
      cases freed
    · rw [done] at freed
      obtain ⟨-, rfl⟩ := Prod.mk.inj (Except.ok.inj freed)
      exact Kernel.leafAt_lost mem root twin.null

end Twin

theorem closePages_step (t addr : Word) (k : Kernel) (i count : Nat) :
    (∃ k', closePages t addr k i (count + 1) = .ok (.ok, k')) ↔ ∃ k₁,
      memKernelFreePage (memUserUnmapPage k t (pageAt addr i)).2 (memUserGetKaddr k.mem t (pageAt addr i)) = .ok (.ok, k₁) ∧
      ∃ k', closePages t addr k₁ (i + 1) count = .ok (.ok, k') := by
  simp only [closePages]
  rcases memKernelFreePage (memUserUnmapPage k t (pageAt addr i)).2 (memUserGetKaddr k.mem t (pageAt addr i)) with
    halt | ⟨err, k₁⟩
  · refine iff_of_false ?_ ?_
    · rintro ⟨_, done⟩
      cases done
    · rintro ⟨_, freed, _⟩
      cases freed
  · by_cases fine : err = .ok
    · subst fine
      refine ⟨fun done => ⟨k₁, rfl, done⟩, ?_⟩
      rintro ⟨_, freed, done⟩
      obtain ⟨-, rfl⟩ := Prod.mk.inj (Except.ok.inj freed)
      exact done
    · refine iff_of_false ?_ ?_
      · rintro ⟨_, done⟩
        cases err <;> first | exact fine rfl | cases done
      · rintro ⟨_, freed, _⟩
        exact fine (Prod.mk.inj (Except.ok.inj freed)).1

/-- The loop of msgbuf_close over the pages gets through exactly when all of them are mapped, and so are the kernel's
addresses of them. -/
theorem closePages_all {pos : Pos} {rank : Word → Option Nat} (t addr : Word) (count i : Nat) {k u : Kernel}
    (twin : Twin pos rank t k u) : (∃ k', closePages t addr k i count = .ok (.ok, k')) ↔
      UnmapsAll u.mem (userPages t addr i count) ∧
        FreesAll k ((userPages t addr i count).map fun page => page.kaddr u.mem) := by
  induction count generalizing k u i with
  | zero => exact iff_of_true ⟨k, rfl⟩ ⟨.nil _, fun _ listed => (by cases listed), List.Pairwise.nil⟩
  | succ count ih =>
    have process := twin.process
    have split : userPages t addr i (count + 1) = ⟨t, pageAt addr i⟩ :: userPages t addr (i + 1) count := by
      rw [userPages, List.range'_succ]
      rfl
    have roots (page : UserPage) (listed : page ∈ ⟨t, pageAt addr i⟩ :: userPages t addr (i + 1) count) :
        page.table = t := by
      rcases List.mem_cons.mp listed with rfl | later
      · rfl
      · obtain ⟨_, _, _, rfl⟩ := (mem_userPages _ _ _ _ _).mp later
        rfl
    obtain ⟨after, same⟩ := twin.unmap (pageAt addr i)
    rw [closePages_step, split, List.map_cons, twin.kaddr]
    by_cases missing : userEntry u.mem t (pageAt addr i) = 0
    · -- NULL is not mapped.
      refine iff_of_false ?_ fun both => both.1.mapped _ List.mem_cons_self missing
      rintro ⟨k₁, freed, _⟩
      rw [process.kaddr_entry, if_pos missing] at freed
      rcases memKernelFreePage_leaf after.ranked.topTables 0 with ⟨_, missed⟩ | ⟨a, j, _, leaf, _⟩
      · rw [missed] at freed
        cases freed
      · rw [after.null] at leaf
        cases leaf
    · have entry : (⟨t, pageAt addr i⟩ : UserPage).kaddr u.mem = mmuGetVaddr (userEntry u.mem t (pageAt addr i)) := by
        rw [UserPage.kaddr, process.kaddr_entry, if_neg missing]
      have unmaps : UnmapsAll u.mem (⟨t, pageAt addr i⟩ :: userPages t addr (i + 1) count) ↔
          UnmapsAll (memUserUnmapPage u t (pageAt addr i)).2.mem (userPages t addr (i + 1) count) := by
        rw [unmapsAll_step process.wf process.layout _ _ fun page listed => (roots page listed).symm ▸ process.root]
        obtain ⟨page, done⟩ : ∃ page, (memUserUnmapPage u t (pageAt addr i)).1 = ⟨page, .ok⟩ := by
          rcases unmapPage_outcome process (pageAt addr i) with
            ⟨gone, _⟩ | ⟨_, _, page, result⟩ | ⟨_, _, _, _, _, result⟩
          · exact absurd gone missing
          · exact ⟨page, by rw [result]⟩
          · exact ⟨0, by rw [result]⟩
        constructor
        · rintro ⟨_, _, result, rest⟩
          rwa [result]
        · exact fun rest => ⟨page, _, Prod.ext done rfl, rest⟩
      have frees := freesAll_step after.ranked.topTables (mmuGetVaddr (userEntry u.mem t (pageAt addr i)))
        ((userPages t addr (i + 1) count).map fun page => page.kaddr u.mem)
      rw [same] at frees
      -- The pages that are still to come are at the addresses at which they were.
      have addrs (rest : UnmapsAll (memUserUnmapPage u t (pageAt addr i)).2.mem (userPages t addr (i + 1) count)) :
          ((userPages t addr (i + 1) count).map fun page => page.kaddr (memUserUnmapPage u t (pageAt addr i)).2.mem) =
            (userPages t addr (i + 1) count).map fun page => page.kaddr u.mem := by
        refine List.map_congr_left fun page listed => ?_
        obtain rfl := roots page (List.mem_cons_of_mem _ listed)
        exact (unmapPage_clears process _).kaddr process after.process (rest.mapped page listed)
      rw [unmaps, entry, frees, process.kaddr_entry, if_neg missing]
      constructor
      · rintro ⟨k₁, freed, done⟩
        obtain ⟨rest, more⟩ := (ih (i + 1) (after.free _ freed)).mp done
        exact ⟨rest, k₁, freed, addrs rest ▸ more⟩
      · rintro ⟨rest, k₁, freed, more⟩
        exact ⟨k₁, freed, (ih (i + 1) (after.free _ freed)).mpr ⟨rest, (addrs rest).symm ▸ more⟩⟩

-- A panic, as opposed to a hang or a fault.
def Panics {A : Type} (r : Except Halt A) : Prop := ∃ msg, r = .error (.panic msg)

@[simp] theorem panics_ok {A : Type} (a : A) : ¬ Panics (.ok a : Except Halt A) := by
  rintro ⟨_, panic⟩
  cases panic

@[simp] theorem panics_fault {A : Type} : ¬ Panics (.error .fault : Except Halt A) := by
  rintro ⟨_, panic⟩
  cases panic

@[simp] theorem panics_hang {A : Type} : ¬ Panics (.error .hang : Except Halt A) := by
  rintro ⟨_, panic⟩
  cases panic

instance {A : Type} : (r : Except Halt A) → Decidable (Panics r)
  | .ok a => isFalse (panics_ok a)
  | .error (.panic msg) => isTrue ⟨msg, rfl⟩
  | .error .hang => isFalse panics_hang
  | .error .fault => isFalse panics_fault

theorem panics_error {A B : Type} (halt : Halt) : Panics (.error halt : Except Halt A) ↔ Panics (.error halt : Except Halt B) := by
  simp only [Panics, Except.error.injEq]

instance (reg : Registry) (id : Int) : Decidable (reg.Has id) := inferInstanceAs (Decidable (_ ∧ _))

-- The connections before the first one to a message buffer that is not there.
def MsgSys.reached (s : MsgSys) (n : Nat) (conns : List (Fin maxConn)) : List (Fin maxConn) :=
  conns.takeWhile fun c => s.reg.Has ((s.reg.buf n).connections c).id

-- The pages of message buffer `n` where the current task has them.
def MsgSys.ownPages (s : MsgSys) (n : Nat) : List UserPage :=
  userPages (s.sys.table s.sys.current) (s.reg.buf n).addr 0 (memSizeToPages (s.reg.buf n).size).toNat

/-- msgbuf_close finds every page that it comes to: those of the connections, as far as the receivers are there, and the
owner's, which the kernel maps as well. -/
structure MsgSys.Closes (s : MsgSys) (n : Nat) : Prop where
  conns : UnmapsAll s.sys.kernel.mem ((s.reached n (s.reg.buf n).usedConns).flatMap (s.lentPages n))
  pages : s.There n (s.reg.buf n).usedConns →
    UnmapsAll s.sys.kernel.mem ((s.reg.buf n).usedConns.flatMap (s.lentPages n) ++ s.ownPages n) ∧
      FreesAll s.sys.kernel ((s.ownPages n).map fun page => page.kaddr s.sys.kernel.mem)

theorem unmapConn_error {t addr : Word} {k : Kernel} {i count : Nat} {halt : Halt}
    (stopped : unmapConn t addr k i count = .error halt) :
    halt = .panic "Message buffer disconnection tried to unmap non-mapped page" := by
  induction count generalizing k i with
  | zero => cases stopped
  | succ count ih =>
    unfold unmapConn at stopped
    split at stopped
    · exact ih stopped
    · exact (Except.error.inj stopped).symm

section Conns

variable {s : MsgSys} {pos : Pos} {n : Nat} (steady : s.Steady pos n)

omit steady in
theorem lentPages_empty (empty : (memSizeToPages (s.reg.buf n).size).toNat = 0) (conns : List (Fin maxConn)) :
    conns.flatMap (s.lentPages n) = [] := by
  rw [List.flatMap_eq_nil_iff]
  intro c _
  rw [MsgSys.lentPages, empty]
  rfl

omit steady in
theorem emptied_reached (c : Fin maxConn) (k : Kernel) (conns : List (Fin maxConn)) (others : ∀ c', c' ∈ conns → c' ≠ c) :
    (s.emptied n c k).reached n conns = s.reached n conns := by
  induction conns with
  | nil => rfl
  | cons c' conns ih =>
    have has := emptied_has s n c k c' (others c' List.mem_cons_self)
    have rest := ih fun c'' listed => others c'' (List.mem_cons_of_mem c' listed)
    unfold MsgSys.reached at rest ⊢
    simp only [List.takeWhile_cons, has, rest]

-- The pages of connections to receivers that are there.
omit steady in
theorem reached_there (conns : List (Fin maxConn)) : s.There n (s.reached n conns) := fun _ _ listed =>
  of_decide_eq_true (List.mem_takeWhile_imp (p := fun c => s.reg.Has ((s.reg.buf n).connections c).id) listed)

include steady

/-- _conn_free panics where the receiver is there and one of its pages is not. -/
theorem connFree_spared (c : Fin maxConn) {recvId : Int} (search : connSearch (s.reg.buf n) recvId = c)
    (some : (memSizeToPages (s.reg.buf n).size).toNat ≠ 0) :
    (connFree s n recvId = .error .fault ∧ ¬ s.reg.Has ((s.reg.buf n).connections c).id) ∨
    (Panics (connFree s n recvId) ∧ s.reg.Has ((s.reg.buf n).connections c).id) ∨
    ∃ k, connFree s n recvId = .ok (.ok, s.emptied n c k) ∧ s.reg.Has ((s.reg.buf n).connections c).id := by
  rcases Registry.get_has steady.listed steady.last ((s.reg.buf n).connections c).id with
    ⟨missing, gone⟩ | ⟨found, has⟩
  · refine .inl ⟨?_, gone⟩
    rw [connFree_eq c search none missing, unmapReceiver, if_neg some]
    rfl
  · refine .inr ?_
    rw [connFree_eq c search _ found, unmapReceiver, if_neg some]
    rcases result : unmapConn (s.sys.table (s.reg.buf ((s.reg.buf n).connections c).id.toNat).owner)
        ((s.reg.buf n).connections c).addr s.sys.kernel 0 (memSizeToPages (s.reg.buf n).size).toNat with halt | k
    · obtain rfl := unmapConn_error result
      exact .inl ⟨⟨_, rfl⟩, has⟩
    · exact .inr ⟨k, rfl, has⟩

end Conns

/-- The loop of msgbuf_close over the connections panics exactly where a page is missing before a receiver is. -/
theorem closeConns_spared {pos : Pos} (n : Nat) (conns : List (Fin maxConn)) (apart : conns.Nodup) :
    ∀ s : MsgSys, s.Steady pos n → (memSizeToPages (s.reg.buf n).size).toNat ≠ 0 → (¬ Panics (closeConns n s conns) ↔
      UnmapsAll s.sys.kernel.mem ((s.reached n (conns.filter fun c =>
        ((s.reg.buf n).connections c).id ≠ -1)).flatMap (s.lentPages n))) := by
  induction conns with
  | nil =>
    intro s _ _
    exact iff_of_true (panics_ok s) (.nil _)
  | cons c conns ih =>
    intro s steady some
    obtain ⟨new, apart⟩ := List.nodup_cons.mp apart
    by_cases closed : ((s.reg.buf n).connections c).id = -1
    · rw [List.filter_cons_of_neg (by simpa using closed), closeConns, if_pos closed]
      exact ih apart s steady some
    · rw [List.filter_cons_of_pos (by simpa using closed), closeConns, if_neg closed]
      have search := steady.each.search c closed
      obtain ⟨left, is⟩ : ∃ left, left = conns.filter fun c' => ((s.reg.buf n).connections c').id ≠ -1 := ⟨_, rfl⟩
      have others (c' : Fin maxConn) (listed : c' ∈ left) : c' ≠ c := fun same =>
        new (same ▸ List.mem_of_mem_filter (is ▸ listed))
      rw [← is]
      rcases connFree_spared steady c search some with ⟨stopped, gone⟩ | ⟨⟨msg, stopped⟩, has⟩ | ⟨k, freed, has⟩
      · rw [stopped, MsgSys.reached, List.takeWhile_cons_of_neg (by simpa using gone)]
        exact iff_of_true panics_fault (.nil _)
      · have pages := connFree_undoes steady c search _ (lentPages_roots steady _ (reached_there left))
        rw [stopped, MsgSys.reached, List.takeWhile_cons_of_pos (by simpa using has), List.flatMap_cons]
        refine iff_of_false (fun calm => calm ⟨msg, rfl⟩) fun all => ?_
        obtain ⟨k, freed, _⟩ := pages.mp ⟨fun _ => has, all⟩
        rw [stopped] at freed
        cases freed
      · have pages := connFree_undoes steady c search _ (lentPages_roots steady _ (reached_there left))
        obtain ⟨wf, layout, _⟩ := connFree_keeps steady c search freed
        have next := ih apart _ (steady.emptied c wf layout) (by rwa [emptied_size])
        rw [emptied_filter s n c k conns new, ← is, emptied_reached c k left others, emptied_flatMap s n c k (s.reached n left) fun c' listed =>
          others c' ((List.takeWhile_sublist _).subset listed)] at next
        rw [freed, MsgSys.reached, List.takeWhile_cons_of_pos (by simpa using has), List.flatMap_cons]
        refine next.trans ?_
        constructor
        · exact fun all => (pages.mpr ⟨k, freed, all⟩).2
        · intro all
          obtain ⟨k', freed', rest⟩ := pages.mp ⟨fun _ => has, all⟩
          rw [freed] at freed'
          obtain rfl : k = k' := congrArg (fun r => r.2.sys.kernel) (Except.ok.inj freed')
          exact rest

section Close

variable {s : MsgSys} {pos : Pos} {n : Nat} (steady : s.Steady pos n) (root : pos (s.sys.table s.sys.current) = some [])
  (null : s.sys.kernel.leafAt 0 = none)

include steady

theorem closeConns_spared_used : ¬ Panics (closeConns n s (List.finRange maxConn)) ↔
    UnmapsAll s.sys.kernel.mem ((s.reached n (s.reg.buf n).usedConns).flatMap (s.lentPages n)) := by
  by_cases empty : (memSizeToPages (s.reg.buf n).size).toNat = 0
  · obtain ⟨s', done⟩ := (closeConns_undoes n _ (List.nodup_finRange maxConn) s steady).mpr
      ⟨fun some => absurd empty some, by rw [lentPages_empty empty]; exact .nil _⟩
    rw [lentPages_empty empty, done]
    exact iff_of_true (panics_ok s') (.nil _)
  · exact closeConns_spared n _ (List.nodup_finRange maxConn) s steady empty

theorem msgbufClose_code {s' : MsgSys} {id : Int} {err : KernErr} (found : msgbufGet s.reg id = .ok (some n))
    (owned : s.owns n) (given : (s.reg.buf n).addr ≠ 0) (done : msgbufClose s id = .ok (err, s')) :
    err = .ok ∨ err = .memUnm := by
  simp only [msgbufClose, found, not_true, owned, if_false, if_neg given] at done
  rcases freed : closeConns n s (List.finRange maxConn) with halt | s₁ <;> rw [freed] at done
  · cases done
  · obtain ⟨err', k, closed, rfl | rfl⟩ := closePages_returns (s₁.sys.table s₁.sys.current) (s₁.reg.buf n).addr
      (memSizeToPages (s₁.reg.buf n).size).toNat 0 (closeConns_keeps n _ s s₁ steady freed).1.wf.topTables <;>
      simp only [closed] at done
    · exact .inl (Prod.mk.inj (Except.ok.inj done)).1.symm
    · exact .inr (Prod.mk.inj (Except.ok.inj done)).1.symm

include root null

/-- What comes after the loop over the connections. -/
theorem closePages_closes {s' : MsgSys} (freed : closeConns n s (List.finRange maxConn) = .ok s') :
    (∃ k, closePages (s'.sys.table s'.sys.current) (s'.reg.buf n).addr s'.sys.kernel 0
      (memSizeToPages (s'.reg.buf n).size).toNat = .ok (.ok, k)) ↔
    UnmapsAll s.sys.kernel.mem ((s.reg.buf n).usedConns.flatMap (s.lentPages n) ++ s.ownPages n) ∧
      FreesAll s.sys.kernel ((s.ownPages n).map fun page => page.kaddr s.sys.kernel.mem) := by
  obtain ⟨steady', kept⟩ := closeConns_keeps n _ s s' steady freed
  have table : s'.sys.table s'.sys.current = s.sys.table s.sys.current := by
    rw [kept.sys]
    rfl
  have before : Process s.sys.kernel pos (s.sys.table s.sys.current) := ⟨steady.wf, steady.layout, root⟩
  have after : Process s'.sys.kernel pos (s.sys.table s.sys.current) := ⟨steady'.wf, steady'.layout, root⟩
  have rows := kept.clears.ranked steady.layout.unranked
  have twin : Twin pos s'.sys.kernel.rank (s.sys.table s.sys.current) s'.sys.kernel s'.sys.kernel := by
    refine ⟨steady'.wf.ranked, after, fun _ _ _ => rfl, steady'.layout.unranked, ?_⟩
    rw [(steady.wf.ranked.walks_same rows kept.clears.root 0).2]
    exact null
  have roots (page : UserPage) (listed : page ∈ s.ownPages n) : page.table = s.sys.table s.sys.current := by
    obtain ⟨_, _, _, rfl⟩ := (mem_userPages _ _ _ _ _).mp listed
    rfl
  have all := closeConns_all n (s.ownPages n) (fun page listed => (roots page listed).symm ▸ root) _
    (List.nodup_finRange maxConn) s steady
  rw [table, kept.addr, kept.size, closePages_all _ _ _ 0 twin]
  have addrs (mapped : UnmapsAll s'.sys.kernel.mem (s.ownPages n)) :
      ((s.ownPages n).map fun page => page.kaddr s'.sys.kernel.mem) =
        (s.ownPages n).map fun page => page.kaddr s.sys.kernel.mem := by
    refine List.map_congr_left fun page listed => kept.clears.kaddr ?_ ?_ (mapped.mapped page listed)
    · exact (roots page listed).symm ▸ before
    · exact (roots page listed).symm ▸ after
  have frees := steady.wf.ranked.freesAll_same rows kept.clears.root
  constructor
  · rintro ⟨mapped, free⟩
    refine ⟨(all.mp ⟨s', freed, mapped⟩).2, ?_⟩
    rw [← addrs mapped, ← frees]
    exact free
  · rintro ⟨mapped, free⟩
    obtain ⟨there, _⟩ := (closeConns_undoes n _ (List.nodup_finRange maxConn) s steady).mp ⟨s', freed⟩
    obtain ⟨s'', again, rest⟩ := all.mpr ⟨there, mapped⟩
    obtain rfl := Except.ok.inj (freed.symm.trans again)
    refine ⟨rest, ?_⟩
    rw [frees]
    exact (addrs rest).symm ▸ free

/-- msgbuf_close of a message buffer with pages neither panics nor returns an error exactly where it finds its pages. -/
theorem msgbufClose_spared {id : Int} (found : msgbufGet s.reg id = .ok (some n)) (owned : s.owns n)
    (given : (s.reg.buf n).addr ≠ 0) :
    (¬ Panics (msgbufClose s id) ∧ ∀ err s', msgbufClose s id = .ok (err, s') → err = .ok) ↔ s.Closes n := by
  have conns := closeConns_spared_used steady
  have undoes := closeConns_undoes n _ (List.nodup_finRange maxConn) s steady
  rcases freed : closeConns n s (List.finRange maxConn) with halt | s'
  · have stopped : msgbufClose s id = .error halt := by
      simp only [msgbufClose, found, not_true, owned, if_false, if_neg given, freed]
    rw [freed] at conns undoes
    rw [stopped, panics_error halt (B := MsgSys), conns]
    refine ⟨fun calm => ⟨calm.1, fun there => ?_⟩, fun closes => ⟨closes.conns, fun _ _ done => by cases done⟩⟩
    have all := calm.1
    by_cases empty : (memSizeToPages (s.reg.buf n).size).toNat = 0
    · obtain ⟨_, done⟩ := undoes.mpr ⟨there, by rw [lentPages_empty empty]; exact .nil _⟩
      cases done
    · have whole : s.reached n (s.reg.buf n).usedConns = (s.reg.buf n).usedConns :=
        List.takeWhile_eq_self_iff.mpr fun c listed => decide_eq_true (there empty c listed)
      rw [whole] at all
      obtain ⟨_, done⟩ := undoes.mpr ⟨there, all⟩
      cases done
  · obtain ⟨there, _⟩ := undoes.mp ⟨s', freed⟩
    have pages := closePages_closes steady root null freed
    have closes : s.Closes n ↔ UnmapsAll s.sys.kernel.mem ((s.reg.buf n).usedConns.flatMap (s.lentPages n) ++ s.ownPages n) ∧
        FreesAll s.sys.kernel ((s.ownPages n).map fun page => page.kaddr s.sys.kernel.mem) :=
      ⟨fun closes => closes.pages there, fun own => ⟨conns.mp (freed ▸ panics_ok s'), fun _ => own⟩⟩
    rw [closes, ← pages]
    obtain ⟨err, k, closed, rfl | rfl⟩ := closePages_returns (s'.sys.table s'.sys.current) (s'.reg.buf n).addr
      (memSizeToPages (s'.reg.buf n).size).toNat 0 (closeConns_keeps n _ s s' steady freed).1.wf.topTables <;>
      simp only [msgbufClose, found, not_true, owned, if_false, if_neg given, freed, closed]
    · refine iff_of_true ⟨panics_ok _, fun err s'' done => ?_⟩ ⟨k, rfl⟩
      exact (Prod.mk.inj (Except.ok.inj done)).1.symm
    · refine iff_of_false (fun calm => KernErr.noConfusion (calm.2 _ _ rfl)) ?_
      rintro ⟨_, done⟩
      cases done

end Close

end Anthill
