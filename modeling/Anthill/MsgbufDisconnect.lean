import Anthill.MsgbufRuns
import Anthill.MsgbufView
import Anthill.UnmapList

set_option autoImplicit false

namespace Anthill

open Radix

-- Clearing the entry of a mapped page is seen at its address only.

section Clear

variable {k : Kernel} {pos : Pos} {t level3 v : Word} (layout : UserLayout k pos) (root : pos t = some [])
  (here : pos level3 = some (upperIdx v))

include layout root here

theorem clear_others (u : Word) (other : mmuGetTableIdx u ≠ mmuGetTableIdx v) :
    userEntry (k.write level3 (leafIdx v) 0).mem t u = userEntry k.mem t u := by
  refine (layout.blockTree root).walk_other level3 (upperIdx v) (leafIdx v) 0 here u ?_ 0 id
  intro through
  exact other (through.eq_of_length (by rfl)).symm

end Clear

/-- The pages of a connection, from page `i` on, are mapped. One that another entry counts is there once: its entry
is cleared. -/
structure ConnPages (m : Mem) (t addr : Word) (i count : Nat) : Prop where
  mapped : ∀ p, i ≤ p → p < i + count → userEntry m t (pageAt addr p) ≠ 0
  once : ∀ p q, i ≤ p → p < q → q < i + count → mmuGetTableIdx (pageAt addr p) = mmuGetTableIdx (pageAt addr q) →
    refCount (userEntry m t (pageAt addr p)) = 0

-- What the loop of _conn_free leaves as it was, in every process.
structure UnmapsOnly (pos : Pos) (addr : Word) (i count : Nat) (k k' : Kernel) : Prop where
  wf : KernelWf k'
  layout : UserLayout k' pos
  pool : k'.memoryMap = k.memoryMap ∧ k'.trace = k.trace
  others : ∀ t u, pos t = some [] → (∀ p, i ≤ p → p < i + count → mmuGetTableIdx u ≠ mmuGetTableIdx (pageAt addr p)) →
    userEntry k'.mem t u = userEntry k.mem t u

section Unmap

variable {k : Kernel} {pos : Pos} {t : Word} (process : Process k pos t)

include process

theorem unmapPage_only (v : Word) (addr : Word) (i : Nat) (this : v = pageAt addr i) :
    UnmapsOnly pos addr i 1 k (memUserUnmapPage k t v).2 := by
  rcases unmapPage_outcome process v with ⟨_, result⟩ | ⟨_, _, page, result⟩ | ⟨_, _, level3, here, walk, result⟩ <;>
    rw [result]
  · exact ⟨process.wf, process.layout, ⟨rfl, rfl⟩, fun _ _ _ _ => rfl⟩
  · exact ⟨process.wf, process.layout, ⟨rfl, rfl⟩, fun _ _ _ _ => rfl⟩
  · have after := process.clear level3 (leafIdx v) (upperIdx v) here (by rfl)
    refine ⟨after.wf, after.layout, ⟨rfl, rfl⟩, fun t' u root away => ?_⟩
    exact clear_others process.layout root here u (this ▸ away i (Nat.le_refl i) (Nat.lt_succ_self i))

end Unmap

theorem UnmapsOnly.next {pos : Pos} {addr : Word} {i count : Nat} {k k₁ k' : Kernel}
    (first : UnmapsOnly pos addr i 1 k k₁) (rest : UnmapsOnly pos addr (i + 1) count k₁ k') :
    UnmapsOnly pos addr i (count + 1) k k' where
  wf := rest.wf
  layout := rest.layout
  pool := ⟨rest.pool.1.trans first.pool.1, rest.pool.2.trans first.pool.2⟩
  others t u root away := by
    rw [rest.others t u root fun p low high => away p (by omega) (by omega),
      first.others t u root fun p low high => away p low (by omega)]

theorem unmapConn_only {pos : Pos} (t addr : Word) (count i : Nat) {k k' : Kernel} (process : Process k pos t)
    (done : unmapConn t addr k i count = .ok k') : UnmapsOnly pos addr i count k k' := by
  induction count generalizing k i with
  | zero =>
    obtain rfl := Except.ok.inj done
    exact ⟨process.wf, process.layout, ⟨rfl, rfl⟩, fun _ _ _ _ => rfl⟩
  | succ count ih =>
    have first := unmapPage_only process _ addr i rfl
    unfold unmapConn at done
    split at done
    next k₁ result =>
      rw [result] at first
      exact first.next (ih (i + 1) ⟨first.wf, first.layout, process.root⟩ done)
    · cases done

theorem connPages_unmapsAll {k : Kernel} {pos : Pos} {t : Word} (process : Process k pos t) (addr : Word) (i count : Nat) :
    ConnPages k.mem t addr i count ↔ UnmapsAll k.mem (userPages t addr i count) := by
  have once (mapped : ∀ p, i ≤ p → p < i + count → userEntry k.mem t (pageAt addr p) ≠ 0) :
      (userPages t addr i count).Pairwise (fun page page' =>
        page.slot k.mem = page'.slot k.mem → refCount (page.entry k.mem) = 0) ↔
      ∀ p q, i ≤ p → p < q → q < i + count → mmuGetTableIdx (pageAt addr p) = mmuGetTableIdx (pageAt addr q) →
        refCount (userEntry k.mem t (pageAt addr p)) = 0 := by
    rw [userPages, List.pairwise_map, range'_pairwise]
    refine forall₂_congr fun p q => forall₃_congr fun low less high => ?_
    rw [slot_same process _ _ (mapped p low (by omega))]
    rfl
  constructor
  · intro pages
    refine ⟨fun page listed => ?_, (once pages.mapped).mpr pages.once⟩
    obtain ⟨p, low, high, rfl⟩ := (mem_userPages _ _ _ _ _).mp listed
    exact pages.mapped p low high
  · intro all
    have mapped (p : Nat) (low : i ≤ p) (high : p < i + count) : userEntry k.mem t (pageAt addr p) ≠ 0 :=
      all.mapped _ ((mem_userPages _ _ _ _ _).mpr ⟨p, low, high, rfl⟩)
    exact ⟨mapped, (once mapped).mp all.once⟩

/-- _conn_free gets through its loop exactly when the pages of the connection are mapped. -/
theorem unmapConn_ok_iff {pos : Pos} (t addr : Word) (count i : Nat) {k : Kernel} (process : Process k pos t) :
    (∃ k', unmapConn t addr k i count = .ok k') ↔ ConnPages k.mem t addr i count := by
  have all := unmapConn_all t addr count i process [] fun _ listed => by cases listed
  rw [List.append_nil] at all
  rw [connPages_unmapsAll process, all]
  exact exists_congr fun k' => (and_iff_left (.nil _)).symm

/-- What msgbuf_disconnect is for, where both message buffers are there and the caller owns the first. -/
structure Disconnects (s : MsgSys) (pos : Pos) (sendId recvId : Int) (n : Nat) : Prop where
  missing : ¬ (s.reg.buf n).Connected recvId → msgbufDisconnect s sendId recvId = .ok (.msbCod, s)
  removed : ∀ c, ((s.reg.buf n).connections c).id = recvId → ∃ k, msgbufDisconnect s sendId recvId =
      .ok (.ok, ⟨s.sys.setKernel k, s.reg.setBuf n fun msgbuf => msgbuf.setConn c ⟨-1, 0⟩⟩) ∧
    UnmapsOnly pos ((s.reg.buf n).connections c).addr 0 (memSizeToPages (s.reg.buf n).size).toNat s.sys.kernel k

section Disconnect

variable (s : MsgSys) {pos : Pos} {sendId recvId : Int} {n r : Nat} (foundN : msgbufGet s.reg sendId = .ok (some n))
  (foundR : msgbufGet s.reg recvId = .ok (some r)) (owned : s.owns n)

include foundN foundR owned

/-- Without a connection the search of _conn_free stops at the last one, and no pointer is NULL. -/
theorem disconnect_unchecked (unconnected : ¬ (s.reg.buf n).Connected recvId) : ¬ Disconnects s pos sendId recvId n := by
  intro disconnects
  have done := disconnects.missing unconnected
  simp only [msgbufDisconnect, foundN, foundR, if_pos owned] at done
  cases (connFree_ok s s n recvId .msbCod done).1

theorem disconnect_result (last : s.reg.next = 0) (each : (s.reg.buf n).OneEach) (c : Fin maxConn)
    (here : ((s.reg.buf n).connections c).id = recvId) : msgbufDisconnect s sendId recvId =
      (unmapConn (s.sys.table (s.reg.buf r).owner) ((s.reg.buf n).connections c).addr s.sys.kernel 0
        (memSizeToPages (s.reg.buf n).size).toNat).map fun k =>
          (.ok, ⟨s.sys.setKernel k, s.reg.setBuf n fun msgbuf => msgbuf.setConn c ⟨-1, 0⟩⟩) := by
  obtain ⟨natural, _⟩ := msgbufGet_some last foundR
  have proper : ((s.reg.buf n).connections c).id ≠ -1 := by omega
  have search : connSearch (s.reg.buf n) recvId = c := by
    have first : (Slots.first fun i => decide (((s.reg.buf n).connections i).id = recvId)) = some c :=
      Slots.first_unique _ c (decide_eq_true here) fun i same =>
        (each c i proper (here.trans (of_decide_eq_true same).symm)).symm
    rw [connSearch, first, Option.getD_some]
  simp only [msgbufDisconnect, foundN, foundR, if_pos owned, connFree, search]
  rw [here, foundR]
  simp only [unmapReceiver]
  split_ifs with empty
  · rw [empty]
    rfl
  · rfl

end Disconnect

theorem msgbuf_disconnects (stale : Stale) (clean : stale.Clean) (sys : Sys) (w : MsgTasks)
    (run : Run (MsgTasks.Takes stale) (fun _ _ => True) (.fresh sys) w) (t : Word) (pos : Pos)
    (tables : SysTables w.msg.sys pos) (sendId recvId : Int) (n r : Nat)
    (foundN : msgbufGet w.msg.reg sendId = .ok (some n)) (foundR : msgbufGet w.msg.reg recvId = .ok (some r))
    (owned : (w.msg.as t).owns n) (there : w.msg.sys.Live (w.msg.reg.buf r).owner) :
    Disconnects (w.msg.as t) pos sendId recvId n ↔ ∃ c, ((w.msg.reg.buf n).connections c).id = recvId ∧
      ConnPages w.msg.sys.kernel.mem (w.msg.sys.table (w.msg.reg.buf r).owner) ((w.msg.reg.buf n).connections c).addr 0
        (memSizeToPages (w.msg.reg.buf n).size).toNat := by
  have sound := MsgTasks.run_sound clean run
  have live := (msgbufGet_some sound.named.last foundN).2
  have result := disconnect_result (w.msg.as t) foundN foundR owned sound.named.last (sound.each n live)
  have process : Process w.msg.sys.kernel pos (w.msg.sys.table (w.msg.reg.buf r).owner) :=
    ⟨tables.wf, tables.layout, tables.roots _ there⟩
  constructor
  · intro disconnects
    by_cases connected : (w.msg.reg.buf n).Connected recvId
    · obtain ⟨c, here⟩ := connected
      obtain ⟨k, done, _⟩ := disconnects.removed c here
      rw [result c here] at done
      obtain ⟨k', freed, _⟩ := (map_ok _ _ _).mp done
      exact ⟨c, here, (unmapConn_ok_iff _ _ _ 0 process).mp ⟨k', freed⟩⟩
    · exact absurd disconnects (disconnect_unchecked (w.msg.as t) foundN foundR owned connected)
  · rintro ⟨c, here, pages⟩
    refine ⟨fun unconnected => absurd ⟨c, here⟩ unconnected, fun c' same => ?_⟩
    obtain ⟨natural, _⟩ := msgbufGet_some sound.named.last foundR
    have proper : ((w.msg.reg.buf n).connections c).id ≠ -1 := by omega
    obtain rfl := sound.each n live c c' proper (here.trans same.symm)
    obtain ⟨k, freed⟩ := (unmapConn_ok_iff _ _ _ 0 process).mpr pages
    refine ⟨k, ?_, unmapConn_only _ _ _ 0 process freed⟩
    rw [result c here]
    exact (map_ok _ _ _).mpr ⟨k, freed, rfl⟩

-- Whether the identifier is that of message buffer `n`.
def MsgSys.found (s : MsgSys) (id : Int) (n : Nat) : Bool :=
  (msgbufGet s.reg id).toOption.any fun found => found == some n

theorem MsgSys.of_found (s : MsgSys) {id : Int} {n : Nat} (found : s.found id n = true) :
    msgbufGet s.reg id = .ok (some n) := by
  obtain ⟨found', there, same⟩ := ok_of_any _ _ found
  rw [there, beq_iff_eq.mp same]

-- Two message buffers without pages.
def twoReceivers : List (Word × MsgCall) :=
  [(poolVa 10, .create (letter 0) 0 false), (poolVa 10, .create (letter 1) 0 false)]

-- Nothing is connected, and msgbuf_disconnect returns ERR_OK.
theorem disconnect_unconnected :
    ¬ ∀ (stale : Stale) (_ : stale.Clean) (sys : Sys) (w : MsgTasks),
      Run (MsgTasks.Takes stale) (fun _ _ => True) (.fresh sys) w → ∀ (t : Word) (sendId recvId : Int) (n r : Nat),
      msgbufGet w.msg.reg sendId = .ok (some n) → msgbufGet w.msg.reg recvId = .ok (some r) → (w.msg.as t).owns n →
      ¬ (w.msg.reg.buf n).Connected recvId → msgbufDisconnect (w.msg.as t) sendId recvId = .ok (.msbCod, w.msg.as t) := by
  intro claim
  have played : (viewStart.calls zeroPages twoReceivers).map (fun s => (decide ((s.as (poolVa 10)).owns 1),
      s.found 1 1, s.found 0 0, connGet (s.reg.buf 1) 0)) = some (true, true, true, none) := by decide +kernel
  obtain ⟨s, reached, same⟩ := Option.map_eq_some_iff.mp played
  simp only [Prod.mk.injEq, decide_eq_true_eq] at same
  obtain ⟨owned, found, foundR, unconnected⟩ := same
  replace found := s.of_found found
  replace foundR := s.of_found foundR
  have run := MsgTasks.run_calls zeroPages viewStart s twoReceivers
    (fun a member => by
      simp only [twoReceivers, List.mem_cons, List.not_mem_nil, or_false] at member
      rcases member with rfl | rfl <;> exact id) .start reached
  have done := claim zeroPages zeroPages_clean viewStart.sys _ run (poolVa 10) 1 0 1 0 found foundR owned
    ((connGet_none _ _).mp unconnected)
  have unchecked : msgbufDisconnect (s.as (poolVa 10)) 1 0 = connFree (s.as (poolVa 10)) 1 0 := by
    have found' : msgbufGet (s.as (poolVa 10)).reg 1 = .ok (some 1) := found
    have foundR' : msgbufGet (s.as (poolVa 10)).reg 0 = .ok (some 0) := foundR
    simp only [msgbufDisconnect, found', foundR', if_pos owned]
  cases (connFree_ok _ _ 1 0 .msbCod (unchecked.symm.trans done)).1

-- The second one is connected to the first.
def joined : Option (MsgSys × MsgSys × MsgSys) :=
  match msgbufCreate zeroPages (viewStart.as (poolVa 10)) (letter 0) 0 false with
  | .ok ((⟨0, .ok⟩, none), s₁) =>
    match msgbufCreate zeroPages (s₁.as (poolVa 10)) (letter 1) 0 false with
    | .ok ((⟨1, .ok⟩, none), s₂) =>
      match msgbufConnect (s₂.as (poolVa 10)) 1 (letter 0) with
      | .ok (⟨0, .ok⟩, s) => some (s₁, s₂, s)
      | _ => none
    | _ => none
  | _ => none

theorem joined_fits (s₁ s₂ s : MsgSys) (done : joined = some (s₁, s₂, s)) (small : (s₂.reg.buf 1).size = 0) :
    viewStart.calls zeroPages (twoReceivers ++ [(poolVa 10, .connect 1 (letter 0))]) = some s ∧
      ∃ pos k, SysTables s.sys pos ∧ s.sys = viewStart.sys.setKernel k := by
  unfold joined at done
  split at done
  next s₁' first =>
    split at done
    next s₂' second =>
      split at done
      next s' connected =>
        cases done
        have live : viewStart.sys.Live (poolVa 10) := ⟨0, rfl⟩
        obtain ⟨pos₁, k₁, extends₁, system₁, _⟩ := msgbufCreate_extends (n := 0) viewStart_tables live first (by simp)
        have tables₁ := viewStart_tables.extend extends₁
        rw [← show s₁.sys = viewStart.sys.setKernel k₁ from system₁] at tables₁
        have live₁ : s₁.sys.Live (poolVa 10) := by
          rw [system₁]
          exact live
        obtain ⟨pos₂, k₂, extends₂, system₂, _⟩ := msgbufCreate_extends (s := s₁.as (poolVa 10)) (n := 1)
          ⟨tables₁.wf, tables₁.layout, tables₁.roots⟩ live₁ second (by simp)
        have tables₂ := tables₁.extend extends₂
        have whole : s₂.sys = viewStart.sys.setKernel k₂ := by
          rw [system₂]
          exact congrArg (fun sys : Sys => ({ sys with current := poolVa 10 } : Sys).setKernel k₂) system₁
        have same₂ : s₂.sys = s₁.sys.setKernel k₂ := by
          rw [whole, system₁]
          rfl
        rw [← same₂] at tables₂
        refine ⟨?_, ?_⟩
        · simp only [twoReceivers, List.cons_append, List.nil_append, MsgSys.calls, MsgCall.act, first, second,
            connected, Except.map, MsgSys.returns]
        · rcases msgbufConnect_ok _ _ _ _ _ connected with ⟨_, _, failed⟩ | ⟨n, _, _, c, recvBuf, k, found, _, _, _, _,
            _, _, mapped, rfl⟩
          · exact absurd rfl failed
          · obtain rfl : n = 1 := (msgbufGet_inside _ _ _ found).1
            have none : (memSizeToPages ((s₂.as (poolVa 10)).reg.buf 1).size).toNat = 0 := by
              rw [show ((s₂.as (poolVa 10)).reg.buf 1).size = 0 from small]
              rfl
            rw [none] at mapped
            obtain rfl : s₂.sys.kernel = k := (Prod.mk.inj (Except.ok.inj mapped)).2
            refine ⟨pos₂, k₂, ?_, ?_⟩
            · exact ⟨tables₂.wf, tables₂.layout, tables₂.roots⟩
            · show ({ s₂.sys with current := poolVa 10 } : Sys).setKernel s₂.sys.kernel = _
              rw [whole]
              rfl
      · cases done
    · cases done
  · cases done

theorem msgbuf_disconnects_joined : ∃ (w : MsgTasks) (pos : Pos), (w.msg.reg.buf 1).Connected 0 ∧
    Disconnects (w.msg.as (poolVa 10)) pos 1 0 1 := by
  have played : joined.map (fun states => ((states.2.1.reg.buf 1).size, decide ((states.2.2.as (poolVa 10)).owns 1),
      decide ((states.2.2.reg.buf 0).owner = poolVa 10 ∧ (states.2.2.reg.buf 1).size = 0),
      states.2.2.found 1 1 && states.2.2.found 0 0, connGet (states.2.2.reg.buf 1) 0)) =
        some (0, true, true, true, some 0) := by decide +kernel
  obtain ⟨⟨s₁, s₂, s⟩, reached, same⟩ := Option.map_eq_some_iff.mp played
  simp only [Prod.mk.injEq, decide_eq_true_eq, Bool.and_eq_true] at same
  obtain ⟨small, owned, ⟨owner, size⟩, ⟨found, foundR⟩, connected⟩ := same
  obtain ⟨calls, pos, k, tables, system⟩ := joined_fits s₁ s₂ s reached small
  have run := MsgTasks.run_calls zeroPages viewStart s _ (fun a member => by
    simp only [twoReceivers, List.cons_append, List.nil_append, List.mem_cons, List.not_mem_nil, or_false] at member
    rcases member with rfl | rfl | rfl <;> exact id) .start calls
  have there : s.sys.Live (s.reg.buf 0).owner := by
    rw [system, owner]
    exact ⟨0, rfl⟩
  have here : ((s.reg.buf 1).connections 0).id = 0 := of_decide_eq_true (Slots.first_some _ _ connected)
  have exact_ := msgbuf_disconnects zeroPages zeroPages_clean viewStart.sys ⟨s, fun _ => .idle⟩ run (poolVa 10) pos tables
    1 0 1 0 (s.of_found found) (s.of_found foundR) owned there
  refine ⟨⟨s, fun _ => .idle⟩, pos, ⟨0, here⟩, exact_.mpr ⟨0, here, ?_⟩⟩
  have none : (memSizeToPages (s.reg.buf 1).size).toNat = 0 := by
    rw [size]
    rfl
  constructor
  · intro p low high
    simp only [none] at high
    omega
  · intro p q low less high
    simp only [none] at high
    omega

end Anthill
