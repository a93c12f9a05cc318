import Anthill.MsgbufWorld

set_option autoImplicit false

namespace Anthill

-- Whether _msgbuf_get of an id follows no pointer out of the list.
def Registry.Reaches (reg : Registry) (id : Int) : Prop :=
  reg.nodes ≠ [] ∧ (reg.next = 0 ∨ (0 ≤ id ∧ id.toNat < reg.nodes.length * nodeBufCnt))

theorem msgbufGet_reaches (reg : Registry) (id : Int) (reaches : reg.Reaches id) :
    msgbufGet reg id = .ok (if id < 0 ∨ (reg.buf id.toNat).name = [] then none else some id.toNat) := by
  obtain ⟨listed, last | ⟨natural, inside⟩⟩ := reaches
  · exact msgbufGet_eq reg id listed last
  · have there : id.toNat / nodeBufCnt < reg.nodes.length := (Nat.div_lt_iff_lt_mul (by decide)).mpr inside
    have negative : ¬ id < 0 := Int.not_lt.mpr natural
    rw [msgbufGet, Registry.nodeOf, if_neg listed, if_neg negative, List.getElem?_eq_getElem there]
    simp only [negative, false_or, Registry.buf, Paged.get, List.getElem?_eq_getElem there, Option.map_some,
      Option.getD_some]

theorem msgbufGet_lost (reg : Registry) (id : Int) (lost : ¬ reg.Reaches id) : msgbufGet reg id = .error .fault := by
  rw [msgbufGet, Registry.nodeOf]
  by_cases listed : reg.nodes = []
  · rw [if_pos listed]
  · have more : reg.next ≠ 0 := fun last => lost ⟨listed, .inl last⟩
    have away : (if id < 0 then none else reg.nodes[id.toNat / nodeBufCnt]?) = none := by
      split_ifs with negative
      · rfl
      · rw [List.getElem?_eq_none_iff]
        by_contra inside
        refine lost ⟨listed, .inr ⟨Int.not_lt.mp negative, ?_⟩⟩
        exact (Nat.div_lt_iff_lt_mul (by decide)).mp (Nat.not_le.mp inside)
    rw [if_neg listed, away]
    simp only [if_neg more]

theorem msgbufGet_ok_iff (reg : Registry) (id : Int) : (∃ n, msgbufGet reg id = .ok n) ↔ reg.Reaches id := by
  constructor
  · rintro ⟨n, found⟩
    by_contra lost
    rw [msgbufGet_lost reg id lost] at found
    cases found
  · exact fun reaches => ⟨_, msgbufGet_reaches reg id reaches⟩

-- Whether an id is a live message buffer of the current task.
def MsgSys.Mine (s : MsgSys) (id : Int) : Prop := 0 ≤ id ∧ s.reg.Live id.toNat ∧ s.owns id.toNat

theorem MsgSys.Mine.of_get {s : MsgSys} {id : Int} {n : Nat} (found : msgbufGet s.reg id = .ok (some n))
    (owned : s.owns n) : s.Mine id := by
  have reaches := (msgbufGet_ok_iff s.reg id).mp ⟨_, found⟩
  rw [msgbufGet_reaches s.reg id reaches] at found
  split_ifs at found with missing
  · cases found
  · obtain rfl := Option.some.inj (Except.ok.inj found)
    push Not at missing
    exact ⟨missing.1, missing.2, owned⟩

/-- The message buffer that a call is made for. -/
def MsgCall.own : MsgCall → Option Int
  | .create _ _ _ => none
  | .connect id _ | .disconnect id _ | .close id | .send id _ _ | .recv id | .reply id _ => some id

-- The other message buffer that it looks up by its id.
def MsgCall.peer : MsgCall → Option Int
  | .disconnect _ id | .send _ id _ | .reply _ id => some id
  | _ => none

def MsgCall.notFound : MsgCall → MsgRet
  | .disconnect _ _ | .close _ | .send _ _ _ | .reply _ _ => .err .msbFnd
  | .create _ _ _ | .connect _ _ | .recv _ => .id ⟨-1, .msbFnd⟩ none

/-- The call returns ERR_MSB_FND and leaves everything as it is. -/
def Refuses (stale : Stale) (s : MsgSys) (call : MsgCall) : Prop := call.act stale s = .ok (s.returns call.notFound)

/-- Where a call for a message buffer of another task is refused. msgbuf_connect makes no test for the owner. -/
structure MsgCall.Guarded (s : MsgSys) (call : MsgCall) : Prop where
  own : ∀ id, call.own = some id → s.reg.Reaches id
  peer : ∀ id, call.peer = some id → s.reg.Reaches id
  named : ∀ id name, call = .connect id name → (∃ n, msgbufGet s.reg id = .ok (some n)) →
    msgbufGetId s.reg name = .ok (-1)

-- The codes of mem_kernel_alloc_page and mem_user_map_page.
def KernErr.ofMap : KernErr → Bool
  | .ok | .memExs | .memFlg | .memOom => true
  | _ => false

theorem memKernelAllocPage_err (k : Kernel) (perm : MemPerm) : (memKernelAllocPage k perm).1.err.ofMap = true := by
  unfold memKernelAllocPage
  split
  · rfl
  · split
    · rfl
    · simp only
      split
      · rfl
      · split
        · split <;> rfl
        · rfl

theorem mapRollback_err {k k' : Kernel} {pages : List Word} {err err' : KernErr}
    (done : mapRollback k pages err = .ok (err', k')) : err' = err := by
  obtain ⟨k₁, _, same⟩ := (map_ok _ _ _).mp done
  exact (Prod.mk.inj same).1

theorem mapLevels_err (k : Kernel) (level : Word) (pages : List Word) (idx : List Idx)
    (early : Except Halt (KernErr × Kernel)) (done : mapLevels k level pages idx = .error early) (err : KernErr)
    (k' : Kernel) (result : early = .ok (err, k')) : err.ofMap = true := by
  induction idx generalizing k level pages with
  | nil => cases done
  | cons i idx ih =>
    unfold mapLevels at done
    split at done
    next early' stopped =>
      obtain rfl := Except.error.inj done
      subst result
      unfold mapStep at stopped
      split_ifs at stopped
      have known := memKernelAllocPage_err k .rw
      rcases allocated : memKernelAllocPage k .rw with ⟨⟨page, err₁⟩, k₁⟩
      rw [allocated] at stopped known
      by_cases fine : err₁ = .ok
      · subst fine
        cases stopped
      · have rolled : mapRollback k₁ pages err₁ = .ok (err, k') := by
          cases err₁ <;> first | exact absurd rfl fine | exact Except.error.inj stopped
        rw [mapRollback_err rolled]
        exact known
    · exact ih _ _ _ done

theorem memUserMapPage_err (k k' : Kernel) (t v p : Word) (perm : MemPerm) (attr : MemAttr) (err : KernErr)
    (done : memUserMapPage k t v p perm attr = .ok (err, k')) : err.ofMap = true := by
  unfold memUserMapPage at done
  split at done
  · cases done
    rfl
  · split at done
    next early stopped => exact mapLevels_err k t [] _ early stopped err k' done
    · split_ifs at done
      · rw [mapRollback_err done]
        rfl
      · cases done
        rfl

theorem connectLoop_err (sendTable sendAddr recvTable recvBuf : Word) (k k' : Kernel) (i count : Nat) (err : KernErr)
    (done : connectLoop sendTable sendAddr recvTable recvBuf k i count = .ok (err, k')) : err.ofMap = true := by
  induction count generalizing k i with
  | zero =>
    cases done
    rfl
  | succ count ih =>
    unfold connectLoop at done
    simp only at done
    split at done
    · cases done
    · exact ih _ _ done
    next failed =>
      cases done
      exact memUserMapPage_err _ _ _ _ _ _ _ _ failed

theorem connAlloc_err {msgbuf : Msgbuf} {recvId : Int} {err : KernErr} (failed : connAlloc msgbuf recvId = .error err) :
    err ≠ .msbFnd := by
  unfold connAlloc at failed
  split at failed
  · cases failed
    simp
  · split at failed
    · cases failed
      simp
    · cases failed

/-- Past its look-ups msgbuf_connect does not return ERR_MSB_FND any more. -/
theorem msgbufConnect_found (s s' : MsgSys) (id recvId : Int) (name : List CChar) (n : Nat) (r : MsgbufRId)
    (found : msgbufGet s.reg id = .ok (some n)) (named : msgbufGetId s.reg name = .ok recvId) (there : recvId ≠ -1)
    (done : msgbufConnect s id name = .ok (r, s')) : r.err ≠ .msbFnd := by
  rw [msgbufConnect, found, named] at done
  simp only [if_neg there] at done
  split at done
  · cases done
  · cases done
  · split at done
    next err failed =>
      cases done
      exact connAlloc_err failed
    · split at done
      · cases done
      · split_ifs at done
        · cases done
          simp
        · split at done
          · cases done
          · cases done
            simp
          next failed =>
            cases done
            have known := connectLoop_err _ _ _ _ _ _ _ _ _ failed
            rintro rfl
            cases known

section Calls

variable (stale : Stale) (s : MsgSys) (id : Int) (foreign : ¬ s.Mine id)

include foreign

theorem foreign_get (reaches : s.reg.Reaches id) :
    msgbufGet s.reg id = .ok none ∨ ∃ n, msgbufGet s.reg id = .ok (some n) ∧ ¬ s.owns n := by
  obtain ⟨found | n, found⟩ := (msgbufGet_ok_iff s.reg id).mpr reaches
  · exact .inl found
  · exact .inr ⟨_, found, fun owned => foreign (.of_get found owned)⟩

theorem connect_refuses (name : List CChar) :
    Refuses stale s (.connect id name) ↔ s.reg.Reaches id ∧
      ((∃ n, msgbufGet s.reg id = .ok (some n)) → msgbufGetId s.reg name = .ok (-1)) := by
  constructor
  · intro refuses
    obtain ⟨⟨r, s'⟩, done, same⟩ := (map_ok _ _ _).mp refuses
    have code : r = ⟨-1, .msbFnd⟩ := (MsgRet.id.inj (Option.some.inj (congrArg MsgMove.ret same))).1.symm
    refine ⟨?_, ?_⟩
    · by_contra lost
      rw [msgbufConnect, msgbufGet_lost s.reg id lost] at done
      cases done
    · rintro ⟨n, found⟩
      rcases named : msgbufGetId s.reg name with halt | recvId
      · rw [msgbufConnect, found, named] at done
        cases done
      · by_contra there
        refine msgbufConnect_found s s' id recvId name n r found named (fun none => there (by rw [none])) done ?_
        rw [code]
  · rintro ⟨reaches, missing⟩
    rcases foreign_get s id foreign reaches with none | ⟨n, found, _⟩
    · rw [Refuses, MsgCall.act, msgbufConnect, none]
      rfl
    · rw [Refuses, MsgCall.act, msgbufConnect, found, missing ⟨n, found⟩]
      rfl

/-- The calls that look up a second message buffer by its id do so before any test. -/
theorem pair_refuses (call : MsgCall) (peer : Int) (own : call.own = some id) (other : call.peer = some peer) :
    Refuses stale s call ↔ s.reg.Reaches id ∧ s.reg.Reaches peer := by
  by_cases reaches : s.reg.Reaches id
  · by_cases there : s.reg.Reaches peer
    · obtain ⟨r, looked⟩ := (msgbufGet_ok_iff s.reg peer).mpr there
      refine iff_of_true ?_ ⟨reaches, there⟩
      rcases foreign_get s id foreign reaches with none | ⟨n, found, others⟩
      · cases call <;> cases own <;> cases other <;>
          simp only [Refuses, MsgCall.act, msgbufDisconnect, msgbufSend, msgbufReply, none, looked] <;> rfl
      · cases r <;> cases call <;> cases own <;> cases other <;>
          simp only [Refuses, MsgCall.act, msgbufDisconnect, msgbufSend, msgbufReply, found, looked, if_neg others,
            if_pos others] <;> rfl
    · refine iff_of_false ?_ fun both => there both.2
      obtain ⟨n, found⟩ := (msgbufGet_ok_iff s.reg id).mpr reaches
      have lost := msgbufGet_lost s.reg peer there
      intro refuses
      cases call <;> cases own <;> cases other <;>
        simp only [Refuses, MsgCall.act, msgbufDisconnect, msgbufSend, msgbufReply, found, lost] at refuses <;>
        cases n <;> cases refuses
  · refine iff_of_false ?_ fun both => reaches both.1
    have lost := msgbufGet_lost s.reg id reaches
    intro refuses
    rcases looked : msgbufGet s.reg peer with halt | r <;>
      cases call <;> cases own <;> cases other <;>
        simp only [Refuses, MsgCall.act, msgbufDisconnect, msgbufSend, msgbufReply, lost, looked] at refuses <;>
        cases refuses

theorem close_refuses : Refuses stale s (.close id) ↔ s.reg.Reaches id := by
  by_cases reaches : s.reg.Reaches id
  · refine iff_of_true ?_ reaches
    rcases foreign_get s id foreign reaches with none | ⟨n, found, others⟩
    · simp only [Refuses, MsgCall.act, msgbufClose, none]
      rfl
    · simp only [Refuses, MsgCall.act, msgbufClose, found, if_pos others]
      rfl
  · refine iff_of_false (fun refuses => ?_) reaches
    simp only [Refuses, MsgCall.act, msgbufClose, msgbufGet_lost s.reg id reaches] at refuses
    cases refuses

theorem recv_refuses : Refuses stale s (.recv id) ↔ s.reg.Reaches id := by
  by_cases reaches : s.reg.Reaches id
  · refine iff_of_true ?_ reaches
    rcases foreign_get s id foreign reaches with none | ⟨n, found, others⟩
    · simp only [Refuses, MsgCall.act, msgbufRecv, none]
      rfl
    · simp only [Refuses, MsgCall.act, msgbufRecv, found, if_neg others]
      rfl
  · refine iff_of_false (fun refuses => ?_) reaches
    simp only [Refuses, MsgCall.act, msgbufRecv, msgbufGet_lost s.reg id reaches] at refuses
    cases refuses

/-- What a task asks for with an id that is not one of its message buffers is refused, but for a connection. -/
theorem msgbuf_foreign (call : MsgCall) (own : call.own = some id) : Refuses stale s call ↔ call.Guarded s := by
  have single (none : call.peer = none) (other : ∀ id name, call ≠ .connect id name)
      (alone : Refuses stale s call ↔ s.reg.Reaches id) : Refuses stale s call ↔ call.Guarded s := by
    rw [alone]
    refine ⟨fun reaches => ⟨fun id' mine => ?_, fun id' peer => ?_, fun id' name connects => ?_⟩, fun guarded => ?_⟩
    · rwa [← Option.some.inj (own.symm.trans mine)]
    · rw [none] at peer
      cases peer
    · exact absurd connects (other id' name)
    · exact guarded.own id own
  have pair (peer : Int) (there : call.peer = some peer) (other : ∀ id name, call ≠ .connect id name) :
      Refuses stale s call ↔ call.Guarded s := by
    rw [pair_refuses stale s id foreign call peer own there]
    refine ⟨fun both => ⟨fun id' mine => ?_, fun id' looked => ?_, fun id' name connects => ?_⟩, fun guarded => ?_⟩
    · rw [← Option.some.inj (own.symm.trans mine)]
      exact both.1
    · rw [← Option.some.inj (there.symm.trans looked)]
      exact both.2
    · exact absurd connects (other id' name)
    · exact ⟨guarded.own id own, guarded.peer peer there⟩
  cases call with
  | create _ _ _ => cases own
  | connect id' name =>
    obtain rfl := Option.some.inj own
    rw [connect_refuses stale s id' foreign name]
    refine ⟨fun both => ⟨fun id mine => ?_, fun id peer => ?_, fun id name' same => ?_⟩, fun guarded => ?_⟩
    · rw [← Option.some.inj mine]
      exact both.1
    · cases peer
    · obtain ⟨rfl, rfl⟩ := MsgCall.connect.inj same
      exact both.2
    · exact ⟨guarded.own id' rfl, guarded.named id' name rfl⟩
  | close id' =>
    obtain rfl := Option.some.inj own
    exact single rfl (fun _ _ same => by cases same) (close_refuses stale s id' foreign)
  | recv id' =>
    obtain rfl := Option.some.inj own
    exact single rfl (fun _ _ same => by cases same) (recv_refuses stale s id' foreign)
  | disconnect _ peer => exact pair peer rfl fun _ _ same => by cases same
  | send _ peer _ => exact pair peer rfl fun _ _ same => by cases same
  | reply _ peer => exact pair peer rfl fun _ _ same => by cases same

end Calls

-- Two message buffers of the second task.
def secondTasks : List (Word × MsgCall) :=
  [(poolVa 12, .create (letter 0) 0 false), (poolVa 12, .create (letter 1) 0 false)]

-- The first task does not own message buffer 0, and connects it to message buffer 1.
theorem foreign_connects :
    ¬ ∀ s₀ s : MsgSys, s₀.reg = ⟨[], 0⟩ → Run (MsgSys.CallStep zeroPages) (fun _ _ => True) s₀ s →
      ∀ t id call, call.own = some id → ¬ (s.as t).Mine id → Refuses zeroPages (s.as t) call := by
  intro claim
  have played : (MsgSys.calls zeroPages ⟨twoTasks [20, 21, 22], ⟨[], 0⟩⟩ secondTasks).map (fun s =>
      (decide ((s.as (poolVa 10)).owns 0),
        ((MsgCall.connect 0 (letter 1)).act zeroPages (s.as (poolVa 10))).toOption.bind MsgMove.ret)) = some (false, some (.id ⟨1, .ok⟩ none)) := by decide +kernel
  obtain ⟨s, reached, same⟩ := Option.map_eq_some_iff.mp played
  obtain ⟨others, connected⟩ := Prod.mk.inj same
  have run := MsgSys.calls_run zeroPages (fun _ _ => True) _ _ s secondTasks .start (fun _ _ _ => trivial) reached
  have refused := claim _ s rfl run (poolVa 10) 0 (.connect 0 (letter 1)) rfl fun mine =>
    of_decide_eq_false others mine.2.2
  rw [Refuses] at refused
  rw [refused] at connected
  cases connected

-- A message buffer of the other task is not closed.
theorem msgbuf_foreign_close : ∃ s : MsgSys, ¬ s.Mine 0 ∧
    (Refuses zeroPages s (.close 0) ↔ (MsgCall.close 0).Guarded s) := by
  have played : (MsgSys.calls zeroPages ⟨twoTasks [20, 21, 22], ⟨[], 0⟩⟩ secondTasks).map (fun s =>
      decide ((s.as (poolVa 10)).owns 0)) = some false := by decide +kernel
  obtain ⟨s, _, others⟩ := Option.map_eq_some_iff.mp played
  have foreign : ¬ (s.as (poolVa 10)).Mine 0 := fun mine => of_decide_eq_false others mine.2.2
  exact ⟨s.as (poolVa 10), foreign, msgbuf_foreign zeroPages _ 0 foreign (.close 0) rfl⟩

end Anthill
