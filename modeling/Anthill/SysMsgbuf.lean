import Anthill.MsgbufClose
import Anthill.MsgbufEnds
import Anthill.MsgbufForeign

set_option autoImplicit false

namespace Anthill

def eexist : Word := 1
def eacces : Word := 2
def enoent : Word := 6
def eagain : Word := 9

/-- The switch of a system call over the code that comes back; `fine` is what it returns for ERR_OK. -/
def msbSwitch (errno : KernErr → Option Word) (err : KernErr) (fine : Word) : Except Halt Word :=
  if err = .ok then .ok fine
  else
    match errno err with
    | some e => .ok (-e)
    | none => .error (.panic "Unhandled error code")

def createErrno : KernErr → Option Word
  | .memOom => some enomem
  | .msbExs => some eexist
  | .msbNam | .msbSiz => some einval
  | _ => none

def connectErrno : KernErr → Option Word
  | .memOom => some enomem
  | .msbCoe => some eexist
  | .msbCof => some eagain
  | .msbFnd => some eacces
  | _ => none

def disconnectErrno : KernErr → Option Word
  | .msbCod => some enoent
  | .msbFnd => some eacces
  | _ => none

def closeErrno : KernErr → Option Word
  | .msbFnd => some eacces
  | _ => none

-- A system call: its msgbuf_* function, and then the switch over what that returns.
def msbCall {R A : Type} (result : Except Halt (R × MsgSys)) (answer : R → Except Halt A) : Except Halt (A × MsgSys) :=
  match result with
  | .error halt => .error halt
  | .ok (r, s) => (answer r).map fun ret => (ret, s)

-- The value stored through `send_buf` comes with the result.
def sysMsbCreate (stale : Stale) (s : MsgSys) (name : List CChar) (size : Word) (sendBuf : Bool) :
    Except Halt ((Word × Option Word) × MsgSys) :=
  msbCall (msgbufCreate stale s name size sendBuf) fun r =>
    (msbSwitch createErrno r.1.err (BitVec.ofInt 64 r.1.id)).map fun ret => (ret, r.2)

def sysMsbConnect (s : MsgSys) (id : Int) (name : List CChar) : Except Halt (Word × MsgSys) :=
  msbCall (msgbufConnect s id name) fun idR => msbSwitch connectErrno idR.err (BitVec.ofInt 64 idR.id)

def sysMsbDisconnect (s : MsgSys) (sendId recvId : Int) : Except Halt (Word × MsgSys) :=
  msbCall (msgbufDisconnect s sendId recvId) fun err => msbSwitch disconnectErrno err 0

def sysMsbClose (s : MsgSys) (id : Int) : Except Halt (Word × MsgSys) :=
  msbCall (msgbufClose s id) fun err => msbSwitch closeErrno err 0

inductive MsbCall where
  | create (name : List CChar) (size : Word) (sendBuf : Bool)
  | connect (id : Int) (name : List CChar)
  | disconnect (sendId recvId : Int)
  | close (id : Int)

inductive UserCall where
  | msb (call : MsbCall)
  | mmap (addr len : Word) (prot flags : Int)
  | munmap (addr len : Word)

def MsbCall.enter (stale : Stale) (s : MsgSys) : MsbCall → Except Halt (Word × MsgSys)
  | .create name size sendBuf => (sysMsbCreate stale s name size sendBuf).map fun r => (r.1.1, r.2)
  | .connect id name => sysMsbConnect s id name
  | .disconnect sendId recvId => sysMsbDisconnect s sendId recvId
  | .close id => sysMsbClose s id

def MsgSys.setKernel (s : MsgSys) (k : Kernel) : MsgSys := { s with sys := s.sys.setKernel k }

/-- A system call of the current task, with what it returns. -/
def UserCall.enter (stale : Stale) (s : MsgSys) : UserCall → Except Halt (Word × MsgSys)
  | .msb call => call.enter stale s
  | .mmap addr len prot flags =>
    match sysMmap findEmptyRounds s.sys.kernel (s.sys.table s.sys.current) addr len prot flags with
    | none => .error .hang
    | some result => result.map fun r => (r.1, s.setKernel r.2)
  | .munmap addr len =>
    (sysMunmap s.sys.kernel (s.sys.table s.sys.current) addr len).map fun r => (r.1, s.setKernel r.2)

-- The state after a system call of the given task that returns.
def UserCall.step (stale : Stale) (s : MsgSys) (a : Word × UserCall) : Option MsgSys :=
  match a.2.enter stale (s.as a.1) with
  | .ok (_, s') => some s'
  | .error _ => none

-- Before the first system call.
def MsgSys.fresh (sys : Sys) : MsgSys := ⟨sys, ⟨[], 0⟩⟩

/-- Where a system call does not panic over a message buffer. -/
def MsgSys.Spares (s : MsgSys) : MsbCall → Prop
  | .create _ _ _ => True
  | .connect id name => s.reg.Has id → name ≠ [] ∨ ∀ i : Fin nodeBufCnt, s.reg.Live i
  | .disconnect sendId recvId => s.reg.Has sendId → s.reg.Has recvId → s.owns sendId.toNat →
      s.reg.Has ((s.reg.buf sendId.toNat).connections (connSearch (s.reg.buf sendId.toNat) recvId)).id →
      UnmapsAll s.sys.kernel.mem (s.lentPages sendId.toNat (connSearch (s.reg.buf sendId.toNat) recvId))
  | .close id => s.reg.Has id → s.owns id.toNat → (s.reg.buf id.toNat).addr ≠ 0 → s.Closes id.toNat

-- Whether a system call has a case for a code.
def Handles (errno : KernErr → Option Word) (err : KernErr) : Prop := err = .ok ∨ errno err ≠ none

theorem msbSwitch_spared (errno : KernErr → Option Word) (err : KernErr) (fine : Word) :
    ¬ Panics (msbSwitch errno err fine) ↔ Handles errno err := by
  unfold msbSwitch Handles
  split_ifs with good
  · exact iff_of_true (panics_ok _) (.inl good)
  · cases case : errno err with
    | none => exact iff_of_false (fun calm => calm ⟨_, rfl⟩) fun handled => handled.elim good fun some => some rfl
    | some e => exact iff_of_true (panics_ok _) (.inr (Option.some_ne_none e))

theorem panics_map {A B : Type} (f : A → B) (result : Except Halt A) : Panics (result.map f) ↔ Panics result := by
  cases result with
  | error halt => exact panics_error halt
  | ok a => exact iff_of_false (panics_ok _) (panics_ok _)

section MsbCall

variable {R A : Type} {result : Except Halt (R × MsgSys)} {answer : R → Except Halt A}

theorem msbCall_ok (r : R) (s' : MsgSys) : Panics (msbCall (.ok (r, s')) answer) ↔ Panics (answer r) := panics_map _ _

theorem msbCall_error (halt : Halt) : Panics (msbCall (.error halt) answer) ↔ Panics (.error halt : Except Halt A) :=
  panics_error halt

@[simp] theorem msbCall_fault : ¬ Panics (msbCall (.error .fault) answer) := panics_fault

@[simp] theorem msbCall_hang : ¬ Panics (msbCall (.error .hang) answer) := panics_hang

/-- A system call panics where its msgbuf_* function does, or returns a code that it has no case for. -/
theorem msbCall_spared : ¬ Panics (msbCall result answer) ↔
    ¬ Panics result ∧ ∀ r s', result = .ok (r, s') → ¬ Panics (answer r) := by
  rcases result with halt | ⟨r, s'⟩
  · rw [msbCall_error, panics_error halt (B := R × MsgSys)]
    exact ⟨fun calm => ⟨calm, fun _ _ done => by cases done⟩, And.left⟩
  · rw [msbCall_ok]
    refine ⟨fun calm => ⟨panics_ok _, fun _ _ done => ?_⟩, fun calm => calm.2 r s' rfl⟩
    obtain ⟨rfl, -⟩ := Prod.mk.inj (Except.ok.inj done)
    exact calm

theorem msbCall_done {a : A} {s' : MsgSys} (done : msbCall result answer = .ok (a, s')) : ∃ r, result = .ok (r, s') := by
  rcases result with halt | ⟨r, s₁⟩
  · cases done
  · obtain ⟨_, _, same⟩ := (map_ok _ _ _).mp done
    obtain ⟨-, rfl⟩ := Prod.mk.inj same
    exact ⟨r, rfl⟩

end MsbCall

section Create

variable {stale : Stale} {s : MsgSys} {pos : Pos} (name : List CChar) (size : Word) (sendBuf : Bool)

theorem createEnd_codes (k : Kernel) (reg : Registry) (id : Nat) (process : Process k pos (s.sys.table s.sys.current)) :
    createEnd s k reg id name size sendBuf = .error .hang ∨
      ∃ r s', createEnd s k reg id name size sendBuf = .ok (r, s') ∧ Handles createErrno r.1.err := by
  unfold createEnd
  split_ifs with wanted
  · rcases bufferAlloc_cases (s := s.sys.setKernel k) process size with
      ⟨_, hangs⟩ | ⟨_, addr, err, k', done, rfl | rfl⟩
    · exact .inl (by rw [hangs])
    · exact .inr ⟨_, _, by rw [done]; rfl, .inl rfl⟩
    · exact .inr ⟨_, _, by rw [done]; rfl, .inr (by decide)⟩
  · exact .inr ⟨_, _, rfl, .inl rfl⟩

/-- msgbuf_create never panics, and returns only what sys_msb_create has a case for. -/
theorem msgbufCreate_codes (clean : stale.Clean) (named : s.reg.Named)
    (process : Process s.sys.kernel pos (s.sys.table s.sys.current)) :
    msgbufCreate stale s name size sendBuf = .error .hang ∨
      ∃ r s', msgbufCreate stale s name size sendBuf = .ok (r, s') ∧ Handles createErrno r.1.err := by
  cases msgbufCreate_way name size sendBuf clean named with
  | refused err code why result =>
    refine .inr ⟨_, _, result, ?_⟩
    simp only [List.mem_cons, List.not_mem_nil, or_false] at code
    rcases code with rfl | rfl | rfl <;> exact .inr (by decide)
  | full va err k failed full alloc result =>
    obtain ⟨-, rfl, -⟩ := alloc_failed process.wf failed alloc
    exact .inr ⟨_, _, result, .inr (by decide)⟩
  | takes id k reg good nonempty fits clear node allotted result =>
    rw [result]
    rcases node with ⟨_, _, rfl⟩ | ⟨_, _, va, taken⟩
    · exact createEnd_codes name size sendBuf _ _ _ process
    · exact createEnd_codes name size sendBuf _ _ _ ((taken_allocated process.wf taken).process process)

end Create

section Disconnect

variable {s : MsgSys} {pos : Pos} {n : Nat} (steady : s.Steady pos n)

include steady

/-- msgbuf_disconnect of an own message buffer panics where the receiver is there and a page is not. -/
theorem connFree_calm {recvId : Int} (c : Fin maxConn) (search : connSearch (s.reg.buf n) recvId = c) :
    ¬ Panics (connFree s n recvId) ↔
      (s.reg.Has ((s.reg.buf n).connections c).id → UnmapsAll s.sys.kernel.mem (s.lentPages n c)) := by
  have pages := connFree_undoes steady c search [] fun _ listed => by cases listed
  rw [List.append_nil] at pages
  by_cases empty : (memSizeToPages (s.reg.buf n).size).toNat = 0
  · have none : s.lentPages n c = [] := by
      rw [MsgSys.lentPages, empty]
      rfl
    rw [none] at pages ⊢
    obtain ⟨k, freed, _⟩ := pages.mp ⟨fun some => absurd empty some, .nil _⟩
    rw [freed]
    exact iff_of_true (panics_ok _) fun _ => .nil _
  · rcases connFree_spared steady c search empty with ⟨stopped, gone⟩ | ⟨panics, has⟩ | ⟨k, freed, has⟩
    · rw [stopped]
      exact iff_of_true panics_fault fun has => absurd has gone
    · refine iff_of_false (fun calm => calm panics) fun all => ?_
      obtain ⟨k, freed, _⟩ := pages.mp ⟨fun _ => has, all has⟩
      rw [freed] at panics
      exact panics_ok _ panics
    · rw [freed]
      exact iff_of_true (panics_ok _) fun _ => (pages.mpr ⟨k, freed, .nil _⟩).2

end Disconnect

/-- What every run keeps: the message buffers are sound, and their owners are there. -/
structure MsgSys.Owned (s : MsgSys) : Prop where
  sound : s.reg.Sound
  owners : ∀ n, s.reg.Live n → s.sys.Live (s.reg.buf n).owner

def MsbCall.toMsg : MsbCall → MsgCall
  | .create name size sendBuf => .create name size sendBuf
  | .connect id name => .connect id name
  | .disconnect sendId recvId => .disconnect sendId recvId
  | .close id => .close id

theorem msbCall_act {stale : Stale} {s s' : MsgSys} {call : MsbCall} {ret : Word}
    (done : call.enter stale s = .ok (ret, s')) : ∃ move, call.toMsg.act stale s = .ok move ∧ move.sys = s' := by
  cases call with
  | create name size sendBuf =>
    obtain ⟨r, made, same⟩ := (map_ok _ _ _).mp done
    obtain ⟨-, rfl⟩ := Prod.mk.inj same
    obtain ⟨_, created⟩ := msbCall_done made
    exact ⟨_, (map_ok _ _ _).mpr ⟨_, created, rfl⟩, rfl⟩
  | connect id name =>
    obtain ⟨_, connected⟩ := msbCall_done done
    exact ⟨_, (map_ok _ _ _).mpr ⟨_, connected, rfl⟩, rfl⟩
  | disconnect sendId recvId =>
    obtain ⟨_, disconnected⟩ := msbCall_done done
    exact ⟨_, (map_ok _ _ _).mpr ⟨_, disconnected, rfl⟩, rfl⟩
  | close id =>
    obtain ⟨_, closed⟩ := msbCall_done done
    exact ⟨_, (map_ok _ _ _).mpr ⟨_, closed, rfl⟩, rfl⟩

theorem BufStep.owner {s : MsgSys} {call : MsgCall} {m : Nat} {b : Msgbuf} (step : BufStep s call m b) (live : b.name ≠ []) :
    (s.reg.Live m ∧ b.owner = (s.reg.buf m).owner) ∨ b.owner = s.sys.current := by
  cases step with
  | kept f drops after =>
    subst after
    obtain ⟨name, owner, _⟩ := drops.rest (s.reg.buf m)
    rw [name] at live
    exact .inl ⟨live, owner⟩
  | linked _ _ _ _ _ _ _ there _ _ after =>
    subst after
    exact .inl ⟨there, rfl⟩
  | closed _ _ _ _ after =>
    subst after
    exact absurd rfl live
  | born _ _ owner => exact .inr owner
  | grown _ nameless => exact absurd nameless live

theorem MsgSys.Owned.enter {stale : Stale} (clean : stale.Clean) {s s' : MsgSys} (owned : s.Owned)
    (current : s.sys.Live s.sys.current) {call : UserCall} {ret : Word} (done : call.enter stale s = .ok (ret, s')) :
    s'.Owned := by
  have kernel (k : Kernel) : (s.setKernel k).Owned := ⟨owned.sound, owned.owners⟩
  cases call with
  | msb call =>
    obtain ⟨move, acts, rfl⟩ := msbCall_act done
    obtain ⟨⟨k, sys⟩, _, step⟩ := act_slot clean owned.sound.named acts
    refine ⟨owned.sound.call clean acts, fun n live => ?_⟩
    have there (t : Word) : move.sys.sys.Live t ↔ s.sys.Live t := by
      rw [sys]
      exact Iff.rfl
    rw [there]
    rcases (step n).owner live with ⟨old, same⟩ | own
    · rw [same]
      exact owned.owners n old
    · rw [own]
      exact current
  | mmap addr len prot flags =>
    simp only [UserCall.enter] at done
    split at done
    · cases done
    · obtain ⟨r, _, same⟩ := (map_ok _ _ _).mp done
      obtain ⟨-, rfl⟩ := Prod.mk.inj same
      exact kernel r.2
  | munmap addr len =>
    obtain ⟨r, _, same⟩ := (map_ok _ _ _).mp done
    obtain ⟨-, rfl⟩ := Prod.mk.inj same
    exact kernel r.2

section Spares

variable {stale : Stale} {s : MsgSys} {pos : Pos} (clean : stale.Clean) (owned : s.Owned) (tables : SysTables s.sys pos)
  (current : s.sys.Live s.sys.current) (null : s.sys.kernel.leafAt 0 = none)

include owned

theorem MsgSys.Owned.get (id : Int) : (msgbufGet s.reg id = .ok (some id.toNat) ∧ s.reg.Has id) ∨
    ((msgbufGet s.reg id = .ok none ∨ msgbufGet s.reg id = .error .fault) ∧ ¬ s.reg.Has id) := by
  by_cases empty : s.reg.nodes = []
  · refine .inr ⟨.inr (msgbufGet_lost s.reg id fun reaches => reaches.1 empty), fun has => ?_⟩
    exact s.reg.nodes_ne _ has.2.inside empty
  · rcases Registry.get_has empty owned.sound.named.last id with ⟨missing, gone⟩ | ⟨found, has⟩
    · exact .inr ⟨.inl missing, gone⟩
    · exact .inl ⟨found, has⟩

include tables

theorem MsgSys.Owned.steady {id : Int} (has : s.reg.Has id) : s.Steady pos id.toNat :=
  ⟨s.reg.nodes_ne _ has.2.inside, owned.sound.named.last, owned.sound.each _ has.2, tables.wf, tables.layout,
    fun m live => tables.roots _ (owned.owners m live)⟩

theorem connect_spared (id : Int) (name : List CChar) : ¬ Panics (sysMsbConnect s id name) ↔
    (s.reg.Has id → name ≠ [] ∨ ∀ i : Fin nodeBufCnt, s.reg.Live i) := by
  rw [sysMsbConnect]
  rcases owned.get id with ⟨found, has⟩ | ⟨missing, gone⟩
  · rw [imp_iff_right has]
    rcases msgbufConnect_cases (owned.steady tables has) name found with
      ⟨panics, unnamed⟩ | ⟨named, ⟨hangs, _⟩ | ⟨_, r, s', done, code⟩⟩
    · rw [panics]
      exact iff_of_false (fun calm => calm ⟨_, rfl⟩) unnamed
    · rw [hangs]
      exact iff_of_true msbCall_hang named
    · rw [done, msbCall_ok, msbSwitch_spared]
      refine iff_of_true ?_ named
      simp only [connectCodes, List.mem_cons, List.not_mem_nil, or_false] at code
      rcases code with code | code | code | code | code <;> rw [code] <;> first | exact .inl rfl | exact .inr (by decide)
  · refine iff_of_true ?_ fun has => absurd has gone
    rcases missing with missing | missing <;> simp only [msgbufConnect, missing]
    · rw [msbCall_ok, msbSwitch_spared]
      exact .inr (by decide)
    · exact msbCall_fault

theorem disconnect_spared (sendId recvId : Int) : ¬ Panics (sysMsbDisconnect s sendId recvId) ↔
    s.Spares (.disconnect sendId recvId) := by
  have notFound : ¬ Panics (msbCall (.ok (KernErr.msbFnd, s)) fun err => msbSwitch disconnectErrno err 0) := by
    rw [msbCall_ok, msbSwitch_spared]
    exact .inr (by decide)
  rw [sysMsbDisconnect, MsgSys.Spares]
  rcases owned.get sendId with ⟨found, has⟩ | ⟨missing, gone⟩
  · rcases owned.get recvId with ⟨found', has'⟩ | ⟨missing', gone'⟩
    · rw [imp_iff_right has, imp_iff_right has']
      by_cases mine : s.owns sendId.toNat
      · rw [imp_iff_right mine, ← connFree_calm (owned.steady tables has) _ rfl]
        simp only [msgbufDisconnect, found, found', if_pos mine]
        rw [msbCall_spared]
        refine and_iff_left fun err s' done => ?_
        rw [(connFree_ok _ _ _ _ _ done).1, msbSwitch_spared]
        exact .inl rfl
      · refine iff_of_true ?_ fun own => absurd own mine
        simpa only [msgbufDisconnect, found, found', if_neg mine] using notFound
    · refine iff_of_true ?_ fun _ has' => absurd has' gone'
      rcases missing' with missing' | missing' <;> simp only [msgbufDisconnect, found, missing']
      · exact notFound
      · exact msbCall_fault
  · refine iff_of_true ?_ fun has => absurd has gone
    rcases owned.get recvId with ⟨peer, _⟩ | ⟨peer | peer, _⟩ <;> rcases missing with missing | missing <;>
      simp only [msgbufDisconnect, missing, peer] <;> first | exact notFound | exact msbCall_fault

include current

include clean in
theorem create_spared (name : List CChar) (size : Word) (sendBuf : Bool) :
    ¬ Panics (sysMsbCreate stale s name size sendBuf) := by
  have process : Process s.sys.kernel pos (s.sys.table s.sys.current) :=
    ⟨tables.wf, tables.layout, tables.roots _ current⟩
  rw [sysMsbCreate]
  rcases msgbufCreate_codes name size sendBuf clean owned.sound.named process with hangs | ⟨r, s', done, code⟩
  · rw [hangs]
    exact msbCall_hang
  · rw [done, msbCall_ok, panics_map, msbSwitch_spared]
    exact code

include null

theorem close_spared (id : Int) : ¬ Panics (sysMsbClose s id) ↔ s.Spares (.close id) := by
  have answered (err : KernErr) (handled : Handles closeErrno err) (s' : MsgSys) :
      ¬ Panics (msbCall (.ok (err, s')) fun err => msbSwitch closeErrno err 0) := by
    rwa [msbCall_ok, msbSwitch_spared]
  have notFound := answered .msbFnd (.inr (by decide)) s
  rw [sysMsbClose, MsgSys.Spares]
  rcases owned.get id with ⟨found, has⟩ | ⟨missing, gone⟩
  · rw [imp_iff_right has]
    by_cases mine : s.owns id.toNat
    · rw [imp_iff_right mine]
      by_cases unset : (s.reg.buf id.toNat).addr = 0
      · refine iff_of_true ?_ fun given => absurd unset given
        simpa only [msgbufClose, found, mine, not_true, if_false, if_pos unset] using answered .ok (.inl rfl) _
      · rw [imp_iff_right unset, ← msgbufClose_spared (owned.steady tables has) (tables.roots _ current) null found mine unset,
          msbCall_spared]
        refine and_congr_right fun _ => forall₃_congr fun err s' done => ?_
        rw [msbSwitch_spared]
        rcases msgbufClose_code (owned.steady tables has) found mine unset done with rfl | rfl
        · exact iff_of_true (.inl rfl) rfl
        · exact iff_of_false (fun handled => handled.elim KernErr.noConfusion fun some => some rfl) KernErr.noConfusion
    · refine iff_of_true ?_ fun own => absurd own mine
      simpa only [msgbufClose, found, mine, not_false_eq_true, if_true] using notFound
  · refine iff_of_true ?_ fun has => absurd has gone
    rcases missing with missing | missing <;> simp only [msgbufClose, missing]
    · exact notFound
    · exact msbCall_fault

include clean in
theorem enter_spared (call : MsbCall) : ¬ Panics (call.enter stale s) ↔ s.Spares call := by
  cases call with
  | create name size sendBuf =>
    refine iff_of_true ?_ trivial
    rw [MsbCall.enter, panics_map]
    exact create_spared clean owned tables current name size sendBuf
  | connect id name => exact connect_spared owned tables id name
  | disconnect sendId recvId => exact disconnect_spared owned tables sendId recvId
  | close id => exact close_spared owned tables current null id

end Spares

theorem MsgSys.run_owned {stale : Stale} (clean : stale.Clean) {sys : Sys} {s : MsgSys}
    (run : Run (fun s a s' => UserCall.step stale s a = some s') (fun s a => s.sys.Live a.1) (.fresh sys) s) : s.Owned := by
  have first : (MsgSys.fresh sys).Owned := ⟨Registry.sound_empty, fun _ live => absurd rfl live⟩
  refine run.invariant (fun s => s.Owned) first ?_
  rintro s ⟨t, call⟩ s' owned live taken
  unfold UserCall.step at taken
  split at taken
  next ret s₁ done =>
    obtain rfl := Option.some.inj taken
    exact MsgSys.Owned.enter clean (s := s.as t) ⟨owned.sound, owned.owners⟩ live done
  · cases taken

/-- In every state that system calls of tasks lead to, a call panics over a message buffer exactly where a page or a
message buffer that it takes for granted is not there. -/
theorem userCalls_spared (stale : Stale) (clean : stale.Clean) (sys : Sys) (s : MsgSys)
    (run : Run (fun s a s' => UserCall.step stale s a = some s') (fun s a => s.sys.Live a.1) (.fresh sys) s) (t : Word)
    (live : s.sys.Live t) (pos : Pos) (tables : SysTables s.sys pos) (null : s.sys.kernel.leafAt 0 = none) (call : MsbCall) :
    ¬ Panics (call.enter stale (s.as t)) ↔ (s.as t).Spares call := by
  have owned := MsgSys.run_owned clean run
  exact enter_spared (s := s.as t) clean ⟨owned.sound, owned.owners⟩ ⟨tables.wf, tables.layout, tables.roots⟩ live null call

-- A message buffer with a page is made and closed.
theorem userCalls_spared_closed : ∃ s, Run (fun s a s' => UserCall.step zeroPages s a = some s')
    (fun s a => s.sys.Live a.1) (.fresh viewStart.sys) s ∧ (s.as (poolVa 10)).Spares (.close 0) := by
  obtain ⟨⟨result, s⟩, done, check⟩ := ok_of_any (msgbufCreate zeroPages (viewStart.as (poolVa 10)) (letter 0) 0x1000 true)
    (fun r => decide (r.1 = (⟨0, .ok⟩, some 0x200000) ∧ r.2.sys.kernel.leafAt 0 = none) &&
      (sysMsbClose (r.2.as (poolVa 10)) 0).toOption.any fun _ => true) (by decide +kernel)
  obtain ⟨same, closed⟩ := (Bool.and_eq_true _ _).mp check
  obtain ⟨same, null⟩ := of_decide_eq_true same
  obtain rfl := same
  have live : viewStart.sys.Live (poolVa 10) := ⟨0, rfl⟩
  obtain ⟨pos, k, extends_, system, _⟩ := msgbufCreate_extends (s := viewStart.as (poolVa 10)) (n := 0)
    viewStart_tables live done (by simp)
  have tables := viewStart_tables.extend extends_
  have made : UserCall.step zeroPages viewStart (poolVa 10, .msb (.create (letter 0) 0x1000 true)) = some s := by
    simp only [UserCall.step, UserCall.enter, MsbCall.enter, sysMsbCreate, done]
    rfl
  have run : Run (fun s a s' => UserCall.step zeroPages s a = some s') (fun s a => s.sys.Live a.1)
      (.fresh viewStart.sys) s := .next _ s (poolVa 10, .msb (.create (letter 0) 0x1000 true)) .start live made
  refine ⟨s, run, (userCalls_spared zeroPages zeroPages_clean viewStart.sys s run (poolVa 10) ?_ pos ?_ null
    (.close 0)).mp ?_⟩
  · rw [system]
    exact live
  · rw [system]
    exact ⟨tables.wf, tables.layout, tables.roots⟩
  · obtain ⟨r, there, -⟩ := ok_of_any _ _ closed
    rw [MsbCall.enter, there]
    exact panics_ok r

-- It unmaps the page before it closes the message buffer.
def unmapped : List (Word × UserCall) :=
  [(poolVa 10, .msb (.create (letter 0) 0x1000 true)), (poolVa 10, .munmap 0x200000 0x1000)]

theorem unmapped_close_panics : ¬ ∀ (stale : Stale) (_ : stale.Clean) (sys : Sys) (pos : Pos), SysTables sys pos →
    sys.kernel.leafAt 0 = none → ∀ s, Run (fun s a s' => UserCall.step stale s a = some s') (fun s a => s.sys.Live a.1)
      (.fresh sys) s → ∀ t, s.sys.Live t → ∀ call : MsbCall, ¬ Panics (call.enter stale (s.as t)) := by
  intro claim
  have played : (Run.replay (UserCall.step zeroPages) (fun s a => s.sys.Live a.1) viewStart unmapped).map
      (fun s => decide (s.sys.Live (poolVa 10) ∧ Panics (sysMsbClose (s.as (poolVa 10)) 0))) = some true := by
    decide +kernel
  obtain ⟨s, reached, same⟩ := Option.map_eq_some_iff.mp played
  obtain ⟨live, panics⟩ := of_decide_eq_true same
  exact claim zeroPages zeroPages_clean viewStart.sys _ viewStart_tables (by decide +kernel) s
    (Run.of_replay (UserCall.step zeroPages) (fun s a => s.sys.Live a.1) s unmapped .start reached) (poolVa 10) live (.close 0) panics

end Anthill
