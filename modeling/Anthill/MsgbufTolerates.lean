import Anthill.MsgbufAwake
import Anthill.MsgbufEnds
import Anthill.MsgbufForeign

set_option autoImplicit false

namespace Anthill

/-- Where the first step of a call comes back: a node is there, searches for a range end, and connections that are to be
undone can be. -/
def MsgSys.Bears (s : MsgSys) : MsgCall → Prop
  | .create name size sendBuf => s.CreateEnds name size sendBuf
  | .connect id name => s.reg.nodes ≠ [] ∧ (s.reg.Has id → s.ConnectEnds id.toNat name)
  | .disconnect sendId recvId => s.reg.nodes ≠ [] ∧ (s.reg.Has sendId → s.reg.Has recvId → s.owns sendId.toNat →
      s.Undoes sendId.toNat [connSearch (s.reg.buf sendId.toNat) recvId])
  | .close id => s.reg.nodes ≠ [] ∧ (s.reg.Has id → s.owns id.toNat → (s.reg.buf id.toNat).addr ≠ 0 →
      s.Undoes id.toNat (s.reg.buf id.toNat).usedConns)
  | .send _ _ _ | .recv _ | .reply _ _ => s.reg.nodes ≠ []

-- Whether a task waits for its next call, or for a task_unblock.
def MsgPc.rests : MsgPc → Prop
  | .idle | .blocked _ => True
  | _ => False

/-- Task `t` by itself ends its call or blocks, within `steps` steps that all come back. -/
def MsgTasks.Settles (t : Word) : Nat → MsgTasks → Prop
  | 0, w => (w.pc t).rests
  | steps + 1, w => (w.pc t).rests ∨ ∃ move, (w.pc t).go (w.msg.as t) = some (.ok move) ∧ Settles t steps (w.after t move)

-- No more than two steps for each cell of a receive queue, and three.
def settleSteps : Nat := 2 * queueSize + 3

/-- The step comes back, and then the task by itself ends its call or blocks. -/
def MsgTasks.Returns (stale : Stale) (w : MsgTasks) (t : Word) (action : MsgAction) : Prop :=
  ∃ move, w.step stale t action = some (.ok move) ∧ (w.after t move).Settles t settleSteps

def Msgbuf.waiting (msgbuf : Msgbuf) : Nat := (Finset.univ.filter fun i => msgbuf.recvQueue i ≠ -1).card

-- How many steps a task that goes on by itself takes at most.
def MsgPc.left (reg : Registry) : MsgPc → Nat
  | .idle | .blocked _ => 0
  | .block _ | .answer _ _ _ => 1
  | .wake _ => 2
  | .push _ => 3
  | .pop recv => 2 * (reg.buf recv.receiver).waiting + 2
  | .look recv _ => 2 * (reg.buf recv.receiver).waiting + 3

section Calls

variable {stale : Stale} {s : MsgSys} {pos : Pos} (clean : stale.Clean) (sound : s.reg.Sound) (tables : SysTables s.sys pos)
  (current : s.sys.Live s.sys.current) (owners : ∀ m, s.reg.Live m → s.sys.Live (s.reg.buf m).owner)

include sound tables owners in
theorem steady_of_has (listed : s.reg.nodes ≠ []) (n : Nat) (live : s.reg.Live n) : s.Steady pos n :=
  ⟨listed, sound.named.last, sound.each n live, tables.wf, tables.layout, fun m there => tables.roots _ (owners m there)⟩

theorem map_returns {A B : Type} (result : Except Halt A) (f : A → B) :
    (∃ b, result.map f = .ok b) ↔ ∃ a, result = .ok a := by
  constructor
  · rintro ⟨b, done⟩
    obtain ⟨a, here, _⟩ := (map_ok _ _ _).mp done
    exact ⟨a, here⟩
  · rintro ⟨a, here⟩
    exact ⟨f a, (map_ok _ _ _).mpr ⟨a, here, rfl⟩⟩

-- Before the first node every look-up follows a NULL.
theorem act_unlisted (empty : s.reg.nodes = []) (call : MsgCall) (own : call.own ≠ none) :
    ¬ ∃ move, call.act stale s = .ok move := by
  have lost (id : Int) : msgbufGet s.reg id = .error .fault := msgbufGet_lost s.reg id fun reaches => reaches.1 empty
  rintro ⟨move, done⟩
  cases call with
  | create name size sendBuf => exact own rfl
  | _ =>
    simp only [MsgCall.act, msgbufConnect, msgbufDisconnect, msgbufClose, msgbufSend, msgbufRecv, msgbufReply, lost] at done
    cases done

include clean sound tables current owners

theorem act_returns (call : MsgCall) : (∃ move, call.act stale s = .ok move) ↔ s.Bears call := by
  have process : Process s.sys.kernel pos (s.sys.table s.sys.current) :=
    ⟨tables.wf, tables.layout, tables.roots _ current⟩
  by_cases empty : s.reg.nodes = []
  · cases call with
    | create name size sendBuf =>
      exact (map_returns _ _).trans (msgbufCreate_returns name size sendBuf clean sound.named process)
    | _ =>
      refine iff_of_false (act_unlisted empty _ (by simp [MsgCall.own])) ?_
      simp only [MsgSys.Bears, empty, ne_eq, not_true_eq_false, false_and, not_false_eq_true]
  · have get := Registry.get_has empty sound.named.last
    have steady := steady_of_has sound tables owners empty
    cases call with
    | create name size sendBuf =>
      exact (map_returns _ _).trans (msgbufCreate_returns name size sendBuf clean sound.named process)
    | connect id name =>
      refine (map_returns _ _).trans (Iff.trans ?_ (and_iff_right empty).symm)
      rcases get id with ⟨missing, gone⟩ | ⟨found, has⟩
      · exact iff_of_true ⟨_, by rw [msgbufConnect, missing]⟩ fun has => absurd has gone
      · rw [msgbufConnect_returns (steady _ has.2) name found]
        exact ⟨fun ends _ => ends, fun ends => ends has⟩
    | disconnect sendId recvId =>
      refine (map_returns _ _).trans (Iff.trans ?_ (and_iff_right empty).symm)
      rcases get sendId with ⟨missing, gone⟩ | ⟨found, has⟩ <;> rcases get recvId with ⟨missing', gone'⟩ | ⟨found', has'⟩
      · simp only [msgbufDisconnect, missing, missing']
        exact iff_of_true ⟨_, rfl⟩ fun has => absurd has gone
      · simp only [msgbufDisconnect, missing, found']
        exact iff_of_true ⟨_, rfl⟩ fun has => absurd has gone
      · simp only [msgbufDisconnect, found, missing']
        exact iff_of_true ⟨_, rfl⟩ fun _ has' => absurd has' gone'
      · by_cases owned : s.owns sendId.toNat
        · rw [msgbufDisconnect_undoes (steady _ has.2) found found' owned]
          exact ⟨fun undoes _ _ _ => undoes, fun undoes => undoes has has' owned⟩
        · simp only [msgbufDisconnect, found, found', if_neg owned]
          exact iff_of_true ⟨_, rfl⟩ fun _ _ mine => absurd mine owned
    | close id =>
      refine (map_returns _ _).trans (Iff.trans ?_ (and_iff_right empty).symm)
      rcases get id with ⟨missing, gone⟩ | ⟨found, has⟩
      · exact iff_of_true ⟨_, by rw [msgbufClose, missing]⟩ fun has => absurd has gone
      · by_cases owned : s.owns id.toNat
        · by_cases unset : (s.reg.buf id.toNat).addr = 0
          · simp only [msgbufClose, found, owned, not_true, if_false, if_pos unset]
            exact iff_of_true ⟨_, rfl⟩ fun _ _ given => absurd unset given
          · rw [msgbufClose_undoes (steady _ has.2) found owned unset]
            exact ⟨fun undoes _ _ _ => undoes, fun undoes => undoes has owned unset⟩
        · refine iff_of_true ?_ fun _ mine => absurd mine owned
          simp only [msgbufClose, found, owned, not_false_eq_true, if_true]
          exact ⟨_, rfl⟩
    | send sendId recvId flags =>
      refine iff_of_true ?_ empty
      rcases get sendId with ⟨found, _⟩ | ⟨found, _⟩ <;> rcases get recvId with ⟨found', _⟩ | ⟨found', _⟩ <;>
        simp only [MsgCall.act, msgbufSend, found, found'] <;> repeat' first | exact ⟨_, rfl⟩ | split_ifs
    | recv id =>
      refine iff_of_true ?_ empty
      rcases get id with ⟨found, _⟩ | ⟨found, _⟩ <;> simp only [MsgCall.act, msgbufRecv, found] <;>
        repeat' first | exact ⟨_, rfl⟩ | split_ifs
    | reply id replyId =>
      refine iff_of_true ?_ empty
      rcases get id with ⟨found, _⟩ | ⟨found, _⟩ <;> rcases get replyId with ⟨found', _⟩ | ⟨found', _⟩ <;>
        simp only [MsgCall.act, msgbufReply, found, found'] <;> repeat' first | exact ⟨_, rfl⟩ | split_ifs

end Calls

theorem queuePop_waiting {msgbuf msgbuf' : Msgbuf} {sendId : Int} (popped : queuePop msgbuf = .ok (sendId, msgbuf'))
    (found : sendId ≠ -1) : msgbuf'.waiting + 1 = msgbuf.waiting := by
  unfold queuePop at popped
  by_cases inside : msgbuf.recvQueuePos.toNat < queueSize
  swap
  · rw [dif_neg inside] at popped
    cases popped
  rw [dif_pos inside] at popped
  dsimp only at popped
  split_ifs at popped with empty
  · obtain ⟨rfl, _⟩ := Prod.mk.inj (Except.ok.inj popped)
    exact absurd rfl found
  · obtain ⟨_, rfl⟩ := Prod.mk.inj (Except.ok.inj popped)
    have here : ⟨msgbuf.recvQueuePos.toNat, inside⟩ ∈ Finset.univ.filter fun i => msgbuf.recvQueue i ≠ -1 := by
      simpa using empty
    rw [Msgbuf.waiting, Msgbuf.waiting, ← Finset.card_erase_add_one here]
    congr 2
    ext i
    by_cases same : i = ⟨msgbuf.recvQueuePos.toNat, inside⟩
    · subst same
      simp
    · simp [same]

theorem waiting_le (msgbuf : Msgbuf) : msgbuf.waiting ≤ queueSize := by
  refine (Finset.card_filter_le _ _).trans ?_
  simp

theorem left_le (reg : Registry) (pc : MsgPc) : pc.left reg ≤ settleSteps := by
  have cells (n : Nat) := waiting_le (reg.buf n)
  unfold settleSteps
  cases pc <;> simp only [MsgPc.left] <;> first | omega | exact Nat.add_le_add (Nat.mul_le_mul_left 2 (cells _)) (by omega)

theorem rests_iff (reg : Registry) (pc : MsgPc) : pc.rests ↔ pc.left reg = 0 := by
  cases pc <;> simp [MsgPc.rests, MsgPc.left]

section Go

variable {stale : Stale} {w : MsgTasks} (rings : TasksMatch ⟨True, True⟩ w w) (t : Word)

include rings

/-- A step inside a call comes back, and leaves fewer steps to do. -/
theorem go_returns (busy : w.pc t ≠ .idle) : ∃ move, (w.pc t).go (w.msg.as t) = some (.ok move) ∧
    (¬ (w.pc t).rests → move.pc.left move.sys.reg < (w.pc t).left w.msg.reg) := by
  have held := rings.held t
  cases pc : w.pc t with
  | idle => exact absurd pc busy
  | push send =>
    refine ⟨_, rfl, fun _ => ?_⟩
    simp only [MsgSys.goes]
    split_ifs <;> simp [MsgPc.left]
  | wake send =>
    simp only [MsgPc.go]
    split_ifs <;> exact ⟨_, rfl, fun _ => by simp [MsgPc.left]⟩
  | pop recv =>
    obtain ⟨inside, alike⟩ := held recv.receiver (by rw [pc]; rfl)
    simp only [MsgPc.go]
    rcases queuePop_cases (w.msg.reg.buf recv.receiver) (alike.queue trivial).posA with
      ⟨_, done⟩ | ⟨found, msgbuf, done, _⟩ <;> simp only [MsgSys.as, done]
    · refine ⟨_, rfl, fun _ => ?_⟩
      simp [MsgSys.goes, MsgPc.left]
    · refine ⟨_, rfl, fun _ => ?_⟩
      have fewer := queuePop_waiting done found
      simp only [MsgSys.goes, if_neg found, MsgPc.left, Registry.buf_setBuf_self _ _ _ inside]
      omega
  | look recv sendId =>
    obtain ⟨inside, _⟩ := held recv.receiver (by rw [pc]; rfl)
    have get := Registry.get_has (Registry.nodes_ne _ _ inside) rings.named.last sendId
    simp only [MsgPc.go, MsgSys.sender, MsgSys.as]
    rcases get with ⟨done, _⟩ | ⟨done, _⟩ <;> simp only [done]
    · exact ⟨_, rfl, fun _ => by simp [MsgSys.goes, MsgPc.left]⟩
    · cases connGet (w.msg.reg.buf sendId.toNat) recv.id <;>
        exact ⟨_, rfl, fun _ => by simp [MsgSys.goes, MsgSys.returns, MsgPc.left]⟩
  | answer id replyId receiver => exact ⟨_, rfl, fun _ => by simp [MsgPc.left]⟩
  | block wait => exact ⟨_, rfl, fun _ => by simp [MsgPc.left]⟩
  | blocked wait => cases wait <;> exact ⟨_, rfl, fun moving => absurd trivial moving⟩

omit rings in
/-- A task comes to rest in as many steps of its own as are left. -/
theorem settles_left (pages : StaleMatch ⟨True, True⟩ stale stale) (steps : Nat) : ∀ w : MsgTasks,
    TasksMatch ⟨True, True⟩ w w → (w.pc t).left w.msg.reg ≤ steps → w.Settles t steps := by
  induction steps with
  | zero =>
    intro w _ few
    exact (rests_iff w.msg.reg _).mpr (Nat.le_zero.mp few)
  | succ steps ih =>
    intro w rings few
    by_cases rests : (w.pc t).rests
    · exact .inl rests
    · obtain ⟨move, done, fewer⟩ := go_returns rings t fun idle => rests (idle ▸ trivial)
      have there : (w.after t move).pc t = move.pc := Function.update_self ..
      have steps : w.step stale t .go = some (.ok move) := done
      refine .inr ⟨move, done, ih _ (rings.next pages steps) ?_⟩
      rw [there]
      exact Nat.le_of_lt_succ ((fewer rests).trans_le few)

end Go

theorem MsgTasks.run_rings {stale : Stale} (pages : StaleMatch ⟨True, True⟩ stale stale)
    {allowed : MsgTasks → MsgEvent → Prop} {sys : Sys} {w : MsgTasks} (run : Run (Takes stale) allowed (fresh sys) w) :
    TasksMatch ⟨True, True⟩ w w := by
  refine run.invariant (fun w => TasksMatch ⟨True, True⟩ w w) (.fresh _ sys) ?_
  intro w event w' rings _ taken
  cases event with
  | step t action =>
    obtain ⟨move, done, rfl⟩ := taken
    exact rings.next pages done
  | other sys =>
    obtain rfl := taken
    exact ⟨⟨rfl, rings.msg.reg⟩, rings.pc, rings.named, rings.held⟩

/-- In every state of every run a task that is inside a call goes on without a halt until the call ends or blocks, and
its next call does exactly where the call finds what it needs. -/
theorem msgbuf_tolerates (stale : Stale) (clean : stale.Clean) (inRange : stale.InRange) (sys : Sys) (w : MsgTasks)
    (run : Run (MsgTasks.Takes stale) (fun _ _ => True) (.fresh sys) w) (t : Word) (pos : Pos)
    (tables : SysTables w.msg.sys pos) (live : w.msg.sys.Live t)
    (owners : ∀ n, w.msg.reg.Live n → w.msg.sys.Live (w.msg.reg.buf n).owner) :
    (w.pc t ≠ .idle → w.Returns stale t .go) ∧
      (w.pc t = .idle → ∀ call, w.Returns stale t (.call call) ↔ (w.msg.as t).Bears call) := by
  have pages := clean.pages inRange
  have rings := MsgTasks.run_rings pages run
  have settle {action : MsgAction} {move : MsgMove} (done : w.step stale t action = some (.ok move)) :
      w.Returns stale t action :=
    ⟨move, done, settles_left t pages settleSteps _ (rings.next pages done) (left_le _ _)⟩
  refine ⟨fun busy => ?_, fun idle call => ?_⟩
  · obtain ⟨move, done, _⟩ := go_returns rings t busy
    exact settle done
  · have step : w.step stale t (.call call) = some (call.act stale (w.msg.as t)) := if_pos idle
    have running : SysTables (w.msg.as t).sys pos := ⟨tables.wf, tables.layout, tables.roots⟩
    rw [← act_returns (s := w.msg.as t) clean (MsgTasks.run_sound clean run) running live owners call]
    constructor
    · rintro ⟨move, done, _⟩
      exact ⟨move, Option.some.inj (step.symm.trans done)⟩
    · rintro ⟨move, done⟩
      exact settle (step.trans (congrArg some done))

theorem msgbuf_tolerates_create : (MsgTasks.fresh viewStart.sys).Returns zeroPages (poolVa 10)
    (.call (.create (letter 0) 0x2000 false)) :=
  ((msgbuf_tolerates zeroPages zeroPages_clean zeroPages_inRange viewStart.sys (.fresh viewStart.sys) .start (poolVa 10) _
    viewStart_tables ⟨0, rfl⟩ fun _ live => absurd rfl live).2 rfl _).mpr (.inr (.inr (.inr (.inl rfl))))

-- Before the first msgbuf_create there is no node.
theorem first_call_faults : ¬ ∀ (stale : Stale) (_ : stale.Clean) (_ : stale.InRange) (sys : Sys) (w : MsgTasks)
    (_ : Run (MsgTasks.Takes stale) (fun _ _ => True) (.fresh sys) w) (t : Word) (pos : Pos),
    SysTables w.msg.sys pos → w.msg.sys.Live t →
    (∀ n, w.msg.reg.Live n → w.msg.sys.Live (w.msg.reg.buf n).owner) → w.pc t = .idle →
    ∀ call, w.Returns stale t (.call call) := by
  intro claim
  obtain ⟨move, done, _⟩ := claim zeroPages zeroPages_clean zeroPages_inRange viewStart.sys (.fresh viewStart.sys) .start
    (poolVa 10) _ viewStart_tables ⟨0, rfl⟩ (fun _ live => absurd rfl live) rfl (.send 100 (-1) 0)
  exact act_unlisted (s := (MsgTasks.fresh viewStart.sys).msg.as (poolVa 10)) rfl (.send 100 (-1) 0) (by simp [MsgCall.own])
    ⟨move, Option.some.inj done⟩

end Anthill
