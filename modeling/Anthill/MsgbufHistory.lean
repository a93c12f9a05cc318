import Anthill.Channel
import Anthill.MsgbufSlots
import Anthill.Run

set_option autoImplicit false

namespace Anthill

instance (reg : Registry) (n : Nat) : Decidable (reg.Live n) := inferInstanceAs (Decidable (¬ _ = _))

-- A pid names one task of the array.
def Sys.PidsDistinct (s : Sys) : Prop :=
  ∀ t u, s.Live t → s.Live u → (s.task t).pid = (s.task u).pid → t = u

/-- A push: the message buffers by their ids, and which of those that have had an id it was. -/
structure MsgItem where
  receiver : Nat
  receiverNo : Nat
  sender : Nat
  senderNo : Nat
deriving DecidableEq, Repr

/-- An id in a receive queue, with the push that left it there. -/
structure MsgTag where
  number : Nat
  item : MsgItem
deriving DecidableEq, Repr

/-- The tasks, and beside them what has happened. `made` counts the message buffers that have had an id,
`senderNo` keeps which one a task's send was called for, `queue` where the ids in a receive queue come
from, `taken` where the one that a task has popped last does, and `mine` is a task's last push. -/
structure MsgHistory where
  tasks : MsgTasks
  made : Nat → Nat
  senderNo : Word → Nat
  log : Channel.Log MsgItem
  queue : Nat → List MsgTag
  taken : Word → Option MsgTag
  mine : Word → Nat

namespace MsgHistory

def reg (h : MsgHistory) : Registry := h.tasks.msg.reg

def fresh (sys : Sys) : MsgHistory where
  tasks := .fresh sys
  made _ := 0
  senderNo _ := 0
  log := .empty
  queue _ := []
  taken _ := none
  mine _ := 0

/-- Id `n` gets a message buffer. -/
def Born (h : MsgHistory) (move : MsgMove) (n : Nat) : Prop := ¬ h.reg.Live n ∧ move.sys.reg.Live n

instance (h : MsgHistory) (move : MsgMove) (n : Nat) : Decidable (h.Born move n) :=
  inferInstanceAs (Decidable (_ ∧ _))

def afterCall (h : MsgHistory) (t : Word) (call : MsgCall) (move : MsgMove) : MsgHistory :=
  { h with
    tasks := h.tasks.after t move
    made := fun n => if h.Born move n then h.made n + 1 else h.made n
    queue := fun n => if h.Born move n then [] else h.queue n
    senderNo :=
      match call with
      | .send sendId _ _ => Function.update h.senderNo t (h.made sendId.toNat)
      | _ => h.senderNo }

-- What the push of task `t` is put down as.
def item (h : MsgHistory) (t : Word) (send : MsgSend) : MsgItem :=
  ⟨send.receiver, h.made send.receiver, send.sendId.toNat, h.senderNo t⟩

def afterGo (h : MsgHistory) (t : Word) (pc : MsgPc) (move : MsgMove) : MsgHistory :=
  let h' := { h with tasks := h.tasks.after t move }
  match pc, move.pc with
  | .push send, .wake _ =>
    { h' with
      log := h.log.send (h.item t send)
      queue := Function.update h.queue send.receiver
        (h.queue send.receiver ++ [⟨h.log.sent.length, h.item t send⟩])
      mine := Function.update h.mine t h.log.sent.length }
  | .pop recv, .look _ _ =>
    { h' with
      queue := Function.update h.queue recv.receiver (h.queue recv.receiver).tail
      taken := Function.update h.taken t (h.queue recv.receiver).head? }
  -- The message buffers are the ones that have the ids when msgbuf_recv returns.
  | .look recv sendId, .idle =>
    let item := ⟨recv.receiver, h.made recv.receiver, sendId.toNat, h.made sendId.toNat⟩
    { h' with log := h.log.receive item (((h.taken t).map MsgTag.number).getD 0) }
  | _, _ => h'

theorem afterGo_tasks (h : MsgHistory) (t : Word) (pc : MsgPc) (move : MsgMove) :
    (h.afterGo t pc move).tasks = h.tasks.after t move := by
  unfold afterGo
  split <;> rfl

theorem afterGo_mine (h : MsgHistory) (t : Word) (pc : MsgPc) (move : MsgMove) (u : Word) (other : u ≠ t) :
    (h.afterGo t pc move).mine u = h.mine u := by
  unfold afterGo
  split
  · exact Function.update_of_ne other _ _
  · rfl
  · rfl
  · rfl

def after (h : MsgHistory) (t : Word) : MsgAction → MsgMove → MsgHistory
  | .call call, move => h.afterCall t call move
  | .go, move => h.afterGo t (h.tasks.pc t) move

/-- One atomic step, with what is put down about it. -/
def Step (stale : Stale) (h : MsgHistory) (a : Word × MsgAction) (h' : MsgHistory) : Prop :=
  ∃ move, h.tasks.step stale a.1 a.2 = some (.ok move) ∧ h' = h.after a.1 a.2 move

/-- Message buffer `n` is live, and owned by task `t`. -/
structure Owned (h : MsgHistory) (t : Word) (n : Nat) : Prop where
  live : h.reg.Live n
  pid : h.tasks.msg.ownerPid n = (h.tasks.msg.sys.task t).pid

/-- What msgbuf_send has checked, and what still holds. -/
structure Sends (h : MsgHistory) (t : Word) (send : MsgSend) : Prop where
  sender : send.sendId = send.sendId.toNat
  owned : h.Owned t send.sendId.toNat
  number : h.made send.sendId.toNat = h.senderNo t
  receiver : send.recvId = send.receiver
  made : 0 < h.made send.receiver

structure Receives (h : MsgHistory) (t : Word) (recv : MsgRecv) : Prop where
  receiver : recv.id = recv.receiver
  owned : h.Owned t recv.receiver

/-- What is known of task `t` where it is. -/
def At (h : MsgHistory) (t : Word) : MsgPc → Prop
  | .idle => True
  | .push send | .block (.space send) | .blocked (.space send) => h.Sends t send
  | .wake send | .block (.reply send) | .blocked (.reply send) => h.Sends t send ∧ ∃ item,
      h.log.sent[h.mine t]? = some item ∧ item.receiver = send.receiver ∧ item.sender = send.sendId.toNat
  | .pop recv | .block (.message recv) | .blocked (.message recv) => h.Receives t recv
  | .look recv sendId => h.Receives t recv ∧ ∃ tag, h.taken t = some tag ∧ sendId = tag.item.sender ∧
      h.log.sent[tag.number]? = some tag.item ∧ tag.item.receiver = recv.receiver ∧
      tag.item.receiverNo = h.made recv.receiver
  | .answer id replyId receiver => id = id.toNat ∧ h.Owned t id.toNat ∧ replyId = receiver

/-- A tag of the receive queue of `r`. -/
structure Tagged (h : MsgHistory) (r : Nat) (tag : MsgTag) : Prop where
  sent : h.log.sent[tag.number]? = some tag.item
  receiver : tag.item.receiver = r
  number : tag.item.receiverNo = h.made r

/-- The history agrees with the system. -/
structure Ok (sys : Sys) (h : MsgHistory) : Prop where
  named : h.reg.Named
  task : h.tasks.msg.sys.task = sys.task
  tasks : h.tasks.msg.sys.tasks = sys.tasks
  born : ∀ n, h.reg.Live n → 0 < h.made n
  inside : ∀ n, 0 < h.made n → n < h.reg.nodes.length * nodeBufCnt
  actors : ∀ t, h.tasks.pc t ≠ .idle → sys.Live t
  places : ∀ t, h.At t (h.tasks.pc t)
  contents : ∀ r, 0 < h.made r →
    (h.reg.buf r).Contents ((h.queue r).map fun tag => (tag.item.sender : Int))
  tagged : ∀ r, ∀ tag ∈ h.queue r, h.Tagged r tag

theorem ok_fresh (sys : Sys) : (fresh sys).Ok sys where
  named := ⟨rfl, fun _ => Nat.zero_le _, fun _ _ live => absurd rfl live⟩
  task := rfl
  tasks := rfl
  born _ live := absurd rfl live
  inside _ made := absurd made (lt_irrefl 0)
  actors _ busy := absurd rfl busy
  places _ := trivial
  contents _ made := absurd made (lt_irrefl 0)
  tagged _ _ none := absurd none List.not_mem_nil

/-- What a step leaves of what task `t` knows. -/
structure Kept (h h' : MsgHistory) (t : Word) : Prop where
  owned : ∀ n, h.Owned t n → h'.Owned t n ∧ h'.made n = h.made n
  made : ∀ n, 0 < h.made n → 0 < h'.made n
  senderNo : h'.senderNo t = h.senderNo t
  sent : ∀ (p : Nat) (item : MsgItem), h.log.sent[p]? = some item → h'.log.sent[p]? = some item

section Kept

variable {h h' : MsgHistory} {t : Word} (kept : Kept h h' t)

include kept

theorem Kept.sends {send : MsgSend} (sends : h.Sends t send) : h'.Sends t send where
  sender := sends.sender
  owned := (kept.owned _ sends.owned).1
  number := by rw [(kept.owned _ sends.owned).2, kept.senderNo, sends.number]
  receiver := sends.receiver
  made := kept.made _ sends.made

theorem Kept.receives {recv : MsgRecv} (receives : h.Receives t recv) : h'.Receives t recv :=
  ⟨receives.receiver, (kept.owned _ receives.owned).1⟩

theorem Kept.place (taken : h'.taken t = h.taken t) (mine : h'.mine t = h.mine t) {pc : MsgPc}
    (place : h.At t pc) : h'.At t pc := by
  have pushed {send : MsgSend} (before : h.Sends t send ∧ ∃ item, h.log.sent[h.mine t]? = some item ∧
      item.receiver = send.receiver ∧ item.sender = send.sendId.toNat) :
      h'.Sends t send ∧ ∃ item, h'.log.sent[h'.mine t]? = some item ∧
        item.receiver = send.receiver ∧ item.sender = send.sendId.toNat := by
    obtain ⟨sends, item, there, rest⟩ := before
    exact ⟨kept.sends sends, item, by rw [mine]; exact kept.sent _ _ there, rest⟩
  cases pc with
  | idle => trivial
  | push send => exact kept.sends place
  | wake send => exact pushed place
  | pop recv => exact kept.receives place
  | look recv sendId =>
    obtain ⟨receives, tag, last, same, there, receiver, number⟩ := place
    refine ⟨kept.receives receives, tag, taken.trans last, same, kept.sent _ _ there, receiver, ?_⟩
    rw [(kept.owned _ receives.owned).2, number]
  | answer id replyId receiver => exact ⟨place.1, (kept.owned _ place.2.1).1, place.2.2⟩
  | block wait =>
    cases wait with
    | space send => exact kept.sends place
    | reply send => exact pushed place
    | message recv => exact kept.receives place
  | blocked wait =>
    cases wait with
    | space send => exact kept.sends place
    | reply send => exact pushed place
    | message recv => exact kept.receives place

end Kept

section Step

variable {sys : Sys} {h : MsgHistory} (ok : h.Ok sys)

include ok

theorem Ok.owned_of (t : Word) {id : Int} {n : Nat} (found : msgbufGet h.reg id = .ok (some n))
    (owns : (h.tasks.msg.as t).owns n) : id = n ∧ h.Owned t n := by
  obtain ⟨same, live⟩ := msgbufGet_some ok.named.last found
  exact ⟨same, live, owns⟩

/-- What a call leaves of the message buffers, where task `t` makes it. -/
theorem Ok.afterCall_kept {stale : Stale} (clean : stale.Clean) (distinct : sys.PidsDistinct) (t : Word)
    (live : sys.Live t) {call : MsgCall} {move : MsgMove} (done : call.act stale (h.tasks.msg.as t) = .ok move)
    (u : Word) (other : u ≠ t) (there : sys.Live u) : Kept h (h.afterCall t call move) u := by
  obtain ⟨⟨k, after⟩, length, bufs⟩ := act_slot (s := h.tasks.msg.as t) clean ok.named done
  have task : move.sys.sys.task = sys.task := by
    rw [after]
    exact ok.task
  have made (n : Nat) : (h.afterCall t call move).made n = if h.Born move n then h.made n + 1 else h.made n := rfl
  refine ⟨fun n owned => ?_, fun n positive => ?_, ?_, fun p item there => there⟩
  · have unborn : ¬ h.Born move n := fun born => born.1 owned.live
    rw [made, if_neg unborn]
    refine ⟨?_, rfl⟩
    have same (f : Msgbuf → Msgbuf) (drops : DropsConns f) : (f (h.reg.buf n)).name = (h.reg.buf n).name ∧
        (f (h.reg.buf n)).owner = (h.reg.buf n).owner := ⟨(drops.rest _).1, (drops.rest _).2.1⟩
    have keeps (msgbuf : Msgbuf) (here : move.sys.reg.buf n = msgbuf) (name : msgbuf.name = (h.reg.buf n).name)
        (owner : msgbuf.owner = (h.reg.buf n).owner) : (h.afterCall t call move).Owned u n := by
      constructor
      · show (move.sys.reg.buf n).name ≠ []
        rw [here, name]
        exact owned.live
      · show (move.sys.sys.task (move.sys.reg.buf n).owner).pid = (move.sys.sys.task u).pid
        rw [here, owner, task, ← ok.task]
        exact owned.pid
    cases bufs n with
    | kept f drops after => exact keeps _ after (same f drops).1 (same f drops).2
    | linked id name r c recvBuf _ _ _ _ _ after _ => exact keeps _ after rfl rfl
    | closed _ owns f drops after =>
      have mine : h.tasks.msg.ownerPid n = (h.tasks.msg.sys.task t).pid := owns
      rw [owned.pid, ok.task] at mine
      exact absurd (distinct u t there live mine) other
    | born free => exact absurd owned.live free
    | grown outside => exact absurd owned.live.inside outside
  · rw [made]
    split_ifs
    · omega
    · exact positive
  · cases call with
    | send sendId recvId flags => exact Function.update_of_ne other _ _
    | _ => rfl

-- A call that ends at once leaves its task idle.
omit ok in
theorem idle_of_whole {stale : Stale} {s : MsgSys} {call : MsgCall} {move : MsgMove} (whole : ¬ call.checks)
    (done : call.act stale s = .ok move) : move.pc = .idle := by
  cases call with
  | create name size sendBuf =>
    obtain ⟨_, _, rfl⟩ := (map_ok _ _ _).mp done
    rfl
  | connect id name =>
    obtain ⟨_, _, rfl⟩ := (map_ok _ _ _).mp done
    rfl
  | disconnect sendId recvId =>
    obtain ⟨_, _, rfl⟩ := (map_ok _ _ _).mp done
    rfl
  | close id =>
    obtain ⟨_, _, rfl⟩ := (map_ok _ _ _).mp done
    rfl
  | _ => exact absurd trivial whole

-- A call gets to a push, a pop or an answer at most.
omit ok in
theorem call_pc {stale : Stale} {s : MsgSys} {call : MsgCall} {move : MsgMove}
    (done : call.act stale s = .ok move) : move.pc = .idle ∨ (∃ send, move.pc = .push send) ∨
      (∃ recv, move.pc = .pop recv) ∨ ∃ id replyId receiver, move.pc = .answer id replyId receiver := by
  by_cases checks : call.checks
  · cases call with
    | send id recvId flags =>
      rcases msgbufSend_ok s id recvId flags move done with ⟨_, _, rfl⟩ | ⟨_, r, _, _, _, _, rfl⟩
      · exact .inl rfl
      · exact .inr (.inl ⟨_, rfl⟩)
    | recv id =>
      rcases msgbufRecv_ok s id move done with ⟨_, _, rfl⟩ | ⟨_, _, _, rfl⟩
      · exact .inl rfl
      · exact .inr (.inr (.inl ⟨_, rfl⟩))
    | reply id replyId =>
      rcases msgbufReply_ok s id replyId move done with ⟨_, _, rfl⟩ | ⟨_, _, _, _, _, rfl⟩
      · exact .inl rfl
      · exact .inr (.inr (.inr ⟨_, _, _, rfl⟩))
    | _ => exact checks.elim
  · exact .inl (idle_of_whole checks done)

/-- Where the checks of msgbuf_send, msgbuf_recv and msgbuf_reply lead to. -/
theorem Ok.entered {stale : Stale} (t : Word) {call : MsgCall} {move : MsgMove} (checks : call.checks)
    (done : call.act stale (h.tasks.msg.as t) = .ok move) : (h.afterCall t call move).At t move.pc := by
  have still := checks_still checks done
  have unborn (n : Nat) : ¬ h.Born move n := by
    rintro ⟨free, live⟩
    rw [still] at live
    exact free live
  have made (n : Nat) : (h.afterCall t call move).made n = h.made n := if_neg (unborn n)
  have owned (n : Nat) (before : h.Owned t n) : (h.afterCall t call move).Owned t n := by
    constructor
    · show move.sys.reg.Live n
      rw [still]
      exact before.live
    · show move.sys.ownerPid n = (move.sys.sys.task t).pid
      rw [still]
      exact before.pid
  cases call with
  | send sendId recvId flags =>
    rcases msgbufSend_ok _ sendId recvId flags move done with
      ⟨_, _, rfl⟩ | ⟨n, r, foundN, foundR, owns, _, rfl⟩
    · trivial
    · obtain ⟨rfl, mine⟩ := ok.owned_of t foundN owns
      obtain ⟨rfl, there⟩ := msgbufGet_some ok.named.last foundR
      refine ⟨rfl, owned n mine, ?_, rfl, ?_⟩
      · rw [made]
        exact (Function.update_self t (h.made n) h.senderNo).symm
      · rw [made]
        exact ok.born r there
  | recv id =>
    rcases msgbufRecv_ok _ id move done with ⟨_, _, rfl⟩ | ⟨n, foundN, owns, rfl⟩
    · trivial
    · obtain ⟨rfl, mine⟩ := ok.owned_of t foundN owns
      exact ⟨rfl, owned n mine⟩
  | reply id replyId =>
    rcases msgbufReply_ok _ id replyId move done with ⟨_, _, rfl⟩ | ⟨n, r, foundN, foundR, owns, rfl⟩
    · trivial
    · obtain ⟨rfl, mine⟩ := ok.owned_of t foundN owns
      exact ⟨rfl, owned n mine, (msgbufGet_some ok.named.last foundR).1⟩
  | _ => exact checks.elim

theorem Ok.call {stale : Stale} (clean : stale.Clean) (distinct : sys.PidsDistinct) (t : Word)
    (live : sys.Live t) {call : MsgCall} {move : MsgMove}
    (done : call.act stale (h.tasks.msg.as t) = .ok move) : (h.afterCall t call move).Ok sys := by
  obtain ⟨⟨k, after⟩, length, bufs⟩ := act_slot (s := h.tasks.msg.as t) clean ok.named done
  have made (n : Nat) : (h.afterCall t call move).made n = if h.Born move n then h.made n + 1 else h.made n := rfl
  have queue (n : Nat) : (h.afterCall t call move).queue n = if h.Born move n then [] else h.queue n := rfl
  have pc (u : Word) : (h.afterCall t call move).tasks.pc u = Function.update h.tasks.pc t move.pc u := rfl
  refine ⟨act_named (s := h.tasks.msg.as t) clean ok.named done, ?_, ?_, fun n there => ?_, fun n positive => ?_,
    fun u busy => ?_, fun u => ?_, fun r positive => ?_, fun r tag member => ?_⟩
  · show move.sys.sys.task = sys.task
    rw [after]
    exact ok.task
  · show move.sys.sys.tasks = sys.tasks
    rw [after]
    exact ok.tasks
  · rw [made]
    split_ifs with born
    · omega
    · exact ok.born n (by_contra fun free => born ⟨free, there⟩)
  · rw [made] at positive
    split_ifs at positive with born
    · exact born.2.inside
    · exact (ok.inside n positive).trans_le (Nat.mul_le_mul_right _ length)
  · by_cases here : u = t
    · rw [here]
      exact live
    · rw [pc, Function.update_of_ne here] at busy
      exact ok.actors u busy
  · rw [pc]
    by_cases here : u = t
    · subst here
      rw [Function.update_self]
      by_cases checks : call.checks
      · exact ok.entered u checks done
      · rw [idle_of_whole checks done]
        trivial
    · rw [Function.update_of_ne here]
      by_cases idle : h.tasks.pc u = .idle
      · rw [idle]
        trivial
      · exact (ok.afterCall_kept clean distinct t live done u here (ok.actors u idle)).place rfl rfl
          (ok.places u)
  · have named (f : Msgbuf → Msgbuf) (drops : DropsConns f) : (f (h.reg.buf r)).name = (h.reg.buf r).name :=
      (drops.rest _).1
    rw [made] at positive
    rw [queue]
    split_ifs at positive ⊢ with born
    · obtain ⟨free, there⟩ := born
      refine .nil _ ?_
      cases bufs r with
      | kept f drops after =>
        rw [Registry.Live, after] at there
        exact absurd (fun gone => there ((named f drops).trans gone)) free
      | linked _ _ _ _ _ _ _ before => exact absurd before free
      | closed before => exact absurd before free
      | born _ _ _ empty => exact empty
      | grown _ nameless => exact absurd nameless there
    · have old := ok.contents r positive
      cases bufs r with
      | kept f drops after => exact old.same _ (after ▸ (drops.rest _).2.2.1) (after ▸ (drops.rest _).2.2.2)
      | linked _ _ _ _ _ _ _ _ _ _ after => exact old.same _ (after ▸ rfl) (after ▸ rfl)
      | closed _ _ f drops after => exact old.same _ (after ▸ (drops.rest _).2.2.1) (after ▸ (drops.rest _).2.2.2)
      | born free named => exact absurd ⟨free, named⟩ born
      | grown outside => exact absurd (ok.inside r positive) outside
  · rw [queue] at member
    split_ifs at member with born
    · exact absurd member List.not_mem_nil
    · have old := ok.tagged r tag member
      exact ⟨old.sent, old.receiver, by rw [made, if_neg born]; exact old.number⟩

omit ok in
theorem kept_of_only {h' : MsgHistory} (t u : Word) (only : QueuesOnly (h.tasks.msg.as t) h'.tasks.msg)
    (made : h'.made = h.made) (senderNo : h'.senderNo = h.senderNo)
    (sent : ∀ (p : Nat) (item : MsgItem), h.log.sent[p]? = some item → h'.log.sent[p]? = some item) :
    Kept h h' u := by
  refine ⟨fun n owned => ⟨?_, by rw [made]⟩, fun n positive => by rwa [made], by rw [senderNo], sent⟩
  obtain ⟨queue, pos, after⟩ := only.bufs n
  constructor
  · show (h'.tasks.msg.reg.buf n).name ≠ []
    rw [after]
    exact owned.live
  · show (h'.tasks.msg.sys.task (h'.tasks.msg.reg.buf n).owner).pid = (h'.tasks.msg.sys.task u).pid
    rw [after, only.sys]
    exact owned.pid

/-- A step of task `t` inside a call, from what it does to the receive queues and to what is put down. -/
theorem Ok.steps {h' : MsgHistory} (t : Word) (live : sys.Live t)
    (only : QueuesOnly (h.tasks.msg.as t) h'.tasks.msg) (made : h'.made = h.made)
    (senderNo : h'.senderNo = h.senderNo)
    (sent : ∀ (p : Nat) (item : MsgItem), h.log.sent[p]? = some item → h'.log.sent[p]? = some item)
    (others : ∀ u, u ≠ t → h'.tasks.pc u = h.tasks.pc u ∧ h'.taken u = h.taken u ∧ h'.mine u = h.mine u)
    (here : h'.At t (h'.tasks.pc t))
    (contents : ∀ r, 0 < h.made r →
      (h'.reg.buf r).Contents ((h'.queue r).map fun tag => (tag.item.sender : Int)))
    (tagged : ∀ r, ∀ tag ∈ h'.queue r, h'.Tagged r tag) : h'.Ok sys where
  named := only.named ok.named
  task := by rw [only.sys]; exact ok.task
  tasks := by rw [only.sys]; exact ok.tasks
  born n there := by
    obtain ⟨queue, pos, after⟩ := only.bufs n
    rw [made]
    refine ok.born n ?_
    rw [reg, Registry.Live, after] at there
    exact there
  inside n positive := by
    rw [made] at positive
    rw [reg, only.length]
    exact ok.inside n positive
  actors u busy := by
    by_cases same : u = t
    · rw [same]
      exact live
    · rw [(others u same).1] at busy
      exact ok.actors u busy
  places u := by
    by_cases same : u = t
    · rw [same]
      exact here
    · rw [(others u same).1]
      exact (kept_of_only t u only made senderNo sent).place (others u same).2.1 (others u same).2.2
        (ok.places u)
  contents r positive := by
    rw [made] at positive
    exact contents r positive
  tagged := tagged

-- A step that leaves the receive queues alone.
theorem Ok.stays (t : Word) (live : sys.Live t) (move : MsgMove) (still : move.sys = h.tasks.msg.as t)
    (here : { h with tasks := h.tasks.after t move }.At t move.pc) :
    { h with tasks := h.tasks.after t move }.Ok sys := by
  have only : QueuesOnly (h.tasks.msg.as t) move.sys := still ▸ .refl _
  refine ok.steps t live only rfl rfl (fun _ _ => id) (fun u other => ⟨?_, rfl, rfl⟩) ?_ (fun r positive => ?_)
    fun r tag member => ?_
  · exact Function.update_of_ne other _ _
  · show MsgHistory.At _ t (Function.update h.tasks.pc t move.pc t)
    rw [Function.update_self]
    exact here
  · show (move.sys.reg.buf r).Contents _
    rw [still]
    exact ok.contents r positive
  · exact ⟨(ok.tagged r tag member).sent, (ok.tagged r tag member).receiver, (ok.tagged r tag member).number⟩

-- The queues after message buffer `n` got other contents.
theorem Ok.queues (t : Word) (n : Nat) (positive : 0 < h.made n) (msgbuf : Msgbuf) (tags : List MsgTag)
    (contents : msgbuf.Contents (tags.map fun tag => (tag.item.sender : Int))) (r : Nat) (there : 0 < h.made r) :
    (((h.tasks.msg.as t).put n msgbuf).reg.buf r).Contents
      ((Function.update h.queue n tags r).map fun tag => (tag.item.sender : Int)) := by
  rw [(h.tasks.msg.as t).put_buf n msgbuf (ok.inside n positive), Function.update_apply, Function.update_apply]
  split_ifs
  · exact contents
  · exact ok.contents r there

theorem Ok.put_same (t : Word) (n : Nat) (positive : 0 < h.made n) (msgbuf : Msgbuf)
    (same : msgbuf = (h.tasks.msg.as t).reg.buf n) : (h.tasks.msg.as t).put n msgbuf = h.tasks.msg.as t := by
  rw [same]
  exact MsgSys.put_same _ _ (ok.inside n positive)

theorem Ok.pushed (t : Word) (live : sys.Live t) (send : MsgSend) (sends : h.Sends t send) (msgbuf : Msgbuf)
    (contents : msgbuf.Contents ((h.queue send.receiver).map (fun tag => (tag.item.sender : Int)) ++ [send.sendId]))
    (only : QueuesOnly (h.tasks.msg.as t) ((h.tasks.msg.as t).put send.receiver msgbuf)) :
    (h.afterGo t (.push send) (((h.tasks.msg.as t).put send.receiver msgbuf).goes (.wake send))).Ok sys := by
  have last : ∀ (p : Nat) (item : MsgItem), h.log.sent[p]? = some item →
      (h.log.send (h.item t send)).sent[p]? = some item := h.log.get_send _
  have kept : Kept h (h.afterGo t (.push send) (((h.tasks.msg.as t).put send.receiver msgbuf).goes (.wake send))) t :=
    kept_of_only t t only rfl rfl last
  refine ok.steps t live only rfl rfl last
    (fun u other => ⟨Function.update_of_ne other _ _, rfl, Function.update_of_ne other _ _⟩)
    ?_ (ok.queues t send.receiver sends.made msgbuf _ ?_) fun r tag member => ?_
  · show MsgHistory.At _ t (Function.update h.tasks.pc t _ t)
    rw [Function.update_self]
    refine ⟨kept.sends sends, h.item t send, ?_, rfl, rfl⟩
    show (h.log.send (h.item t send)).sent[Function.update h.mine t h.log.sent.length t]? = _
    simp [Channel.Log.send]
  · rw [List.map_append]
    rw [sends.sender] at contents
    exact contents
  · change tag ∈ Function.update h.queue send.receiver _ r at member
    rw [Function.update_apply] at member
    have keep (before : tag ∈ h.queue r) : MsgHistory.Tagged (h.afterGo t (.push send)
        (((h.tasks.msg.as t).put send.receiver msgbuf).goes (.wake send))) r tag :=
      have old := ok.tagged r tag before
      ⟨last _ _ old.sent, old.receiver, old.number⟩
    split_ifs at member with same
    · rw [← same] at member
      rcases List.mem_append.mp member with before | new
      · exact keep before
      · rw [List.mem_singleton.mp new]
        refine ⟨?_, same.symm, by rw [same]; rfl⟩
        show (h.log.send (h.item t send)).sent[h.log.sent.length]? = some (h.item t send)
        simp [Channel.Log.send]
    · exact keep member

theorem Ok.popped (t : Word) (live : sys.Live t) (recv : MsgRecv) (receives : h.Receives t recv) (sendId : Int)
    (msgbuf : Msgbuf) (rest : List Int)
    (ids : (h.queue recv.receiver).map (fun tag => (tag.item.sender : Int)) = sendId :: rest)
    (contents : msgbuf.Contents rest)
    (only : QueuesOnly (h.tasks.msg.as t) ((h.tasks.msg.as t).put recv.receiver msgbuf)) :
    (h.afterGo t (.pop recv) (((h.tasks.msg.as t).put recv.receiver msgbuf).goes (.look recv sendId))).Ok sys := by
  cases tags : h.queue recv.receiver with
  | nil => rw [tags] at ids; cases ids
  | cons tag tags' =>
    rw [tags, List.map_cons] at ids
    obtain ⟨front, rfl⟩ := List.cons.inj ids
    have first := ok.tagged recv.receiver tag (by rw [tags]; exact List.mem_cons_self)
    have kept : Kept h (h.afterGo t (.pop recv)
        (((h.tasks.msg.as t).put recv.receiver msgbuf).goes (.look recv sendId))) t :=
      kept_of_only t t only rfl rfl fun _ _ => id
    refine ok.steps t live only rfl rfl (fun _ _ => id)
      (fun u other => ⟨Function.update_of_ne other _ _, Function.update_of_ne other _ _, rfl⟩) ?_
      (ok.queues t recv.receiver (ok.born _ receives.owned.live) msgbuf _ ?_) fun r other member => ?_
    · show MsgHistory.At _ t (Function.update h.tasks.pc t _ t)
      rw [Function.update_self]
      refine ⟨kept.receives receives, tag, ?_, front.symm, first.sent, first.receiver, first.number⟩
      show Function.update h.taken t (h.queue recv.receiver).head? t = some tag
      rw [Function.update_self, tags, List.head?_cons]
    · rw [tags]
      exact contents
    · change other ∈ Function.update h.queue recv.receiver _ r at member
      rw [Function.update_apply] at member
      have old : other ∈ h.queue r := by
        split_ifs at member with same
        · rw [same]
          exact List.mem_of_mem_tail member
        · exact member
      exact ⟨(ok.tagged r other old).sent, (ok.tagged r other old).receiver, (ok.tagged r other old).number⟩

theorem Ok.go (t : Word) (live : sys.Live t) {pc : MsgPc} {move : MsgMove} (where_ : h.tasks.pc t = pc)
    (step : GoStep (h.tasks.msg.as t) pc move) : (h.afterGo t pc move).Ok sys := by
  have place := ok.places t
  rw [where_] at place
  have kept (move : MsgMove) (still : move.sys = h.tasks.msg.as t) :
      Kept h { h with tasks := h.tasks.after t move } t :=
    kept_of_only t t (still ▸ .refl _) rfl rfl fun _ _ => id
  have only := step.queuesOnly
  cases step with
  | pushed send msgbuf push =>
    have sends : h.Sends t send := place
    have used : send.sendId ≠ -1 := by
      have := sends.sender
      omega
    rcases (ok.contents _ sends.made).push send.sendId used true msgbuf push with ⟨_, contents⟩ | ⟨failed, _⟩
    · exact ok.pushed t live send sends msgbuf contents only
    · cases failed
  | full send msgbuf push =>
    have sends : h.Sends t send := place
    have used : send.sendId ≠ -1 := by
      have := sends.sender
      omega
    rcases (ok.contents _ sends.made).push send.sendId used false msgbuf push with ⟨done, _⟩ | ⟨_, same⟩
    · cases done
    · have still := ok.put_same t _ sends.made msgbuf same
      exact ok.stays t live _ still ((kept _ still).sends sends)
  | sent send noblock => exact ok.stays t live _ rfl trivial
  | waits send blocking => exact ok.stays t live _ rfl ((kept _ rfl).place rfl rfl place)
  | popped recv sendId msgbuf pop found =>
    have receives : h.Receives t recv := place
    rcases (ok.contents _ (ok.born _ receives.owned.live)).pop sendId msgbuf pop with
      ⟨_, none, _⟩ | ⟨rest, ids, _, contents⟩
    · exact absurd none found
    · exact ok.popped t live recv receives sendId msgbuf rest ids contents only
  | empty recv msgbuf pop =>
    have receives : h.Receives t recv := place
    have positive := ok.born _ receives.owned.live
    rcases (ok.contents _ positive).pop (-1) msgbuf pop with ⟨_, _, same⟩ | ⟨_, _, some, _⟩
    · have still := ok.put_same t _ positive msgbuf same
      exact ok.stays t live _ still ((kept _ still).receives receives)
    · exact absurd rfl some
  | got recv sendId addr found =>
    refine ok.steps t live only rfl rfl (fun _ _ => id) (fun u other => ⟨Function.update_of_ne other _ _, rfl, rfl⟩) ?_
      ok.contents fun r tag member => ?_
    · show MsgHistory.At _ t (Function.update h.tasks.pc t _ t)
      rw [Function.update_self]
      trivial
    · exact ⟨(ok.tagged r tag member).sent, (ok.tagged r tag member).receiver, (ok.tagged r tag member).number⟩
  | gone recv sendId found => exact ok.stays t live _ rfl ((kept _ rfl).receives place.1)
  | answered id replyId receiver => exact ok.stays t live _ rfl trivial
  | blocks wait =>
    cases wait with
    | space send => exact ok.stays t live _ rfl ((kept _ rfl).sends place)
    | reply send => exact ok.stays t live _ rfl ((kept _ rfl).place rfl rfl place)
    | message recv => exact ok.stays t live _ rfl ((kept _ rfl).receives place)
  | again send => exact ok.stays t live _ rfl ((kept _ rfl).sends place)
  | replied send => exact ok.stays t live _ rfl trivial
  | retries recv => exact ok.stays t live _ rfl ((kept _ rfl).receives place)

theorem Ok.after {stale : Stale} (clean : stale.Clean) (distinct : sys.PidsDistinct) (t : Word)
    (live : sys.Live t) (action : MsgAction) (move : MsgMove)
    (done : h.tasks.step stale t action = some (.ok move)) : (h.after t action move).Ok sys := by
  cases action with
  | call call =>
    unfold MsgTasks.step at done
    split_ifs at done
    exact ok.call clean distinct t live (Option.some.inj done)
  | go => exact ok.go t live rfl (go_step done)

end Step

theorem run_ok {stale : Stale} (clean : stale.Clean) {sys : Sys} (distinct : sys.PidsDistinct) {h : MsgHistory}
    {allowed : MsgHistory → Word × MsgAction → Prop} (acts : ∀ h a, allowed h a → sys.Live a.1)
    (run : Run (Step stale) allowed (fresh sys) h) : h.Ok sys := by
  refine run.invariant (fun h => h.Ok sys) (ok_fresh sys) ?_
  rintro h ⟨t, action⟩ h' ok fine ⟨move, done, rfl⟩
  exact ok.after clean distinct t (acts h _ fine) action move done

-- The steps of a run one after the other.
def play (stale : Stale) (h : MsgHistory) : List (Word × MsgAction) → Option MsgHistory
  | [] => some h
  | a :: rest =>
    match h.tasks.step stale a.1 a.2 with
    | some (.ok move) => (h.after a.1 a.2 move).play stale rest
    | _ => none

theorem play_cons (stale : Stale) (h h' : MsgHistory) (a : Word × MsgAction) (steps : List (Word × MsgAction))
    (done : h.play stale (a :: steps) = some h') :
    ∃ move, h.tasks.step stale a.1 a.2 = some (.ok move) ∧ (h.after a.1 a.2 move).play stale steps = some h' := by
  unfold play at done
  split at done
  next move taken => exact ⟨move, taken, done⟩
  · cases done

theorem play_run (stale : Stale) (allowed : MsgHistory → Word × MsgAction → Prop) (h₀ h h' : MsgHistory)
    (steps : List (Word × MsgAction)) (before : Run (Step stale) allowed h₀ h)
    (fine : ∀ h a, a ∈ steps → allowed h a) (done : h.play stale steps = some h') :
    Run (Step stale) allowed h₀ h' := by
  induction steps generalizing h with
  | nil =>
    obtain rfl := Option.some.inj done
    exact before
  | cons a steps ih =>
    obtain ⟨move, taken, done⟩ := play_cons stale h h' a steps done
    exact ih _ (.next h _ a before (fine h a List.mem_cons_self) ⟨move, taken, rfl⟩)
      (fun h a member => fine h a (List.mem_cons_of_mem _ member)) done

end MsgHistory

-- The same task takes all the steps.
def alone (actions : List MsgAction) : List (Word × MsgAction) := actions.map fun action => (poolVa 10, action)

section Crew

variable (cells : List Cell) (free : List Nat) (members : List Member) (running : Nat)

theorem crew_member (t : Word) (live : (crew cells free members running).Live t) :
    ∃ m, m ∈ members ∧ t = poolVa m.task := by
  obtain ⟨i, there⟩ := live
  simp only [crew, Option.map_eq_some_iff] at there
  obtain ⟨m, found, same⟩ := there
  exact ⟨m, List.mem_of_getElem? found, same.symm⟩

theorem crew_distinct (inside : ∀ m, m ∈ members → m.task < 384)
    (distinct : (members.map Member.task).Nodup) : (crew cells free members running).PidsDistinct := by
  intro t u liveT liveU same
  obtain ⟨m, listedM, rfl⟩ := crew_member cells free members running t liveT
  obtain ⟨n, listedN, rfl⟩ := crew_member cells free members running u liveU
  have pids : (m.task : Int) = n.task := by
    simpa only [crew, crew_find members inside distinct m listedM, crew_find members inside distinct n listedN]
      using same
  rw [Int.ofNat.inj pids]

end Crew

theorem oneTask_distinct (cells : List Cell) (free : List Nat) : (oneTask cells free).PidsDistinct :=
  crew_distinct cells free _ 10 (by simp) (by simp)

theorem oneTask_live (cells : List Cell) (free : List Nat) : (oneTask cells free).Live (poolVa 10) := ⟨0, rfl⟩

end Anthill
