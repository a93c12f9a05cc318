import Anthill.MsgbufHistory

set_option autoImplicit false

namespace Anthill

namespace MsgHistory

/-- A tag that msgbuf_recv may still answer for: in the receive queue of `r`, or popped from it by a task
that has not looked yet. -/
def Pending (h : MsgHistory) (r : Nat) (tag : MsgTag) : Prop :=
  tag ∈ h.queue r ∨ ∃ t recv sendId, h.tasks.pc t = .look recv sendId ∧ recv.receiver = r ∧
    h.taken t = some tag

/-- No message buffer is connected to a receiver that its id is pending at from an earlier one. -/
def Careful (h : MsgHistory) (t : Word) : MsgAction → Prop
  | .call (.connect id name) => ∀ (r : Nat) s', msgbufConnect (h.tasks.msg.as t) id name = .ok (⟨r, .ok⟩, s') →
      ∀ tag, h.Pending r tag → tag.item.sender = id.toNat → tag.item.senderNo = h.made id.toNat
  | _ => True

def numbers (h : MsgHistory) (r : Nat) : List Nat := (h.queue r).map MsgTag.number

/-- What the receive queues hold of the pushes. -/
structure Traced (h : MsgHistory) (held : Nat → List Nat) : Prop where
  holds : h.log.Holds MsgItem.receiver held
  queued : ∀ r, (h.numbers r).Sublist (held r)
  looking : ∀ t recv sendId tag, h.tasks.pc t = .look recv sendId → h.taken t = some tag →
    held recv.receiver = tag.number :: h.numbers recv.receiver
  current : ∀ r tag, h.Pending r tag → h.reg.Live tag.item.sender →
    (h.reg.buf tag.item.sender).Connected r → tag.item.senderNo = h.made tag.item.sender

section Step

variable {sys : Sys} {h : MsgHistory} (ok : h.Ok sys) {held : Nat → List Nat} (traced : h.Traced held)

include ok traced

theorem Traced.call {stale : Stale} (clean : stale.Clean) (t : Word) {call : MsgCall} {move : MsgMove}
    (done : call.act stale (h.tasks.msg.as t) = .ok move)
    (careful : h.Careful t (.call call)) : ∃ held', (h.afterCall t call move).Traced held' := by
  obtain ⟨_, _, bufs⟩ := act_slot (s := h.tasks.msg.as t) clean ok.named done
  have queue (n : Nat) : (h.afterCall t call move).queue n = if h.Born move n then [] else h.queue n := rfl
  have numbers (n : Nat) : (h.afterCall t call move).numbers n = if h.Born move n then [] else h.numbers n := by
    rw [MsgHistory.numbers, queue]
    split_ifs <;> rfl
  have looks (u : Word) (recv : MsgRecv) (sendId : Int)
      (look : (h.afterCall t call move).tasks.pc u = .look recv sendId) :
      h.tasks.pc u = .look recv sendId ∧ ¬ h.Born move recv.receiver := by
    change Function.update h.tasks.pc t move.pc u = .look recv sendId at look
    rw [Function.update_apply] at look
    split_ifs at look
    · rcases call_pc done with pc | ⟨_, pc⟩ | ⟨_, pc⟩ | ⟨_, _, _, pc⟩ <;> rw [pc] at look <;> cases look
    · refine ⟨look, fun born => born.1 ?_⟩
      have place := ok.places u
      rw [look] at place
      exact place.1.owned.live
  have before (r : Nat) (tag : MsgTag) (pending : (h.afterCall t call move).Pending r tag) :
      h.Pending r tag ∧ ¬ h.Born move r := by
    rcases pending with member | ⟨u, recv, sendId, look, rfl, taken⟩
    · rw [queue] at member
      split_ifs at member with born
      · exact absurd member List.not_mem_nil
      · exact ⟨.inl member, born⟩
    · obtain ⟨look, unborn⟩ := looks u recv sendId look
      exact ⟨.inr ⟨u, recv, sendId, look, rfl, taken⟩, unborn⟩
  refine ⟨fun r => if h.Born move r then [] else held r, ?_, fun r => ?_, ?_, ?_⟩
  · refine traced.holds.fewer _ fun r => ?_
    split_ifs
    · exact List.nil_sublist _
    · exact .refl _
  · rw [numbers]
    split_ifs
    · exact .refl _
    · exact traced.queued r
  · intro u recv sendId tag look taken
    obtain ⟨look, unborn⟩ := looks u recv sendId look
    simp only [numbers, if_neg unborn]
    exact traced.looking u recv sendId tag look taken
  · intro r tag waiting live connected
    obtain ⟨pending, _⟩ := before r tag waiting
    have made (already : h.reg.Live tag.item.sender) :
        (h.afterCall t call move).made tag.item.sender = h.made tag.item.sender :=
      if_neg fun born => born.1 already
    have proper : (r : Int) ≠ -1 := by omega
    change (move.sys.reg.buf tag.item.sender).name ≠ [] at live
    change (move.sys.reg.buf tag.item.sender).Connected r at connected
    cases bufs tag.item.sender with
    | kept f drops after =>
      rw [after] at live connected
      rw [(drops.rest _).1] at live
      rw [made live]
      exact traced.current r tag pending live (drops.connected _ r proper connected)
    | linked id name r' c recvBuf is sender already _ _ after fine =>
      obtain ⟨s', fine⟩ := fine
      rw [made already]
      by_cases same : r' = r
      · subst is same
        have number := careful r' s' fine tag pending (by omega)
        rw [number, sender]
        rfl
      · rw [after] at connected
        rcases setConn_connected _ c _ r connected with new | old
        · exact absurd (Int.ofNat.inj new) same
        · exact traced.current r tag pending already old
    | closed _ _ f drops after => exact absurd (by rw [after]) live
    | born _ _ _ _ conns =>
      obtain ⟨c, there⟩ := connected
      rw [conns] at there
      exact absurd there.symm proper
    | grown _ nameless => exact absurd nameless live

omit ok in
/-- A step of task `t` that leaves the queues, or takes the first id of a queue away for a look. -/
theorem Traced.steps {h' : MsgHistory} (t : Word) {held' : Nat → List Nat}
    (only : QueuesOnly (h.tasks.msg.as t) h'.tasks.msg) (made : h'.made = h.made)
    (holds : h'.log.Holds MsgItem.receiver held') (queued : ∀ r, (h'.numbers r).Sublist (held' r))
    (looking : ∀ u recv sendId tag, h'.tasks.pc u = .look recv sendId → h'.taken u = some tag →
      held' recv.receiver = tag.number :: h'.numbers recv.receiver)
    (pending : ∀ r tag, h'.Pending r tag → h.Pending r tag ∨ tag.item.senderNo = h.made tag.item.sender) :
    h'.Traced held' := by
  refine ⟨holds, queued, looking, fun r tag waiting live connected => ?_⟩
  obtain ⟨queue, pos, after⟩ := only.bufs tag.item.sender
  rw [made]
  rcases pending r tag waiting with before | new
  · change (h'.tasks.msg.reg.buf tag.item.sender).name ≠ [] at live
    change (h'.tasks.msg.reg.buf tag.item.sender).Connected r at connected
    rw [after] at live connected
    exact traced.current r tag before live connected
  · exact new

omit ok traced in
-- A step to a place without a look leaves a task that looks where it was.
theorem look_of_after (t u : Word) (move : MsgMove) (blind : ∀ recv sendId, move.pc ≠ .look recv sendId) (recv : MsgRecv)
    (sendId : Int) (look : (h.tasks.after t move).pc u = .look recv sendId) : h.tasks.pc u = .look recv sendId := by
  change Function.update h.tasks.pc t move.pc u = _ at look
  rw [Function.update_apply] at look
  split_ifs at look with here
  · exact absurd look (blind recv sendId)
  · exact look

omit ok in
-- A step that only takes the task to another place, where it does not look.
theorem Traced.moves (t : Word) (move : MsgMove) (only : QueuesOnly (h.tasks.msg.as t) move.sys)
    (blind : ∀ recv sendId, move.pc ≠ .look recv sendId) :
    ({ h with tasks := h.tasks.after t move } : MsgHistory).Traced held := by
  have looks (u : Word) := look_of_after (h := h) t u move blind
  refine traced.steps t only rfl traced.holds traced.queued (fun u recv sendId tag look =>
    traced.looking u recv sendId tag (looks u recv sendId look)) fun r tag pending => .inl ?_
  rcases pending with member | ⟨u, recv, sendId, look, same, taken⟩
  · exact .inl member
  · exact .inr ⟨u, recv, sendId, looks u recv sendId look, same, taken⟩

omit traced in
-- No other task looks at the queue of a message buffer that `t` receives from.
theorem looks_alone (distinct : sys.PidsDistinct) (t : Word) (live : sys.Live t) (recv : MsgRecv)
    (receives : h.Receives t recv) (u : Word) (other : u ≠ t) (recv' : MsgRecv) (sendId : Int)
    (look : h.tasks.pc u = .look recv' sendId) : recv'.receiver ≠ recv.receiver := by
  intro same
  have theirs := ok.places u
  rw [look] at theirs
  have pid := theirs.1.owned.pid
  rw [same, receives.owned.pid, ok.task] at pid
  have busy : h.tasks.pc u ≠ .idle := by
    rw [look]
    simp
  exact other (distinct u t (ok.actors u busy) live pid.symm)

omit ok in
theorem Traced.pushed (t : Word) (send : MsgSend) (msgbuf : Msgbuf) (sends : h.Sends t send)
    (only : QueuesOnly (h.tasks.msg.as t) ((h.tasks.msg.as t).put send.receiver msgbuf)) :
    ∃ held', (h.afterGo t (.push send)
      (((h.tasks.msg.as t).put send.receiver msgbuf).goes (.wake send))).Traced held' := by
  have looks (u : Word) (recv : MsgRecv) (sendId : Int) := look_of_after (h := h) t u
    (((h.tasks.msg.as t).put send.receiver msgbuf).goes (.wake send)) (fun _ _ same => by cases same) recv sendId
  have numbers (r : Nat) : (h.afterGo t (.push send)
      (((h.tasks.msg.as t).put send.receiver msgbuf).goes (.wake send))).numbers r =
      Function.update h.numbers send.receiver (h.numbers send.receiver ++ [h.log.sent.length]) r := by
    show (Function.update h.queue send.receiver _ r).map MsgTag.number = _
    rw [Function.update_apply, Function.update_apply]
    split_ifs
    · rw [List.map_append]
      rfl
    · rfl
  refine ⟨_, traced.steps t only rfl (traced.holds.send (h.item t send)) (fun r => ?_) ?_ ?_⟩
  · show List.Sublist _ (Function.update held send.receiver (held send.receiver ++ _) r)
    rw [numbers, Function.update_apply, Function.update_apply]
    split_ifs
    · exact (traced.queued _).append (.refl _)
    · exact traced.queued r
  · intro u recv sendId tag look taken
    rw [afterGo_tasks] at look
    have old := traced.looking u recv sendId tag (looks u recv sendId look) taken
    show Function.update held send.receiver (held send.receiver ++ _) recv.receiver = _
    rw [numbers, Function.update_apply, Function.update_apply]
    split_ifs with same
    · rw [← same, old]
      rfl
    · exact old
  · rintro r tag (member | ⟨u, recv, sendId, look, same, taken⟩)
    · change tag ∈ Function.update h.queue send.receiver _ r at member
      rw [Function.update_apply] at member
      split_ifs at member with same
      · rcases List.mem_append.mp member with before | new
        · exact .inl (.inl (same ▸ before))
        · rw [List.mem_singleton.mp new]
          exact .inr sends.number.symm
      · exact .inl (.inl member)
    · rw [afterGo_tasks] at look
      exact .inl (.inr ⟨u, recv, sendId, looks u recv sendId look, same, taken⟩)

theorem Traced.popped (distinct : sys.PidsDistinct) (t : Word) (live : sys.Live t) (recv : MsgRecv) (sendId : Int)
    (msgbuf : Msgbuf) (receives : h.Receives t recv)
    (pop : queuePop ((h.tasks.msg.as t).reg.buf recv.receiver) = .ok (sendId, msgbuf)) (found : sendId ≠ -1)
    (only : QueuesOnly (h.tasks.msg.as t) ((h.tasks.msg.as t).put recv.receiver msgbuf)) :
    ∃ held', (h.afterGo t (.pop recv)
      (((h.tasks.msg.as t).put recv.receiver msgbuf).goes (.look recv sendId))).Traced held' := by
  rcases (ok.contents _ (ok.born _ receives.owned.live)).pop sendId msgbuf pop with
    ⟨_, none, _⟩ | ⟨_, ids, _, _⟩
  · exact absurd none found
  cases tags : h.queue recv.receiver with
  | nil => rw [tags] at ids; cases ids
  | cons tag tags' =>
    have before : h.numbers recv.receiver = tag.number :: tags'.map MsgTag.number := by
      rw [MsgHistory.numbers, tags, List.map_cons]
    have numbers (r : Nat) : (h.afterGo t (.pop recv)
        (((h.tasks.msg.as t).put recv.receiver msgbuf).goes (.look recv sendId))).numbers r =
        Function.update h.numbers recv.receiver (tags'.map MsgTag.number) r := by
      show (Function.update h.queue recv.receiver (h.queue recv.receiver).tail r).map MsgTag.number = _
      rw [Function.update_apply, Function.update_apply, tags, List.tail_cons]
      split_ifs <;> rfl
    -- The task has the tag in hand, and the others look at what they looked at.
    have looks (u : Word) (recv' : MsgRecv) (sendId' : Int) (tag' : MsgTag)
        (look : (h.tasks.after t (((h.tasks.msg.as t).put recv.receiver msgbuf).goes (.look recv sendId))).pc u =
          .look recv' sendId')
        (last : (h.afterGo t (.pop recv)
          (((h.tasks.msg.as t).put recv.receiver msgbuf).goes (.look recv sendId))).taken u = some tag') :
        (recv' = recv ∧ tag' = tag) ∨ (recv'.receiver ≠ recv.receiver ∧ h.tasks.pc u = .look recv' sendId' ∧
          h.taken u = some tag') := by
      change Function.update h.tasks.pc t _ u = _ at look
      change Function.update h.taken t (h.queue recv.receiver).head? u = _ at last
      rw [Function.update_apply, tags, List.head?_cons] at last
      rw [Function.update_apply] at look
      by_cases same : u = t
      · rw [if_pos same] at look last
        exact .inl ⟨(MsgPc.look.inj look).1.symm, (Option.some.inj last).symm⟩
      · rw [if_neg same] at look last
        exact .inr ⟨looks_alone ok distinct t live recv receives u same recv' sendId' look, look, last⟩
    have fewer (r : Nat) : (Function.update held recv.receiver (h.numbers recv.receiver) r).Sublist (held r) := by
      rw [Function.update_apply]
      split_ifs with same
      · rw [same]
        exact traced.queued _
      · exact .refl _
    refine ⟨_, traced.steps t only rfl (traced.holds.fewer _ fewer) (fun r => ?_) ?_ ?_⟩
    · rw [numbers, Function.update_apply, Function.update_apply]
      split_ifs
      · rw [before]
        exact List.sublist_cons_self _ _
      · exact traced.queued r
    · intro u recv' sendId' tag' look last
      rw [afterGo_tasks] at look
      rw [numbers, Function.update_apply, Function.update_apply]
      rcases looks u recv' sendId' tag' look last with ⟨rfl, rfl⟩ | ⟨away, look, last⟩
      · rw [if_pos rfl, if_pos rfl, before]
      · rw [if_neg away, if_neg away]
        exact traced.looking u recv' sendId' tag' look last
    · rintro r tag' (member | ⟨u, recv', sendId', look, rfl, last⟩)
      · change tag' ∈ Function.update h.queue recv.receiver (h.queue recv.receiver).tail r at member
        rw [Function.update_apply] at member
        split_ifs at member with same
        · rw [same]
          exact .inl (.inl (List.mem_of_mem_tail member))
        · exact .inl (.inl member)
      · rw [afterGo_tasks] at look
        rcases looks u recv' sendId' tag' look last with ⟨rfl, rfl⟩ | ⟨_, look, last⟩
        · exact .inl (.inl (by rw [tags]; exact List.mem_cons_self))
        · exact .inl (.inr ⟨u, recv', sendId', look, rfl, last⟩)

theorem Traced.got (distinct : sys.PidsDistinct) (t : Word) (live : sys.Live t) (recv : MsgRecv) (addr : Word)
    (tag : MsgTag) (where_ : h.tasks.pc t = .look recv tag.item.sender) (receives : h.Receives t recv)
    (last : h.taken t = some tag) (sent : h.log.sent[tag.number]? = some tag.item)
    (receiver : tag.item.receiver = recv.receiver) (receiverNo : tag.item.receiverNo = h.made recv.receiver)
    (found : (h.tasks.msg.as t).sender recv tag.item.sender = .ok (some addr))
    (only : QueuesOnly (h.tasks.msg.as t) ((h.tasks.msg.as t).returns (.id ⟨tag.item.sender, .ok⟩ (some addr))).sys) :
    ∃ held', (h.afterGo t (.look recv (tag.item.sender : Int))
      ((h.tasks.msg.as t).returns (.id ⟨tag.item.sender, .ok⟩ (some addr)))).Traced held' := by
  have looks (u : Word) (recv' : MsgRecv) (sendId' : Int) (look : (h.tasks.after t
      ((h.tasks.msg.as t).returns (.id ⟨tag.item.sender, .ok⟩ (some addr)))).pc u = .look recv' sendId') :
      u ≠ t ∧ h.tasks.pc u = .look recv' sendId' := by
    refine ⟨?_, look_of_after t u _ (fun _ _ same => by cases same) recv' sendId' look⟩
    rintro rfl
    change Function.update h.tasks.pc u _ u = _ at look
    rw [Function.update_self] at look
    cases look
  have front := traced.looking t recv _ tag where_ last
  have item : (⟨recv.receiver, h.made recv.receiver, (tag.item.sender : Int).toNat,
      h.made (tag.item.sender : Int).toNat⟩ : MsgItem) = tag.item := by
    obtain ⟨n, same, alive, connected⟩ := sender_some ok.named.last found
    obtain rfl := Int.ofNat.inj same
    rw [receives.receiver] at connected
    have pending : h.Pending recv.receiver tag := .inr ⟨t, recv, _, where_, rfl, last⟩
    have senderNo := traced.current recv.receiver tag pending alive connected
    rw [Int.toNat_natCast, ← senderNo, ← receiverNo, ← receiver]
  have log : (h.afterGo t (.look recv (tag.item.sender : Int))
      ((h.tasks.msg.as t).returns (.id ⟨tag.item.sender, .ok⟩ (some addr)))).log =
      h.log.receive tag.item tag.number := by
    show h.log.receive ⟨recv.receiver, h.made recv.receiver, _, _⟩ (((h.taken t).map MsgTag.number).getD 0) = _
    rw [item, last]
    rfl
  rw [← receiver] at front
  have received := traced.holds.receive tag.item tag.number _ front sent
  rw [← log] at received
  refine ⟨_, traced.steps t only rfl received (fun r => ?_) ?_ ?_⟩
  · rw [Function.update_apply]
    split_ifs with same
    · rw [same]
      exact .refl _
    · exact traced.queued r
  · intro u recv' sendId' tag' look last'
    rw [afterGo_tasks] at look
    obtain ⟨other, look⟩ := looks u recv' sendId' look
    rw [Function.update_apply, receiver,
      if_neg (looks_alone ok distinct t live recv receives u other recv' sendId' look)]
    exact traced.looking u recv' sendId' tag' look last'
  · rintro r tag' (member | ⟨u, recv', sendId', look, same, last'⟩)
    · exact .inl (.inl member)
    · rw [afterGo_tasks] at look
      exact .inl (.inr ⟨u, recv', sendId', (looks u recv' sendId' look).2, same, last'⟩)

theorem Traced.go (distinct : sys.PidsDistinct) (t : Word) (live : sys.Live t) {pc : MsgPc} {move : MsgMove}
    (where_ : h.tasks.pc t = pc) (step : GoStep (h.tasks.msg.as t) pc move) :
    ∃ held', (h.afterGo t pc move).Traced held' := by
  have place := ok.places t
  rw [where_] at place
  have only := step.queuesOnly
  have moves := traced.moves t
  cases step with
  | pushed send msgbuf push => exact traced.pushed t send msgbuf place only
  | popped recv sendId msgbuf pop found => exact traced.popped ok distinct t live recv sendId msgbuf place pop found only
  | got recv sendId addr found =>
    obtain ⟨receives, tag, last, rfl, sent, receiver, receiverNo⟩ := place
    exact traced.got ok distinct t live recv addr tag where_ receives last sent receiver receiverNo found only
  | full send msgbuf push => exact ⟨held, moves _ only fun _ _ same => by cases same⟩
  | sent send noblock => exact ⟨held, moves _ only fun _ _ same => by cases same⟩
  | waits send blocking => exact ⟨held, moves _ only fun _ _ same => by cases same⟩
  | empty recv msgbuf pop => exact ⟨held, moves _ only fun _ _ same => by cases same⟩
  | gone recv sendId found => exact ⟨held, moves _ only fun _ _ same => by cases same⟩
  | answered id replyId receiver => exact ⟨held, moves _ only fun _ _ same => by cases same⟩
  | blocks wait => cases wait <;> exact ⟨held, moves _ only fun _ _ same => by cases same⟩
  | again send => exact ⟨held, moves _ only fun _ _ same => by cases same⟩
  | replied send => exact ⟨held, moves _ only fun _ _ same => by cases same⟩
  | retries recv => exact ⟨held, moves _ only fun _ _ same => by cases same⟩

end Step

end MsgHistory

open MsgHistory in
/-- In every run on proper node pages in which no message buffer is connected to a receiver that still
holds its id from an earlier one, every message that msgbuf_recv returns was pushed before, once, by the
message buffer that has its id now, to the message buffer that it is received from, and the messages of
each receiver come in the order of their pushes. -/
theorem msgbuf_attributed (stale : Stale) (clean : stale.Clean) (sys : Sys) (distinct : sys.PidsDistinct)
    (h : MsgHistory)
    (run : Run (Step stale) (fun h a => sys.Live a.1 ∧ h.Careful a.1 a.2) (fresh sys) h) :
    h.log.Attributed MsgItem.receiver := by
  have invariant : h.Ok sys ∧ ∃ held, h.Traced held := by
    refine run.invariant (fun h => h.Ok sys ∧ ∃ held, h.Traced held) ⟨ok_fresh sys, fun _ => [], ?_⟩ ?_
    · refine ⟨Channel.Log.holds_empty, fun r => .refl _, fun t recv sendId tag look => ?_,
        fun r tag pending => ?_⟩
      · cases look
      · rcases pending with member | ⟨t, recv, sendId, look, _⟩
        · cases member
        · cases look
    · rintro h ⟨t, action⟩ h' ⟨ok, held, traced⟩ ⟨live, careful⟩ ⟨move, done, rfl⟩
      refine ⟨ok.after clean distinct t live action move done, ?_⟩
      cases action with
      | call call =>
        unfold MsgTasks.step at done
        split_ifs at done
        exact traced.call ok clean t (Option.some.inj done) careful
      | go => exact traced.go ok distinct t live rfl (go_step done)
  obtain ⟨_, held, traced⟩ := invariant
  exact traced.holds.attributed

-- A message is pushed, its sender closed, and the id given to a message buffer that connects to the receiver.
def reusedId : List (Word × MsgAction) :=
  alone [.call (.create (letter 0) 0 false), .call (.create (letter 1) 0 false), .call (.connect 1 (letter 0)),
    .call (.send 1 0 msbNoblock), .go, .go, .call (.close 1), .call (.create (letter 2) 0 false),
    .call (.connect 1 (letter 0)), .call (.recv 0), .go, .go]

open MsgHistory in
-- No push of the message buffer that it is returned for can be given to the message.
theorem reusedId_misattributed :
    ¬ ∀ (stale : Stale) (_ : stale.Clean) (sys : Sys) (_ : sys.PidsDistinct) (h : MsgHistory),
      Run (Step stale) (fun _ a => sys.Live a.1) (fresh sys) h → ∀ g ∈ h.log.got, g.item ∈ h.log.sent := by
  intro claim
  have played : ((fresh (oneTask [] [20, 21, 22])).play zeroPages reusedId).map MsgHistory.log =
      some ⟨[⟨0, 1, 1, 1⟩], [⟨⟨0, 1, 1, 2⟩, 0, 1⟩]⟩ := by decide +kernel
  obtain ⟨h, reached, log⟩ := Option.map_eq_some_iff.mp played
  have run := play_run zeroPages (fun _ a => (oneTask [] [20, 21, 22]).Live a.1) _ _ h reusedId .start
    (fun h a member => by
      obtain ⟨_, _, rfl⟩ := List.mem_map.mp member
      exact oneTask_live [] [20, 21, 22]) reached
  have sent := claim zeroPages zeroPages_clean _ (oneTask_distinct [] [20, 21, 22]) h run
  rw [log] at sent
  have same := sent _ List.mem_cons_self
  revert same
  decide

-- Nothing has been pushed yet.
theorem MsgHistory.Ok.careful {sys : Sys} {h : MsgHistory} (ok : h.Ok sys) (none : h.log.sent = []) (t : Word)
    (action : MsgAction) : h.Careful t action := by
  unfold MsgHistory.Careful
  split
  next id name =>
    rintro r s' _ tag (member | ⟨u, recv, sendId, look, _, last⟩)
    · have sent := (ok.tagged r tag member).sent
      rw [none] at sent
      cases sent
    · have place := ok.places u
      rw [look] at place
      obtain ⟨_, tag', last', _, sent, _⟩ := place
      rw [none] at sent
      cases sent
  · trivial

open MsgHistory in
-- A message goes through.
theorem msgbuf_attributed_one : ∃ h : MsgHistory, h.log.got = [⟨⟨0, 1, 1, 1⟩, 0, 1⟩] ∧
    h.log.Attributed MsgItem.receiver := by
  let sys := oneTask [] [20, 21, 22]
  let allowed := fun (h : MsgHistory) (a : Word × MsgAction) => sys.Live a.1 ∧ h.Careful a.1 a.2
  let before := alone [.call (.create (letter 0) 0 false), .call (.create (letter 1) 0 false)]
  let after := alone [.call (.send 1 0 msbNoblock), .go, .go, .call (.recv 0), .go, .go]
  have acts : sys.Live (poolVa 10) := oneTask_live [] [20, 21, 22]
  have played : ((fresh sys).play zeroPages before).map (fun h => (h.log.sent,
      (h.play zeroPages ((poolVa 10, .call (.connect 1 (letter 0))) :: after)).map fun h => h.log.got)) =
      some ([], some [⟨⟨0, 1, 1, 1⟩, 0, 1⟩]) := by decide +kernel
  obtain ⟨h₁, reached₁, both⟩ := Option.map_eq_some_iff.mp played
  obtain ⟨none, rest⟩ := Prod.mk.inj both
  obtain ⟨h, reached, got⟩ := Option.map_eq_some_iff.mp rest
  obtain ⟨move, connected, reached⟩ := play_cons zeroPages h₁ h _ after reached
  have run₁ : Run (Step zeroPages) allowed (fresh sys) h₁ :=
    play_run zeroPages allowed _ _ h₁ before .start (fun h a member => by
      simp only [before, alone, List.map_cons, List.map_nil, List.mem_cons, List.not_mem_nil, or_false] at member
      rcases member with rfl | rfl <;> exact ⟨acts, trivial⟩) reached₁
  have distinct := oneTask_distinct [] [20, 21, 22]
  have ok := run_ok zeroPages_clean distinct (fun _ _ fine => fine.1) run₁
  have run₂ := Run.next h₁ _ _ run₁ ⟨acts, ok.careful none _ _⟩ ⟨move, connected, rfl⟩
  have run : Run (Step zeroPages) allowed (fresh sys) h :=
    play_run zeroPages allowed _ _ h after run₂ (fun h a member => by
      simp only [after, alone, List.map_cons, List.map_nil, List.mem_cons, List.not_mem_nil, or_false] at member
      rcases member with rfl | rfl | rfl | rfl | rfl | rfl <;> exact ⟨acts, trivial⟩) reached
  exact ⟨h, got, msgbuf_attributed zeroPages zeroPages_clean sys distinct h run⟩

end Anthill
