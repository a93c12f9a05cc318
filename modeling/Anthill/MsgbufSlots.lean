import Anthill.MsgbufNames

set_option autoImplicit false

namespace Anthill

def Msgbuf.Connected (msgbuf : Msgbuf) (recvId : Int) : Prop := ∃ c, (msgbuf.connections c).id = recvId

theorem connGet_none (msgbuf : Msgbuf) (recvId : Int) : connGet msgbuf recvId = none ↔ ¬ msgbuf.Connected recvId := by
  rw [connGet, Slots.first_none, Msgbuf.Connected, not_exists]
  simp only [decide_eq_false_iff_not]

theorem setConn_connected (msgbuf : Msgbuf) (c : Fin maxConn) (conn : Conn) (recvId : Int)
    (connected : (msgbuf.setConn c conn).Connected recvId) : conn.id = recvId ∨ msgbuf.Connected recvId := by
  obtain ⟨c', there⟩ := connected
  change (Function.update msgbuf.connections c conn c').id = recvId at there
  rw [Function.update_apply] at there
  split_ifs at there
  · exact .inl there
  · exact .inr ⟨c', there⟩

theorem DropsConns.connected {f : Msgbuf → Msgbuf} (drops : DropsConns f) (msgbuf : Msgbuf) (recvId : Int)
    (proper : recvId ≠ -1) (connected : (f msgbuf).Connected recvId) : msgbuf.Connected recvId := by
  obtain ⟨conns, after, fewer⟩ := drops msgbuf
  rw [after] at connected
  obtain ⟨c, here⟩ := connected
  rcases fewer c with same | gone
  · exact ⟨c, same ▸ here⟩
  · change (conns c).id = recvId at here
    rw [gone] at here
    exact absurd here.symm proper

theorem msgbufGet_some {reg : Registry} {id : Int} {n : Nat} (last : reg.next = 0)
    (found : msgbufGet reg id = .ok (some n)) : id = n ∧ reg.Live n := by
  by_cases listed : reg.nodes = []
  · simp [msgbufGet, Registry.nodeOf, listed] at found
  · rw [msgbufGet_eq reg id listed last] at found
    split_ifs at found with gone
    · simp at found
    · obtain rfl := Option.some.inj (Except.ok.inj found)
      have natural := (not_or.mp gone).1
      exact ⟨by omega, (not_or.mp gone).2⟩

theorem sender_some {s : MsgSys} {recv : MsgRecv} {sendId : Int} {addr : Word} (last : s.reg.next = 0)
    (found : s.sender recv sendId = .ok (some addr)) :
    ∃ n : Nat, sendId = n ∧ s.reg.Live n ∧ (s.reg.buf n).Connected recv.id := by
  unfold MsgSys.sender at found
  rcases there : msgbufGet s.reg sendId with halt | _ | n <;> simp only [there] at found
  · cases found
  · cases found
  · obtain ⟨same, live⟩ := msgbufGet_some last there
    refine ⟨n, same, live, ?_⟩
    by_contra unconnected
    rw [(connGet_none _ _).mpr unconnected] at found
    cases found

/-- What a call does to message buffer `m`, which it leaves as `b`. -/
inductive BufStep (s : MsgSys) (call : MsgCall) (m : Nat) (b : Msgbuf) : Prop where
  | kept (f : Msgbuf → Msgbuf) (drops : DropsConns f) (after : b = f (s.reg.buf m))
  | linked (id : Int) (name : List CChar) (r : Nat) (c : Fin maxConn) (recvBuf : Word)
      (is : call = .connect id name) (sender : id = m) (live : s.reg.Live m) (there : s.reg.Live r)
      (place : connAlloc (s.reg.buf m) r = .ok c) (after : b = (s.reg.buf m).setConn c ⟨r, recvBuf⟩)
      (fine : ∃ s', msgbufConnect s id name = .ok (⟨r, .ok⟩, s'))
  | closed (live : s.reg.Live m) (owned : s.owns m) (f : Msgbuf → Msgbuf) (drops : DropsConns f)
      (after : b = { f (s.reg.buf m) with name := [] })
  | born (free : ¬ s.reg.Live m) (named : b.name ≠ []) (owner : b.owner = s.sys.current)
      (queue : b.recvQueue = fun _ => -1) (conns : b.connections = fun _ => ⟨-1, 0⟩)
  | grown (outside : ¬ m < s.reg.nodes.length * nodeBufCnt) (nameless : b.name = [])

theorem BufStep.same {s : MsgSys} {call : MsgCall} {m : Nat} : BufStep s call m (s.reg.buf m) :=
  .kept _ .none rfl

theorem BufStep.put {s : MsgSys} {call : MsgCall} (n : Nat) (f : Msgbuf → Msgbuf)
    (here : BufStep s call n (f (s.reg.buf n))) (m : Nat) : BufStep s call m ((s.reg.setBuf n f).buf m) := by
  by_cases same : m = n
  · subst same
    by_cases inside : m < s.reg.nodes.length * nodeBufCnt
    · rwa [s.reg.buf_setBuf_self m f inside]
    · rw [s.reg.setBuf_outside m f inside]
      exact .same
  · rw [s.reg.buf_setBuf_of_ne n f m same]
    exact .same

/-- A call does one of five things to each message buffer, and to the system nothing beyond its memory. -/
theorem act_slot {stale : Stale} {s : MsgSys} {call : MsgCall} {move : MsgMove} (clean : stale.Clean)
    (named : s.reg.Named) (done : call.act stale s = .ok move) :
    (∃ k, move.sys.sys = s.sys.setKernel k) ∧ s.reg.nodes.length ≤ move.sys.reg.nodes.length ∧
      ∀ m, BufStep s call m (move.sys.reg.buf m) := by
  by_cases checks : call.checks
  · rw [checks_still checks done]
    exact ⟨⟨s.sys.kernel, rfl⟩, le_refl _, fun m => .same⟩
  have put (k : Kernel) (n : Nat) (f : Msgbuf → Msgbuf) (here : BufStep s call n (f (s.reg.buf n))) :
      (∃ k', s.sys.setKernel k = s.sys.setKernel k') ∧
        s.reg.nodes.length ≤ (s.reg.setBuf n f).nodes.length ∧
        ∀ m, BufStep s call m ((s.reg.setBuf n f).buf m) :=
    ⟨⟨k, rfl⟩, by simp, .put n f here⟩
  cases call with
  | create name size sendBuf =>
    obtain ⟨⟨⟨r, buf⟩, s'⟩, created, rfl⟩ := (map_ok _ _ _).mp done
    rcases msgbufCreate_ok clean named created with
      ⟨k, rfl, _⟩ | ⟨id, k, reg, f, nonempty, _, _, allotted, claims, rfl, _⟩
    · exact ⟨⟨k, rfl⟩, le_refl _, fun m => .same⟩
    · refine ⟨⟨k, rfl⟩, allotted.more.trans (reg.setBuf_length id f).ge, fun m => ?_⟩
      show BufStep s _ m ((reg.setBuf id f).buf m)
      by_cases here : m = id
      · subst here
        rw [reg.buf_setBuf_self m f allotted.inside]
        refine .born ?_ (by rw [claims.name]; exact nonempty) (claims.owner _) (claims.queue _) (claims.conns _)
        have free := allotted.free
        rw [Registry.Live, allotted.name m] at free
        exact free
      · rw [reg.buf_setBuf_of_ne id f m here]
        by_cases inside : m < s.reg.nodes.length * nodeBufCnt
        · rw [allotted.old m inside]
          exact .same
        · exact .grown inside (allotted.new m inside)
  | connect id name =>
    obtain ⟨⟨r, s'⟩, connected, rfl⟩ := (map_ok _ _ _).mp done
    rcases msgbufConnect_ok s s' id name r connected with
      ⟨k, rfl, _⟩ | ⟨n, recvId, r', c, recvBuf, k, foundN, _, _, foundR, place, rfl, _, _, rfl⟩
    · exact ⟨⟨k, rfl⟩, le_refl _, fun m => .same⟩
    · obtain ⟨sender, live⟩ := msgbufGet_some named.last foundN
      obtain ⟨rfl, there⟩ := msgbufGet_some named.last foundR
      exact put k n _ (.linked id name r' c recvBuf rfl sender live there place rfl ⟨_, connected⟩)
  | disconnect sendId recvId =>
    obtain ⟨⟨err, s'⟩, disconnected, rfl⟩ := (map_ok _ _ _).mp done
    rcases msgbufDisconnect_ok s s' sendId recvId err disconnected with rfl | ⟨n, _, k, _, _, _, _, rfl⟩
    · exact ⟨⟨s'.sys.kernel, rfl⟩, le_refl _, fun m => .same⟩
    · exact put k n _ (.kept _ (.setConn _) rfl)
  | close id =>
    obtain ⟨⟨err, s'⟩, closed, rfl⟩ := (map_ok _ _ _).mp done
    rcases msgbufClose_ok s s' id err closed with rfl | ⟨n, k, f, foundN, owned, drops, rfl | rfl⟩
    · exact ⟨⟨s'.sys.kernel, rfl⟩, le_refl _, fun m => .same⟩
    · exact put k n f (.kept f drops rfl)
    · exact put k n _ (.closed (msgbufGet_some named.last foundN).2 owned f drops rfl)
  | _ => exact absurd trivial checks

-- The system with message buffer `n` replaced.
def MsgSys.put (s : MsgSys) (n : Nat) (msgbuf : Msgbuf) : MsgSys :=
  { s with reg := s.reg.setBuf n fun _ => msgbuf }

theorem MsgSys.put_buf (s : MsgSys) (n : Nat) (msgbuf : Msgbuf) (inside : n < s.reg.nodes.length * nodeBufCnt)
    (m : Nat) : (s.put n msgbuf).reg.buf m = Function.update s.reg.buf n msgbuf m := by
  rw [Function.update_apply]
  split_ifs with here
  · rw [here]
    exact s.reg.buf_setBuf_self n _ inside
  · exact s.reg.buf_setBuf_of_ne n _ m here

theorem MsgSys.put_same (s : MsgSys) (n : Nat) (inside : n < s.reg.nodes.length * nodeBufCnt) :
    s.put n (s.reg.buf n) = s := by
  obtain ⟨msgbuf, here⟩ := Option.isSome_iff_exists.mp ((Paged.get_isSome s.reg.nodes n).mpr inside)
  have same : s.reg.buf n = msgbuf := by
    rw [Registry.buf, here, Option.getD_some]
  rw [MsgSys.put, Registry.setBuf, same, Paged.modify_same s.reg.nodes n msgbuf here]

/-- The steps that a task inside a call can take. -/
inductive GoStep (s : MsgSys) : MsgPc → MsgMove → Prop where
  | pushed (send : MsgSend) (msgbuf : Msgbuf)
      (push : queuePush (s.reg.buf send.receiver) send.sendId = (true, msgbuf)) :
      GoStep s (.push send) ((s.put send.receiver msgbuf).goes (.wake send))
  | full (send : MsgSend) (msgbuf : Msgbuf)
      (push : queuePush (s.reg.buf send.receiver) send.sendId = (false, msgbuf)) :
      GoStep s (.push send) ((s.put send.receiver msgbuf).goes (.block (.space send)))
  | sent (send : MsgSend) (noblock : send.flags &&& msbNoblock ≠ 0) :
      GoStep s (.wake send) ⟨s, .idle, some (.err .ok), .unblock (s.ownerPid send.receiver)⟩
  | waits (send : MsgSend) (blocking : send.flags &&& msbNoblock = 0) :
      GoStep s (.wake send) ⟨s, .block (.reply send), none, .unblock (s.ownerPid send.receiver)⟩
  | popped (recv : MsgRecv) (sendId : Int) (msgbuf : Msgbuf)
      (pop : queuePop (s.reg.buf recv.receiver) = .ok (sendId, msgbuf)) (found : sendId ≠ -1) :
      GoStep s (.pop recv) ((s.put recv.receiver msgbuf).goes (.look recv sendId))
  | empty (recv : MsgRecv) (msgbuf : Msgbuf)
      (pop : queuePop (s.reg.buf recv.receiver) = .ok (-1, msgbuf)) :
      GoStep s (.pop recv) ((s.put recv.receiver msgbuf).goes (.block (.message recv)))
  | got (recv : MsgRecv) (sendId : Int) (addr : Word) (found : s.sender recv sendId = .ok (some addr)) :
      GoStep s (.look recv sendId) (s.returns (.id ⟨sendId, .ok⟩ (some addr)))
  | gone (recv : MsgRecv) (sendId : Int) (found : s.sender recv sendId = .ok none) :
      GoStep s (.look recv sendId) (s.goes (.pop recv))
  | answered (id replyId : Int) (receiver : Nat) :
      GoStep s (.answer id replyId receiver) ⟨s, .idle, some (.err .ok), .unblock (s.ownerPid receiver)⟩
  | blocks (wait : MsgWait) : GoStep s (.block wait) ⟨s, .blocked wait, none, .block⟩
  | again (send : MsgSend) : GoStep s (.blocked (.space send)) (s.goes (.push send))
  | replied (send : MsgSend) : GoStep s (.blocked (.reply send)) (s.returns (.err .ok))
  | retries (recv : MsgRecv) : GoStep s (.blocked (.message recv)) (s.goes (.pop recv))

theorem go_step {s : MsgSys} {pc : MsgPc} {move : MsgMove} (done : pc.go s = some (.ok move)) :
    GoStep s pc move := by
  cases pc with
  | idle => cases done
  | push send =>
    obtain rfl := Except.ok.inj (Option.some.inj done)
    rcases pushed : queuePush (s.reg.buf send.receiver) send.sendId with ⟨_ | _, msgbuf⟩
    · exact .full send msgbuf pushed
    · exact .pushed send msgbuf pushed
  | wake send =>
    simp only [MsgPc.go] at done
    split_ifs at done with flag <;> obtain rfl := Except.ok.inj (Option.some.inj done)
    · exact .sent send flag
    · exact .waits send (not_not.mp flag)
  | pop recv =>
    simp only [MsgPc.go] at done
    rcases popped : queuePop (s.reg.buf recv.receiver) with halt | ⟨sendId, msgbuf⟩
    · rw [popped] at done
      cases done
    · simp only [popped] at done
      obtain rfl := Except.ok.inj (Option.some.inj done)
      by_cases none : sendId = -1
      · subst none
        exact .empty recv msgbuf popped
      · rw [if_neg none]
        exact .popped recv sendId msgbuf popped none
  | look recv sendId =>
    simp only [MsgPc.go] at done
    rcases found : s.sender recv sendId with halt | _ | addr <;> simp only [found] at done
    · cases done
    · obtain rfl := Except.ok.inj (Option.some.inj done)
      exact .gone recv sendId found
    · obtain rfl := Except.ok.inj (Option.some.inj done)
      exact .got recv sendId addr found
  | answer id replyId receiver =>
    obtain rfl := Except.ok.inj (Option.some.inj done)
    exact .answered id replyId receiver
  | block wait =>
    obtain rfl := Except.ok.inj (Option.some.inj done)
    exact .blocks wait
  | blocked wait =>
    cases wait <;> obtain rfl := Except.ok.inj (Option.some.inj done)
    · exact .again _
    · exact .replied _
    · exact .retries _

/-- What a step inside a call leaves as it was. -/
structure QueuesOnly (s s' : MsgSys) : Prop where
  sys : s'.sys = s.sys
  length : s'.reg.nodes.length = s.reg.nodes.length
  next : s'.reg.next = s.reg.next
  bufs : ∀ m, ∃ queue pos, s'.reg.buf m = { s.reg.buf m with recvQueue := queue, recvQueuePos := pos }

theorem QueuesOnly.refl (s : MsgSys) : QueuesOnly s s := ⟨rfl, rfl, rfl, fun _ => ⟨_, _, rfl⟩⟩

theorem QueuesOnly.put (s : MsgSys) (n : Nat) (msgbuf : Msgbuf)
    (only : ∃ queue pos, msgbuf = { s.reg.buf n with recvQueue := queue, recvQueuePos := pos }) :
    QueuesOnly s (s.put n msgbuf) := by
  refine ⟨rfl, by simp [MsgSys.put], rfl, fun m => ?_⟩
  show ∃ queue pos, (s.reg.setBuf n fun _ => msgbuf).buf m = _
  by_cases same : m = n
  · subst same
    by_cases inside : m < s.reg.nodes.length * nodeBufCnt
    · rw [s.reg.buf_setBuf_self m _ inside]
      exact only
    · rw [s.reg.setBuf_outside m _ inside]
      exact ⟨_, _, rfl⟩
  · rw [s.reg.buf_setBuf_of_ne n _ m same]
    exact ⟨_, _, rfl⟩

theorem GoStep.queuesOnly {s : MsgSys} {pc : MsgPc} {move : MsgMove} (step : GoStep s pc move) :
    QueuesOnly s move.sys := by
  have pushed (n : Nat) (sendId : Int) (result : Bool × Msgbuf) (push : queuePush (s.reg.buf n) sendId = result) :
      QueuesOnly s (s.put n result.2) := by
    obtain ⟨queue, rest⟩ := queuePush_rest (s.reg.buf n) sendId
    rw [push] at rest
    exact .put s n result.2 ⟨queue, _, rest⟩
  cases step with
  | pushed send msgbuf push => exact pushed send.receiver send.sendId _ push
  | full send msgbuf push => exact pushed send.receiver send.sendId _ push
  | popped recv sendId msgbuf pop => exact .put s recv.receiver msgbuf (queuePop_rest _ _ _ pop)
  | empty recv msgbuf pop => exact .put s recv.receiver msgbuf (queuePop_rest _ _ _ pop)
  | _ => exact .refl s

theorem QueuesOnly.named {s s' : MsgSys} (only : QueuesOnly s s') (named : s.reg.Named) : s'.reg.Named := by
  refine named.fewer (only.next.trans named.last) fun n => .inl ?_
  obtain ⟨_, _, after⟩ := only.bufs n
  rw [after]

end Anthill
