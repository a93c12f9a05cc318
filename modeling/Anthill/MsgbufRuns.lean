import Anthill.MsgbufHistory

set_option autoImplicit false

namespace Anthill

/-- A step of a task in a message buffer call, or whatever else the kernel does between two of them. -/
inductive MsgEvent where
  | step (t : Word) (action : MsgAction)
  | other (sys : Sys)

def MsgTasks.Takes (stale : Stale) (w : MsgTasks) : MsgEvent → MsgTasks → Prop
  | .step t action, w' => ∃ move, w.step stale t action = some (.ok move) ∧ w' = w.after t move
  | .other sys, w' => w' = { w with msg.sys := sys }

-- No two connections of a message buffer go to one receiver.
def Msgbuf.OneEach (msgbuf : Msgbuf) : Prop :=
  ∀ i j, (msgbuf.connections i).id ≠ -1 → (msgbuf.connections i).id = (msgbuf.connections j).id → i = j

theorem connAlloc_ok {msgbuf : Msgbuf} {recvId : Int} {c : Fin maxConn} (place : connAlloc msgbuf recvId = .ok c) :
    ¬ msgbuf.Connected recvId ∧ (msgbuf.connections c).id = -1 := by
  unfold connAlloc at place
  split at place
  · cases place
  next missed =>
    split at place
    · cases place
    next free =>
      obtain rfl := Except.ok.inj place
      refine ⟨?_, of_decide_eq_true (Slots.first_some _ _ free)⟩
      rintro ⟨i, same⟩
      exact of_decide_eq_false ((Slots.first_none _).mp missed i) same

theorem Msgbuf.OneEach.conns {msgbuf msgbuf' : Msgbuf} (each : msgbuf.OneEach)
    (same : msgbuf'.connections = msgbuf.connections) : msgbuf'.OneEach := by
  rw [OneEach, same]
  exact each

theorem Msgbuf.OneEach.drop {msgbuf : Msgbuf} (each : msgbuf.OneEach) {f : Msgbuf → Msgbuf} (drops : DropsConns f) :
    (f msgbuf).OneEach := by
  obtain ⟨conns, after, fewer⟩ := drops msgbuf
  have old (i : Fin maxConn) (used : (conns i).id ≠ -1) : conns i = msgbuf.connections i :=
    (fewer i).resolve_right fun gone => used (by rw [gone])
  intro i j used same
  rw [after] at used same
  have usedJ : (conns j).id ≠ -1 := fun none => used (same.trans none)
  refine each i j ?_ ?_
  · rw [← old i used]
    exact used
  · rw [← old i used, ← old j usedJ]
    exact same

theorem Msgbuf.OneEach.link {msgbuf : Msgbuf} (each : msgbuf.OneEach) {recvId : Int} {c : Fin maxConn}
    (place : connAlloc msgbuf recvId = .ok c) (addr : Word) : (msgbuf.setConn c ⟨recvId, addr⟩).OneEach := by
  obtain ⟨unconnected, _⟩ := connAlloc_ok place
  intro i j used same
  simp only [Msgbuf.setConn, Function.update_apply] at used same
  split_ifs at used same with hereI hereJ hereJ
  · rw [hereI, hereJ]
  · exact absurd ⟨j, same.symm⟩ unconnected
  · exact absurd ⟨i, same⟩ unconnected
  · exact each i j used same

/-- What every run keeps of the message buffers. -/
structure Registry.Sound (reg : Registry) : Prop where
  named : reg.Named
  each : ∀ n, reg.Live n → (reg.buf n).OneEach

theorem BufStep.oneEach {s : MsgSys} {call : MsgCall} {m : Nat} {b : Msgbuf} (step : BufStep s call m b)
    (each : s.reg.Live m → (s.reg.buf m).OneEach) (live : b.name ≠ []) : b.OneEach := by
  cases step with
  | kept f drops after =>
    subst after
    rw [(drops.rest _).1] at live
    exact (each live).drop drops
  | linked _ _ r c recvBuf _ _ there _ place after =>
    subst after
    exact (each there).link place recvBuf
  | closed _ _ _ _ after =>
    subst after
    exact absurd rfl live
  | born _ _ _ _ conns =>
    intro i j used _
    rw [conns] at used
    exact absurd rfl used
  | grown _ nameless => exact absurd nameless live

theorem Registry.Sound.call {stale : Stale} {s : MsgSys} {call : MsgCall} {move : MsgMove} (clean : stale.Clean)
    (sound : s.reg.Sound) (done : call.act stale s = .ok move) : move.sys.reg.Sound where
  named := act_named clean sound.named done
  each m live := ((act_slot clean sound.named done).2.2 m).oneEach (sound.each m) live

theorem Registry.Sound.go {s s' : MsgSys} (sound : s.reg.Sound) (only : QueuesOnly s s') : s'.reg.Sound where
  named := only.named sound.named
  each m live := by
    obtain ⟨queue, pos, after⟩ := only.bufs m
    rw [Registry.Live, after] at live
    rw [after]
    exact (sound.each m live).conns rfl

theorem Registry.sound_empty : (Registry.mk [] 0).Sound where
  named := ⟨rfl, fun _ => Nat.zero_le _, fun _ _ live => absurd rfl live⟩
  each _ live := absurd rfl live

/-- The message buffers stay sound whatever the rest of the kernel does between the steps. -/
theorem MsgTasks.run_sound {stale : Stale} (clean : stale.Clean) {allowed : MsgTasks → MsgEvent → Prop} {sys : Sys}
    {w : MsgTasks} (run : Run (Takes stale) allowed (fresh sys) w) : w.msg.reg.Sound := by
  refine run.invariant (fun w => w.msg.reg.Sound) Registry.sound_empty ?_
  intro w event w' sound _ taken
  cases event with
  | step t action =>
    obtain ⟨move, done, rfl⟩ := taken
    cases action with
    | call call =>
      unfold MsgTasks.step at done
      split_ifs at done
      exact Registry.Sound.call (s := w.msg.as t) clean sound (Option.some.inj done)
    | go => exact Registry.Sound.go (s := w.msg.as t) sound (go_step done).queuesOnly
  | other sys =>
    obtain rfl := taken
    exact sound

/-- Calls that are made one after the other, while no task is inside one. -/
theorem MsgTasks.run_calls (stale : Stale) {sys : Sys} (s s' : MsgSys) (calls : List (Word × MsgCall))
    (whole : ∀ a, a ∈ calls → ¬ a.2.checks)
    (before : Run (Takes stale) (fun _ _ => True) (fresh sys) ⟨s, fun _ => .idle⟩)
    (done : s.calls stale calls = some s') : Run (Takes stale) (fun _ _ => True) (fresh sys) ⟨s', fun _ => .idle⟩ := by
  induction calls generalizing s with
  | nil =>
    obtain rfl := Option.some.inj done
    exact before
  | cons a calls ih =>
    unfold MsgSys.calls at done
    cases moved : a.2.act stale (s.as a.1) with
    | error halt => rw [moved] at done; cases done
    | ok move =>
      rw [moved] at done
      have idle := MsgHistory.idle_of_whole (whole a List.mem_cons_self) moved
      have after : (MsgTasks.mk s fun _ => .idle).after a.1 move = ⟨move.sys, fun _ => .idle⟩ := by
        rw [MsgTasks.after, idle, Function.update_eq_self_iff.mpr rfl]
      refine ih move.sys (fun b member => whole b (List.mem_cons_of_mem _ member)) ?_ done
      exact .next _ _ (.step a.1 (.call a.2)) before trivial ⟨move, congrArg some moved, after.symm⟩

end Anthill
