import Anthill.MsgbufQueue
import Anthill.MsgbufRegistry

set_option autoImplicit false

namespace Anthill

theorem map_ok {ε A B : Type} (result : Except ε A) (f : A → B) (b : B) :
    result.map f = .ok b ↔ ∃ a, result = .ok a ∧ b = f a := by
  cases result with
  | error e => simp [Except.map]
  | ok a => simp [Except.map, eq_comm]

/-- One call of task `t`, made while no other call is under way. -/
def MsgSys.CallStep (stale : Stale) (s : MsgSys) (a : Word × MsgCall) (s' : MsgSys) : Prop :=
  ∃ move, a.2.act stale (s.as a.1) = .ok move ∧ s' = move.sys

def MsgCall.createsOrCloses : MsgCall → Prop
  | .create _ _ _ | .close _ => True
  | _ => False

theorem Registry.setBuf_name (reg : Registry) (n m : Nat) (f : Msgbuf → Msgbuf) :
    ((reg.setBuf n f).buf m).name =
      if m = n ∧ n < reg.nodes.length * nodeBufCnt then (f (reg.buf n)).name else (reg.buf m).name := by
  by_cases here : m = n
  · subst here
    by_cases inside : m < reg.nodes.length * nodeBufCnt
    · rw [reg.buf_setBuf_self m f inside, if_pos ⟨rfl, inside⟩]
    · rw [if_neg (fun both => inside both.2), reg.buf_outside m inside,
        Registry.buf_outside _ m (by simpa using inside)]
  · rw [reg.buf_setBuf_of_ne n f m here, if_neg (fun both => here both.1)]

section Named

variable {reg reg' : Registry} (named : reg.Named)

include named

theorem Registry.Named.fewer (last : reg'.next = 0)
    (fewer : ∀ n, (reg'.buf n).name = (reg.buf n).name ∨ (reg'.buf n).name = []) : reg'.Named := by
  refine ⟨last, fun n => ?_, fun i j live same => ?_⟩
  · rcases fewer n with kept | gone
    · rw [kept]
      exact named.short n
    · rw [gone]
      exact Nat.zero_le _
  · have kept (n : Nat) (there : reg'.Live n) : (reg'.buf n).name = (reg.buf n).name :=
      (fewer n).resolve_right there
    have other : reg'.Live j := fun empty => live (same.trans empty)
    rw [kept i live, kept j other] at same
    refine named.distinct i j ?_ same
    rw [Registry.Live, ← kept i live]
    exact live

theorem Registry.Named.add {id : Nat} (allotted : Allotted reg reg' id) (name : List CChar)
    (fits : name.length ≤ msbNameMax) (clear : ∀ n, (reg.buf n).name ≠ name) (f : Msgbuf → Msgbuf)
    (names : ∀ msgbuf, (f msgbuf).name = name) : (reg'.setBuf id f).Named := by
  have view (n : Nat) : ((reg'.setBuf id f).buf n).name = if n = id then name else (reg.buf n).name := by
    rw [Registry.setBuf_name, names, allotted.name]
    simp [allotted.inside]
  refine ⟨allotted.last, fun n => ?_, fun i j live same => ?_⟩
  · rw [view]
    split_ifs
    · exact fits
    · exact named.short n
  · rw [Registry.Live] at live
    rw [view] at live
    rw [view i, view j] at same
    split_ifs at live same with hereI hereJ hereJ
    · rw [hereI, hereJ]
    · exact absurd same.symm (clear j)
    · exact absurd same (clear i)
    · exact named.distinct i j live same

end Named

theorem Registry.Named.put {reg : Registry} (named : reg.Named) (n : Nat) (f : Msgbuf → Msgbuf)
    (name : (f (reg.buf n)).name = (reg.buf n).name ∨ (f (reg.buf n)).name = []) : (reg.setBuf n f).Named := by
  refine named.fewer named.last fun m => ?_
  rw [Registry.setBuf_name]
  split_ifs with here
  · rw [here.1]
    exact name
  · exact .inl rfl

theorem msgbufSend_ok (s : MsgSys) (sendId recvId : Int) (flags : Flags) (move : MsgMove)
    (done : msgbufSend s sendId recvId flags = .ok move) :
    (∃ err, err ≠ .ok ∧ move = s.returns (.err err)) ∨
      ∃ n r, msgbufGet s.reg sendId = .ok (some n) ∧ msgbufGet s.reg recvId = .ok (some r) ∧ s.owns n ∧
        connGet (s.reg.buf n) recvId ≠ none ∧ move = s.goes (.push ⟨r, sendId, recvId, flags⟩) := by
  unfold msgbufSend at done
  split at done
  next n r foundN foundR =>
    split_ifs at done with owned unconnected
    · exact .inl ⟨.msbCod, by simp, (Except.ok.inj done).symm⟩
    · exact .inr ⟨n, r, foundN, foundR, owned, unconnected, (Except.ok.inj done).symm⟩
    · exact .inl ⟨.msbFnd, by simp, (Except.ok.inj done).symm⟩
  · exact .inl ⟨.msbFnd, by simp, (Except.ok.inj done).symm⟩
  · cases done
  · cases done

theorem msgbufRecv_ok (s : MsgSys) (id : Int) (move : MsgMove) (done : msgbufRecv s id = .ok move) :
    (∃ err, err ≠ .ok ∧ move = s.returns (.id ⟨-1, err⟩ none)) ∨
      ∃ n, msgbufGet s.reg id = .ok (some n) ∧ s.owns n ∧ move = s.goes (.pop ⟨n, id⟩) := by
  unfold msgbufRecv at done
  split at done
  next n foundN =>
    split_ifs at done with owned
    · exact .inr ⟨n, foundN, owned, (Except.ok.inj done).symm⟩
    · exact .inl ⟨.msbFnd, by simp, (Except.ok.inj done).symm⟩
  · exact .inl ⟨.msbFnd, by simp, (Except.ok.inj done).symm⟩
  · cases done

theorem msgbufReply_ok (s : MsgSys) (id replyId : Int) (move : MsgMove)
    (done : msgbufReply s id replyId = .ok move) :
    (∃ err, err ≠ .ok ∧ move = s.returns (.err err)) ∨
      ∃ n r, msgbufGet s.reg id = .ok (some n) ∧ msgbufGet s.reg replyId = .ok (some r) ∧ s.owns n ∧
        move = s.goes (.answer id replyId r) := by
  unfold msgbufReply at done
  split at done
  next n r foundN foundR =>
    split_ifs at done with owned
    · exact .inr ⟨n, r, foundN, foundR, owned, (Except.ok.inj done).symm⟩
    · exact .inl ⟨.msbFnd, by simp, (Except.ok.inj done).symm⟩
  · exact .inl ⟨.msbFnd, by simp, (Except.ok.inj done).symm⟩
  · cases done
  · cases done

/-- The calls that go on in steps of their own. -/
def MsgCall.checks : MsgCall → Prop
  | .send _ _ _ | .recv _ | .reply _ _ => True
  | _ => False

theorem checks_still {stale : Stale} {s : MsgSys} {call : MsgCall} {move : MsgMove} (checks : call.checks)
    (done : call.act stale s = .ok move) : move.sys = s := by
  cases call with
  | send sendId recvId flags =>
    rcases msgbufSend_ok s sendId recvId flags move done with ⟨_, _, rfl⟩ | ⟨_, _, _, _, _, _, rfl⟩ <;> rfl
  | recv id => rcases msgbufRecv_ok s id move done with ⟨_, _, rfl⟩ | ⟨_, _, _, rfl⟩ <;> rfl
  | reply id replyId =>
    rcases msgbufReply_ok s id replyId move done with ⟨_, _, rfl⟩ | ⟨_, _, _, _, _, rfl⟩ <;> rfl
  | _ => exact checks.elim

/-- Names stay distinct in every call. -/
theorem act_named {stale : Stale} {s : MsgSys} {call : MsgCall} {move : MsgMove} (clean : stale.Clean)
    (named : s.reg.Named) (done : call.act stale s = .ok move) : move.sys.reg.Named := by
  by_cases checks : call.checks
  · rw [checks_still checks done]
    exact named
  cases call with
  | create name size sendBuf =>
    obtain ⟨⟨⟨r, buf⟩, s'⟩, created, rfl⟩ := (map_ok _ _ _).mp done
    rcases msgbufCreate_ok clean named created with
      ⟨k, rfl, _⟩ | ⟨id, k, reg, f, _, fits, clear, allotted, claims, rfl, _⟩
    · exact named
    · exact named.add allotted name fits clear f claims.name
  | connect id name =>
    obtain ⟨⟨r, s'⟩, connected, rfl⟩ := (map_ok _ _ _).mp done
    rcases msgbufConnect_ok s s' id name r connected with
      ⟨k, rfl, _⟩ | ⟨n, recvId, _, c, recvBuf, k, _, _, _, _, _, _, _, _, rfl⟩
    · exact named
    · exact named.put n _ (.inl rfl)
  | disconnect sendId recvId =>
    obtain ⟨⟨err, s'⟩, disconnected, rfl⟩ := (map_ok _ _ _).mp done
    rcases msgbufDisconnect_ok s s' sendId recvId err disconnected with rfl | ⟨n, _, k, _, _, _, _, rfl⟩
    · exact named
    · exact named.put n _ (.inl rfl)
  | close id =>
    obtain ⟨⟨err, s'⟩, closed, rfl⟩ := (map_ok _ _ _).mp done
    rcases msgbufClose_ok s s' id err closed with rfl | ⟨n, k, f, _, _, drops, rfl | rfl⟩
    · exact named
    · exact named.put n f (.inl (drops.rest _).1)
    · exact named.put n _ (.inr rfl)
  | _ => exact absurd trivial checks

theorem queuePush_rest (msgbuf : Msgbuf) (sendId : Int) :
    ∃ queue, (queuePush msgbuf sendId).2 = { msgbuf with recvQueue := queue } := by
  unfold queuePush
  split_ifs
  · split
    · exact ⟨_, rfl⟩
    · exact ⟨_, rfl⟩
  · exact ⟨_, rfl⟩

theorem queuePop_rest (msgbuf msgbuf' : Msgbuf) (sendId : Int) (done : queuePop msgbuf = .ok (sendId, msgbuf')) :
    ∃ queue pos, msgbuf' = { msgbuf with recvQueue := queue, recvQueuePos := pos } := by
  simp only [queuePop] at done
  split_ifs at done
  · exact ⟨_, _, (Prod.mk.inj (Except.ok.inj done)).2.symm⟩
  · exact ⟨_, _, (Prod.mk.inj (Except.ok.inj done)).2.symm⟩

-- A node page that reads as zero.
def zeroPages : Stale := fun _ => ⟨0, fun _ => .blank⟩

theorem zeroPages_clean : zeroPages.Clean := fun _ => ⟨fun _ => rfl, fun _ => rfl⟩

theorem Registry.Live.get {reg : Registry} {n : Nat} (live : reg.Live n) (last : reg.next = 0) :
    msgbufGet reg n = .ok (some n) := by
  have named : (reg.buf n).name ≠ [] := live
  have natural : ¬ (n : Int) < 0 := by omega
  rw [msgbufGet_eq reg n (Registry.nodes_ne reg n live.inside) last]
  simp only [natural, Int.toNat_natCast, named, or_self, if_false]

theorem Registry.buf_first (reg : Registry) (node : Buffers) (rest : List Buffers)
    (nodes : reg.nodes = node :: rest) (i : Fin nodeBufCnt) : reg.buf i.val = node i := by
  have place := Paged.get_of_place reg.nodes 0 i
  rw [Nat.zero_mul, Nat.zero_add, nodes, List.getElem?_cons_zero, Option.map_some] at place
  rw [Registry.buf, nodes, place, Option.getD_some]

/-- The search by name finds a live message buffer of the first node, and no other. -/
theorem Registry.Named.getId {reg : Registry} (named : reg.Named) (n : Nat) (live : reg.Live n) :
    msgbufGetId reg (reg.buf n).name = .ok n ↔ n < nodeBufCnt := by
  have inside := live.inside
  unfold msgbufGetId
  cases nodes : reg.nodes with
  | nil => exact absurd nodes (Registry.nodes_ne reg n inside)
  | cons node rest =>
    have first := reg.buf_first node rest nodes
    have hits (i : Fin nodeBufCnt) :
        strncmp (node i).name (reg.buf n).name msbNameMax = 0 ↔ i.val = n := by
      rw [← first i, strncmp_zero _ _ (named.short _) (named.short _)]
      constructor
      · exact fun same => (named.distinct n i.val live same.symm).symm
      · rintro rfl
        rfl
    simp only [hits]
    by_cases low : n < nodeBufCnt
    · have found : (Slots.first fun i : Fin nodeBufCnt => decide (i.val = n)) = some ⟨n, low⟩ :=
        Slots.first_unique _ ⟨n, low⟩ (by simp) fun j same => Fin.ext (by simpa using same)
      simp [found, low]
    · have missed : (Slots.first fun i : Fin nodeBufCnt => decide (i.val = n)) = none := by
        rw [Slots.first_none]
        intro i
        have := i.isLt
        simp only [decide_eq_false_iff_not]
        omega
      simp only [missed, low, iff_false]
      intro same
      have := Except.ok.inj same
      omega

/-- In every run of creates and closes on zeroed node pages names stay distinct, a live name is refused
by every create that is not refused for its size, a new message buffer gets an id that was not live, and
the id of a live one finds it. Its name finds it exactly when it is in the first node. -/
theorem msgbuf_names (s₀ s : MsgSys) (boot : s₀.reg = ⟨[], 0⟩)
    (run : Run (MsgSys.CallStep zeroPages) (fun _ a => a.2.createsOrCloses) s₀ s) :
    (∀ i j, s.reg.Live i → (s.reg.buf i).name = (s.reg.buf j).name → i = j) ∧
    (∀ t n size sendBuf, s.reg.Live n →
      (msgbufCreate zeroPages (s.as t) (s.reg.buf n).name size sendBuf =
        .ok ((⟨-1, .msbExs⟩, none), s.as t) ↔ (sendBuf = true → size ≠ 0))) ∧
    (∀ t name size sendBuf id buf s',
      msgbufCreate zeroPages (s.as t) name size sendBuf = .ok ((⟨id, .ok⟩, buf), s') →
        ∃ n : Nat, id = n ∧ ¬ s.reg.Live n ∧ s'.reg.Live n ∧ (s'.reg.buf n).name = name) ∧
    (∀ n, s.reg.Live n → msgbufGet s.reg n = .ok (some n) ∧
      (msgbufGetId s.reg (s.reg.buf n).name = .ok n ↔ n < nodeBufCnt)) := by
  have blank (n : Nat) : (s₀.reg.buf n).name = [] := by
    rw [boot]
    rfl
  have named : s.reg.Named := by
    have first : s₀.reg.Named :=
      ⟨by rw [boot], fun n => by rw [blank n]; exact Nat.zero_le _, fun i _ live => absurd (blank i) live⟩
    refine run.invariant (fun s => s.reg.Named) first ?_
    rintro s a s' named _ ⟨move, done, rfl⟩
    exact act_named (s := s.as a.1) zeroPages_clean named done
  refine ⟨named.distinct, fun t n size sendBuf live => ⟨fun refused => ?_, fun sized => ?_⟩, ?_,
    fun n live => ⟨live.get named.last, named.getId n live⟩⟩
  · rintro rfl rfl
    have length : ¬ ((s.reg.buf n).name.length = 0 ∨ msbNameMax < (s.reg.buf n).name.length) := by
      have := List.length_pos_iff.mpr live
      have := named.short n
      omega
    rw [msgbufCreate, if_neg length, if_pos ⟨rfl, rfl⟩] at refused
    simp at refused
  · rcases msgbufCreate_cases (s := s.as t) (s.reg.buf n).name size sendBuf zeroPages_clean named live
      (named.short n) sized with ⟨_, refused⟩ | ⟨clear, _⟩
    · exact refused
    · exact absurd rfl (clear n)
  · intro t name size sendBuf id buf s' created
    rcases msgbufCreate_ok (s := s.as t) zeroPages_clean named created with
      ⟨_, _, _, failed⟩ | ⟨n, k, reg, f, nonempty, _, _, allotted, claims, rfl, same | ⟨_, failed⟩⟩
    · exact absurd rfl failed
    · have here : ((reg.setBuf n f).buf n).name = name := by
        rw [reg.buf_setBuf_self n f allotted.inside, claims.name]
      refine ⟨n, (MsgbufRId.mk.inj same).1, ?_, ?_, here⟩
      · have free := allotted.free
        rw [Registry.Live, allotted.name n] at free
        exact free
      · rw [Registry.Live, here]
        exact nonempty
    · exact absurd rfl failed

-- The calls of a run one after the other.
def MsgSys.calls (stale : Stale) (s : MsgSys) : List (Word × MsgCall) → Option MsgSys
  | [] => some s
  | a :: rest =>
    match a.2.act stale (s.as a.1) with
    | .ok move => move.sys.calls stale rest
    | .error _ => none

theorem MsgSys.calls_run (stale : Stale) (allowed : MsgSys → Word × MsgCall → Prop) (s₀ s s' : MsgSys)
    (calls : List (Word × MsgCall)) (before : Run (MsgSys.CallStep stale) allowed s₀ s)
    (fine : ∀ s a, a ∈ calls → allowed s a) (done : s.calls stale calls = some s') :
    Run (MsgSys.CallStep stale) allowed s₀ s' := by
  induction calls generalizing s with
  | nil =>
    obtain rfl := Option.some.inj done
    exact before
  | cons a calls ih =>
    unfold MsgSys.calls at done
    cases moved : a.2.act stale (s.as a.1) with
    | error halt => rw [moved] at done; cases done
    | ok move =>
      rw [moved] at done
      exact ih move.sys (.next s move.sys a before (fine s a List.mem_cons_self) ⟨move, moved, rfl⟩)
        (fun s a member => fine s a (List.mem_cons_of_mem _ member)) done

-- A name of one character.
def letter (n : Nat) : List CChar := [⟨BitVec.ofNat 8 (n % 255 + 1), by
  intro zero
  have := congrArg BitVec.toNat zero
  simp at this
  omega⟩]

def booted (free : List Nat) : MsgSys := ⟨oneTask [] free, ⟨[], 0⟩⟩

-- One message buffer more than a node has room for.
def nineteen : List (Word × MsgCall) :=
  (List.range 19).map fun n => (poolVa 10, .create (letter n) 0 false)

theorem lastCreated_lost :
    ¬ ∀ s₀ s : MsgSys, s₀.reg = ⟨[], 0⟩ →
      Run (MsgSys.CallStep zeroPages) (fun _ a => a.2.createsOrCloses) s₀ s →
        ∀ n, s.reg.Live n → msgbufGetId s.reg (s.reg.buf n).name = .ok n := by
  intro claim
  have played : ((booted [20, 21, 22]).calls zeroPages nineteen).map (fun s =>
      (decide ((s.reg.buf 18).name = letter 18),
        match msgbufGetId s.reg (s.reg.buf 18).name with | .ok id => id | .error _ => 0)) =
      some (true, -1) := by decide +kernel
  obtain ⟨s, reached, same⟩ := Option.map_eq_some_iff.mp played
  obtain ⟨name, missed⟩ := Prod.mk.inj same
  have only (s : MsgSys) (a : Word × MsgCall) (member : a ∈ nineteen) : a.2.createsOrCloses := by
    obtain ⟨n, _, rfl⟩ := List.mem_map.mp member
    trivial
  have run := MsgSys.calls_run zeroPages (fun _ a => a.2.createsOrCloses) _ _ s nineteen .start only reached
  have live : s.reg.Live 18 := by
    rw [Registry.Live, of_decide_eq_true name]
    exact List.cons_ne_nil _ _
  rw [claim (booted [20, 21, 22]) s rfl run 18 live] at missed
  cases missed

-- The first message buffer of a fresh system is found by its name.
theorem msgbuf_names_first : ∃ s : MsgSys, s.reg.Live 0 ∧
    msgbufGetId s.reg (s.reg.buf 0).name = .ok ((0 : Nat) : Int) := by
  have played : ((booted [20, 21, 22]).calls zeroPages [(poolVa 10, .create (letter 0) 0 false)]).map
      (fun s => decide ((s.reg.buf 0).name = letter 0)) = some true := by decide +kernel
  obtain ⟨s, reached, name⟩ := Option.map_eq_some_iff.mp played
  have run := MsgSys.calls_run zeroPages (fun _ a => a.2.createsOrCloses) _ _ s _ .start
    (fun _ a member => by rw [List.mem_singleton.mp member]; trivial) reached
  have live : s.reg.Live 0 := by
    rw [Registry.Live, of_decide_eq_true name]
    exact List.cons_ne_nil _ _
  exact ⟨s, live, ((msgbuf_names (booted [20, 21, 22]) s rfl run).2.2.2 0 live).2.mpr (by decide)⟩

end Anthill
