import Anthill.VfsRuns

set_option autoImplicit false

namespace Anthill

open Bytes (Counted)

namespace VfsServer

-- The vnode that a message is about.
def vnodeOf (s : VfsServer Table) (r : Request) : Nat := s.clients.obj (s.clients.client r.mqId) (r.msg.value .fid)

/-- The messages that are not answered: those of other types; a Tattach from which no client is made; a Twalk of more than
seven qids and a Tread of more than 113 bytes of children, which are carried out; and what has been passed on, if what
came back cannot be parsed. -/
def Unanswered (p : Placement) (s : VfsServer Table) (r : Request) : Prop :=
  let uname := (r.msg.value .uname).1
  let wname := (r.msg.value .wname).1
  let lost (vnode : VnodeId) := r.forward (s.tree.node vnode) r.msg = some none
  match r.msg.type with
  | .tattach => uname.length = 0 ∨ 32 < uname.length ∨ r.client = 0 ∨ r.mqOpen uname = -1
  | .tclunk | .tcreate | .tmount | .topen => False
  | .twalk => s.clients.client r.mqId ≠ 0 ∧ r.msg.value .fid ≠ nofid ∧ r.msg.value .newfid ≠ nofid ∧
      ∃ scanned, vnodeScan r.drivers (wname.map fun name => .of name.1) r.fuel s.tree = some scanned ∧
        7 < ((scanned.wqid.take scanned.count).take wname.length).length ∧
        ¬ (scanned.node.isSome ∧ scanned.count = wname.length ∧ r.pair = 0)
  | .tread => s.clients.client r.mqId ≠ 0 ∧ s.vnodeOf r ≠ 0 ∧
      if (s.tree.node (p.vnode (s.vnodeOf r))).mqId = -1 ∧ (s.tree.node (p.vnode (s.vnodeOf r))).channelNode = none then
        ∃ data, vnodeReadDir s.tree (p.vnode (s.vnodeOf r)) (r.msg.value .offset) (r.msg.value .count) = some data ∧
          113 < data.length
      else lost (p.vnode (s.vnodeOf r))
  | .tstat => s.clients.client r.mqId ≠ 0 ∧ s.vnodeOf r ≠ 0 ∧ lost (p.vnode (s.vnodeOf r))
  | .twrite => s.clients.client r.mqId ≠ 0 ∧ r.msg.value .fid ≠ nofid ∧ s.vnodeOf r ≠ 0 ∧ lost (p.vnode (s.vnodeOf r))
  | _ => True

/-- What was passed on is answered with what came back. -/
def PassedOn (s : VfsServer Table) (r : Request) (reply : Message) (mq : Int) : Prop :=
  ∃ v, r.forward (s.tree.node v) r.msg = some (some (reply, mq))

/-- The answer is as it is to be: none if `silent`, and otherwise the server's own or what came back. -/
def Right (s : VfsServer Table) (r : Request) (silent : Prop) (answer : Answer) : Prop :=
  (answer = none ↔ silent) ∧ ∀ reply mq, answer = some (reply, mq) → r.Replies reply mq ∨ PassedOn s r reply mq

section Right

variable {p : Placement} {s : VfsServer Table} {r : Request} {silent : Prop}

theorem Right.congr {silent' : Prop} {answer : Answer} (right : Right s r silent answer) (same : silent' ↔ silent) :
    Right s r silent' answer := ⟨right.1.trans same.symm, right.2⟩

theorem Right.never {bad : Prop} {answer : Answer} (right : Right s r (bad ∧ False) answer) : Right s r False answer :=
  right.congr ⟨False.elim, And.right⟩

theorem right_answer {msg : Message} (tag : msg.tag = r.msg.tag)
    (type : msg.type = .rerror ∨ msg.type.code = r.msg.type.code + 1) : Right s r (¬ msg.Fits) (r.answer msg) := by
  rw [Received.answer, Message.put]
  split
  · next fits =>
    refine ⟨⟨fun none_ => absurd none_ (Option.some_ne_none _), fun unfit => absurd fits unfit⟩, fun reply mq is => .inl ?_⟩
    obtain ⟨rfl, rfl⟩ := Prod.mk.inj (Option.some.inj is)
    exact ⟨tag, rfl, type⟩
  · next unfit => exact ⟨⟨fun _ => unfit, fun _ => rfl⟩, fun reply mq is => by cases is⟩

theorem right_fits {msg : Message} (tag : msg.tag = r.msg.tag)
    (type : msg.type = .rerror ∨ msg.type.code = r.msg.type.code + 1) (fits : msg.Fits) (spoken : ¬ silent) :
    Right s r silent (r.answer msg) :=
  (right_answer tag type).congr ⟨fun quiet => absurd quiet spoken, fun unfit => absurd fits unfit⟩

theorem right_error (ename : Counted 16 Byte) (short : ename.1.length ≤ 115) (spoken : ¬ silent) :
    Right s r silent (r.error ename) := by
  refine right_fits (by rfl) (.inl (by rfl)) ((fits_rerror rfl).mpr ?_) spoken
  rw [Message.set_value]
  exact short

theorem right_forward (vnode : VnodeId) :
    Right s r (r.forward (s.tree.node vnode) r.msg = some none) (forward r s.tree vnode) := by
  rw [forward]
  cases is : r.forward (s.tree.node vnode) r.msg with
  | none => exact right_error _ (by decide) fun quiet => by cases quiet
  | some answer =>
    refine ⟨by simp, fun reply mq same => .inr ⟨vnode, ?_⟩⟩
    simp only at same
    rw [is, same]

-- Both of the ways that a handler can go are right.
theorem right_withClient {f : Nat → Option (Answer × VfsServer Table)} {answer : Answer} {s' : VfsServer Table}
    (done : withClient clientTable r s f = some (answer, s'))
    (next : s.clients.client r.mqId ≠ 0 → f (s.clients.client r.mqId) = some (answer, s') → Right s r silent answer) :
    Right s r (s.clients.client r.mqId ≠ 0 ∧ silent) answer := by
  have found : clientTable.get r.mqId s.clients = some (s.clients.client r.mqId) := rfl
  rw [withClient, found, Option.bind_some] at done
  split at done
  · next none_ =>
    obtain ⟨rfl, rfl⟩ := Prod.mk.inj (Option.some.inj done)
    exact right_error _ (by decide) fun quiet => quiet.1 none_
  · next some_ => exact (next some_ done).congr (and_iff_right some_)

theorem right_unless {bad : Prop} [Decidable bad] {ename : Counted 16 Byte} {f : Option (Answer × VfsServer Table)}
    {answer : Answer} {s' : VfsServer Table} (short : ename.1.length ≤ 115)
    (done : (if bad then some (r.error ename, s) else f) = some (answer, s'))
    (next : ¬ bad → f = some (answer, s') → Right s r silent answer) :
    Right s r (¬ bad ∧ silent) answer := by
  split at done
  · next is =>
    obtain ⟨rfl, rfl⟩ := Prod.mk.inj (Option.some.inj done)
    exact right_error _ short fun quiet => quiet.1 is
  · next is => exact (next is done).congr (and_iff_right is)

theorem right_withVnode {f : VnodeId → Option (Answer × VfsServer Table)} {answer : Answer} {s' : VfsServer Table}
    (done : withVnode clientTable p r s (s.clients.client r.mqId) f = some (answer, s'))
    (next : s.vnodeOf r ≠ 0 → f (p.vnode (s.vnodeOf r)) = some (answer, s') → Right s r silent answer) :
    Right s r (s.vnodeOf r ≠ 0 ∧ silent) answer := by
  have found : clientTable.fidGet (s.clients.client r.mqId) (r.msg.value .fid) s.clients = some (s.vnodeOf r) := rfl
  rw [withVnode, found, Option.bind_some] at done
  exact right_unless (by decide) done next

theorem attach_right {answer : Answer} {s' : VfsServer Table} (type : r.msg.type = .tattach)
    (done : attach clientTable p r s = some (answer, s')) : Right s r (Unanswered p s r) answer := by
  have silent : Unanswered p s r ↔ (r.msg.value .uname).1.length = 0 ∨ 32 < (r.msg.value .uname).1.length ∨
      r.client = 0 ∨ r.mqOpen (r.msg.value .uname).1 = -1 := by rw [Unanswered, type]
  have quiet (is : Unanswered p s r) : Right s r (Unanswered p s r) none :=
    ⟨⟨fun _ => is, fun _ => rfl⟩, fun _ _ answered => by cases answered⟩
  rw [attach] at done
  obtain ⟨⟨client, clients⟩, made, done⟩ := Option.bind_eq_some_iff.mp done
  simp only [attachClient, clientTable] at made
  split at made
  · next none_ =>
    obtain ⟨rfl, rfl⟩ := Prod.mk.inj (Option.some.inj made)
    obtain ⟨rfl, rfl⟩ := Prod.mk.inj (Option.some.inj done)
    exact quiet (silent.mpr (.inl none_))
  next some_ =>
  split at made
  · next long =>
    obtain ⟨rfl, rfl⟩ := Prod.mk.inj (Option.some.inj made)
    obtain ⟨rfl, rfl⟩ := Prod.mk.inj (Option.some.inj done)
    exact quiet (silent.mpr (.inr (.inl long)))
  next short =>
  split at made
  · cases made
  rw [Option.map_some] at made
  split at made
  · next failed =>
    obtain ⟨rfl, rfl⟩ := Prod.mk.inj (Option.some.inj made)
    rw [if_pos rfl] at done
    obtain ⟨rfl, rfl⟩ := Prod.mk.inj (Option.some.inj done)
    exact quiet (silent.mpr (.inr (.inr failed)))
  next created =>
  obtain ⟨rfl, rfl⟩ := Prod.mk.inj (Option.some.inj made)
  rw [if_neg (not_or.mp created).1] at done
  have spoken : ¬ Unanswered p s r := fun is => by
    rcases silent.mp is with none_ | long | failed
    · exact some_ none_
    · exact short long
    · exact created failed
  have code : FcallType.code .rattach = r.msg.type.code + 1 := by
    rw [type]
    rfl
  have rattach (qid : Qid) : Right s r (Unanswered p s r) (r.answer ((r.msg.to .rattach).set .qid qid)) :=
    right_fits (by rfl) (.inr code) (fits_fixed (by simp)) spoken
  simp only at done
  split at done
  · obtain ⟨rfl, rfl⟩ := Prod.mk.inj (Option.some.inj done)
    exact right_error _ (by decide) spoken
  obtain ⟨⟨pair, clients⟩, -, done⟩ := Option.bind_eq_some_iff.mp done
  split at done
  · obtain ⟨rfl, rfl⟩ := Prod.mk.inj (Option.some.inj done)
    exact right_error _ (by decide) spoken
  split at done
  · obtain ⟨dev, -, done⟩ := Option.bind_eq_some_iff.mp done
    obtain ⟨⟨pair', clients'⟩, -, is⟩ := Option.map_eq_some_iff.mp done
    split at is
    · obtain ⟨rfl, rfl⟩ := Prod.mk.inj is
      exact right_error _ (by decide) spoken
    · obtain ⟨rfl, rfl⟩ := Prod.mk.inj is
      exact rattach _
  · obtain ⟨rfl, rfl⟩ := Prod.mk.inj (Option.some.inj done)
    exact rattach _

theorem clunk_right {answer : Answer} {s' : VfsServer Table} (type : r.msg.type = .tclunk)
    (done : clunk clientTable r s = some (answer, s')) : Right s r False answer := by
  refine .never (right_withClient done fun _ done => ?_)
  refine .never (right_unless (by decide) done fun _ done => ?_)
  obtain ⟨⟨err, clients⟩, -, is⟩ := Option.map_eq_some_iff.mp done
  simp only at is
  split at is
  · obtain ⟨rfl, rfl⟩ := Prod.mk.inj is
    exact right_error _ (by decide) id
  · obtain ⟨rfl, rfl⟩ := Prod.mk.inj is
    exact right_fits (by rfl) (.inr (by rw [type]; rfl)) (fits_fixed (by simp)) id

theorem create_right {answer : Answer} {s' : VfsServer Table} (type : r.msg.type = .tcreate)
    (done : create clientTable p r s = some (answer, s')) : Right s r False answer := by
  refine .never (right_withClient done fun _ done => ?_)
  refine .never (right_unless (by decide) done fun _ done => ?_)
  refine .never (right_withVnode done fun _ done => ?_)
  simp only at done
  split at done
  · obtain ⟨rfl, rfl⟩ := Prod.mk.inj (Option.some.inj done)
    exact right_error _ (by decide) id
  · obtain ⟨name, -, done⟩ := Option.bind_eq_some_iff.mp done
    obtain ⟨⟨err, clients⟩, -, is⟩ := Option.map_eq_some_iff.mp done
    obtain ⟨rfl, rfl⟩ := Prod.mk.inj is
    exact right_fits (by rfl) (.inr (by rw [type]; rfl)) (fits_fixed (by simp)) id

theorem mount_right {answer : Answer} {s' : VfsServer Table} (type : r.msg.type = .tmount)
    (done : mount clientTable p r s = some (answer, s')) : Right s r False answer := by
  refine .never (right_withClient done fun _ done => ?_)
  refine .never (right_unless (by decide) done fun _ done => ?_)
  obtain ⟨channel, -, done⟩ := Option.bind_eq_some_iff.mp done
  obtain ⟨mount, -, done⟩ := Option.bind_eq_some_iff.mp done
  refine .never (right_unless (by decide) done fun _ done => ?_)
  obtain ⟨⟨attached, tree⟩, -, is⟩ := Option.map_eq_some_iff.mp done
  simp only at is
  split at is
  · obtain ⟨rfl, rfl⟩ := Prod.mk.inj is
    exact right_fits (by rfl) (.inr (by rw [type]; rfl)) (fits_fixed (by simp)) id
  · obtain ⟨rfl, rfl⟩ := Prod.mk.inj is
    exact right_error _ (by decide) id

theorem open_right {answer : Answer} {s' : VfsServer Table} (type : r.msg.type = .topen)
    (done : open_ clientTable p r s = some (answer, s')) : Right s r False answer := by
  refine .never (right_withClient done fun _ done => ?_)
  refine .never (right_unless (by decide) done fun _ done => ?_)
  refine .never (right_withVnode done fun _ done => ?_)
  obtain ⟨rfl, rfl⟩ := Prod.mk.inj (Option.some.inj done)
  exact right_fits (by rfl) (.inr (by rw [type]; rfl)) (fits_fixed (by simp)) id

theorem read_right {answer : Answer} {s' : VfsServer Table} (type : r.msg.type = .tread)
    (done : read clientTable p r s = some (answer, s')) : Right s r (Unanswered p s r) answer := by
  rw [Unanswered, type]
  refine right_withClient done fun _ done => right_withVnode done fun _ done => ?_
  split at done
  · next local_ =>
    rw [if_pos local_]
    obtain ⟨answer', listed, is⟩ := Option.map_eq_some_iff.mp done
    obtain ⟨rfl, rfl⟩ := Prod.mk.inj is
    rw [readDir] at listed
    split at listed
    · cases listed
    · next data entries =>
      obtain rfl := Option.some.inj listed
      simp only [entries, Option.some.injEq, exists_eq_left']
      split
      · next empty => exact right_error _ (by decide) fun long => by omega
      · refine (right_answer (by rfl) (.inr (by rw [type]; rfl))).congr ?_
        rw [fits_rread rfl, Message.set_value]
        exact Nat.not_le.symm
  · next remote =>
    rw [if_neg remote]
    obtain ⟨rfl, rfl⟩ := Prod.mk.inj (Option.some.inj done)
    exact right_forward _

theorem stat_right {answer : Answer} {s' : VfsServer Table} (type : r.msg.type = .tstat)
    (done : stat clientTable p r s = some (answer, s')) : Right s r (Unanswered p s r) answer := by
  rw [Unanswered, type]
  refine right_withClient done fun _ done => right_withVnode done fun _ done => ?_
  obtain ⟨rfl, rfl⟩ := Prod.mk.inj (Option.some.inj done)
  exact right_forward _

theorem write_right {answer : Answer} {s' : VfsServer Table} (type : r.msg.type = .twrite)
    (done : write clientTable p r s = some (answer, s')) : Right s r (Unanswered p s r) answer := by
  rw [Unanswered, type]
  refine right_withClient done fun _ done => right_unless (by decide) done fun _ done =>
    right_withVnode done fun _ done => ?_
  obtain ⟨rfl, rfl⟩ := Prod.mk.inj (Option.some.inj done)
  exact right_forward _

theorem walk_right {answer : Answer} {s' : VfsServer Table} (type : r.msg.type = .twalk)
    (done : walk clientTable p r s = some (answer, s')) : Right s r (Unanswered p s r) answer := by
  rw [Unanswered, type]
  simp only
  refine right_withClient done fun _ done => ?_
  refine (right_unless (by decide) done fun _ done => ?_).congr (by rw [not_or, and_assoc])
  obtain ⟨scanned, searched, done⟩ := Option.bind_eq_some_iff.mp done
  simp only [searched, Option.some.injEq, exists_eq_left']
  have rwalk : Right s r (7 < ((scanned.wqid.take scanned.count).take (r.msg.value .wname).1.length).length)
      (r.answer ((r.msg.to .rwalk).set .wqid ⟨(scanned.wqid.take scanned.count).take (r.msg.value .wname).1.length,
        Nat.lt_of_le_of_lt (List.length_take_le _ _) (r.msg.value .wname).2⟩)) := by
    refine (right_answer (by rfl) (.inr (by rw [type]; rfl))).congr ?_
    rw [fits_rwalk rfl, Message.set_value]
    exact Nat.not_le.symm
  split at done
  · next node node_ =>
    split at done
    · next whole =>
      rcases added_some done with ⟨null, is⟩ | ⟨there, is⟩
      · rw [(Prod.mk.inj is).1]
        exact right_error _ (by decide) fun quiet => quiet.2 ⟨by rw [node_]; rfl, whole, null⟩
      · rw [(Prod.mk.inj is).1]
        exact rwalk.congr (and_iff_left fun full => there full.2.2)
    · next partial_ =>
      obtain ⟨rfl, rfl⟩ := Prod.mk.inj (Option.some.inj done)
      exact rwalk.congr (and_iff_left fun full => partial_ full.2.1)
  · next none_ =>
    obtain ⟨rfl, rfl⟩ := Prod.mk.inj (Option.some.inj done)
    refine rwalk.congr (and_iff_left fun full => ?_)
    rw [none_] at full
    cases full.1

theorem handleMessage_right {answer : Answer} {s' : VfsServer Table}
    (done : handleMessage clientTable p r s = some (answer, s')) : Right s r (Unanswered p s r) answer := by
  rw [handleMessage] at done
  have spoken (no : Unanswered p s r ↔ False) (right : Right s r False answer) : Right s r (Unanswered p s r) answer :=
    right.congr no
  split at done
  · next type => exact attach_right type done
  · next type => exact spoken (by rw [Unanswered, type]) (clunk_right type done)
  · next type => exact spoken (by rw [Unanswered, type]) (create_right type done)
  · next type => exact spoken (by rw [Unanswered, type]) (mount_right type done)
  · next type => exact spoken (by rw [Unanswered, type]) (open_right type done)
  · next type => exact read_right type done
  · next type => exact stat_right type done
  · next type => exact walk_right type done
  · next type => exact write_right type done
  · next attach clunk create mount open_ read stat walk write =>
    obtain ⟨rfl, rfl⟩ := Prod.mk.inj (Option.some.inj done)
    refine ⟨⟨fun _ => ?_, fun _ => rfl⟩, fun _ _ answered => by cases answered⟩
    rw [Unanswered]
    split <;> trivial

end Right

theorem Serving.right {p : Placement} {s : VfsServer Vfs × VfsServer Table} {r : Request} (serving : Serving p s)
    (fine : Fine s r) {answer : Answer} {s' : VfsServer Vfs} (done : handleMessage libvfs p r s.1 = some (answer, s')) :
    Right s.2 r (Unanswered p s.2 r) answer := by
  have same := serving.refines fine
  rw [done] at same
  obtain ⟨⟨answer', s''⟩, meant, is⟩ := Option.map_eq_some_iff.mp same.symm
  obtain rfl : answer' = answer := (Prod.mk.inj is).1
  exact handleMessage_right meant

/-- In every run each message is answered, and by the server itself or with what a driver has sent for it, but for those
that are not. -/
theorem answered_unless {p : Placement} {tree : VnodeTree} {s : VfsServer Vfs × VfsServer Table} {r : Request}
    (run : Run (Step p) Fine (booted tree) s) (fine : Fine s r) {answer : Answer} {s' : VfsServer Vfs}
    (done : handleMessage libvfs p r s.1 = some (answer, s')) : Right s.2 r (Unanswered p s.2 r) answer :=
  (Serving.of_run run).right fine done

theorem answered_unless_second : ∃ answer s', handleMessage libvfs encoded (attaching 6 64 80 96) oneServed.1 = some (answer, s') ∧
    Right oneServed.2 (attaching 6 64 80 96) (Unanswered encoded oneServed.2 (attaching 6 64 80 96)) answer :=
  ⟨_, _, rfl, answered_unless oneServed_run second_fine rfl⟩

end VfsServer

end Anthill
