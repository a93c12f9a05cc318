import Anthill.MsgbufSlots

set_option autoImplicit false

namespace Anthill

/-- What two runs have in common beyond the contents that must not matter: the addresses and sizes in
the pages of their nodes, and positions that can be used. -/
structure Rely where
  rest : Prop
  ring : Prop

/-- Receive queues that hold the same ids in order, wherever in their arrays they start. -/
structure SameIds (a b : Msgbuf) : Prop where
  posA : a.recvQueuePos.toNat < queueSize
  posB : b.recvQueuePos.toNat < queueSize
  queue : a.queued = b.queued

/-- Message buffers that differ in nothing that a call shows. -/
structure Alike (rely : Rely) (a b : Msgbuf) : Prop where
  name : a.name = b.name
  addr : a.addr = b.addr
  owner : a.owner = b.owner
  size : a.size = b.size
  conns : a.connections = b.connections
  queue : rely.ring → SameIds a b

/-- Message buffers that no msgbuf_create has taken yet. -/
structure Unclaimed (rely : Rely) (a b : Msgbuf) : Prop where
  nameA : a.name = []
  nameB : b.name = []
  pos : rely.ring → a.recvQueuePos.toNat < queueSize ∧ b.recvQueuePos.toNat < queueSize
  rest : rely.rest → a.addr = b.addr ∧ a.size = b.size

def Matches (rely : Rely) (a b : Msgbuf) : Prop := Alike rely a b ∨ Unclaimed rely a b

/-- Two registries in which the calls return the same. -/
structure RegMatch (rely : Rely) (a b : Registry) : Prop where
  length : a.nodes.length = b.nodes.length
  lastA : a.next = 0
  lastB : b.next = 0
  bufs : ∀ n, Matches rely (a.buf n) (b.buf n)

structure SysMatch (rely : Rely) (a b : MsgSys) : Prop where
  sys : a.sys = b.sys
  reg : RegMatch rely a.reg b.reg

/-- Both halt, and in the same way, or both return. -/
def Both {A B : Type} (rel : A → B → Prop) : Except Halt A → Except Halt B → Prop
  | .ok a, .ok b => rel a b
  | .error halt, .error halt' => halt = halt'
  | _, _ => False

theorem Both.refl {A : Type} (rel : A → A → Prop) (all : ∀ a, rel a a) (a : Except Halt A) : Both rel a a := by
  cases a with
  | error halt => rfl
  | ok a => exact all a

theorem Both.map {A B C D : Type} {rel : A → B → Prop} {rel' : C → D → Prop} {a : Except Halt A}
    {b : Except Halt B} (f : A → C) (g : B → D) (both : Both rel a b)
    (step : ∀ a b, rel a b → rel' (f a) (g b)) : Both rel' (a.map f) (b.map g) := by
  cases a <;> cases b
  · exact both
  · exact both
  · exact both
  · exact step _ _ both

theorem Both.cases {A B : Type} {rel : A → B → Prop} {a : Except Halt A} {b : Except Halt B}
    (both : Both rel a b) :
    (∃ halt, a = .error halt ∧ b = .error halt) ∨ ∃ x y, a = .ok x ∧ b = .ok y ∧ rel x y := by
  cases a <;> cases b
  · obtain rfl := both
    exact .inl ⟨_, rfl, rfl⟩
  · exact both.elim
  · exact both.elim
  · exact .inr ⟨_, _, rfl, rfl, both⟩

theorem Both.mono {A B : Type} {rel rel' : A → B → Prop} {a : Except Halt A} {b : Except Halt B}
    (both : Both rel a b) (step : ∀ a b, rel a b → rel' a b) : Both rel' a b := by
  rcases both.cases with ⟨halt, rfl, rfl⟩ | ⟨x, y, rfl, rfl, related⟩
  · rfl
  · exact step x y related

section Match

variable {rely : Rely} {a b : Msgbuf}

theorem Matches.name (same : Matches rely a b) : a.name = b.name := by
  rcases same with alike | unclaimed
  · exact alike.name
  · rw [unclaimed.nameA, unclaimed.nameB]

theorem Matches.pos (same : Matches rely a b) (used : rely.ring) :
    a.recvQueuePos.toNat < queueSize ∧ b.recvQueuePos.toNat < queueSize := by
  rcases same with alike | unclaimed
  · exact ⟨(alike.queue used).posA, (alike.queue used).posB⟩
  · exact unclaimed.pos used

theorem Matches.alike (same : Matches rely a b) (live : a.name ≠ []) : Alike rely a b :=
  same.resolve_right fun unclaimed => live unclaimed.nameA

theorem Alike.refl (inside : a.recvQueuePos.toNat < queueSize) : Alike rely a a :=
  ⟨rfl, rfl, rfl, rfl, rfl, fun _ => ⟨inside, inside, rfl⟩⟩

theorem Alike.setConn (alike : Alike rely a b) (c : Fin maxConn) (conn : Conn) :
    Alike rely (a.setConn c conn) (b.setConn c conn) where
  name := alike.name
  addr := alike.addr
  owner := alike.owner
  size := alike.size
  conns := by rw [Msgbuf.setConn, Msgbuf.setConn, alike.conns]
  queue used := ⟨(alike.queue used).posA, (alike.queue used).posB, (alike.queue used).queue⟩

theorem Alike.clear (alike : Alike rely a b) : Alike rely { a with name := [] } { b with name := [] } where
  name := rfl
  addr := alike.addr
  owner := alike.owner
  size := alike.size
  conns := alike.conns
  queue used := ⟨(alike.queue used).posA, (alike.queue used).posB, (alike.queue used).queue⟩

-- The positions of two queues may differ, for a create sets every cell.
theorem Matches.created (same : Matches rely a b) (name : List CChar) (owner addr size : Word) :
    Alike rely { a.created name owner with addr := addr, size := size }
      { b.created name owner with addr := addr, size := size } where
  name := rfl
  addr := rfl
  owner := rfl
  size := rfl
  conns := rfl
  queue used := ⟨(same.pos used).1, (same.pos used).2, rfl⟩

theorem Matches.kept (same : Matches rely a b) (agreed : rely.rest) (name : List CChar) (owner : Word) :
    Alike rely (a.created name owner) (b.created name owner) := by
  have rest : a.addr = b.addr ∧ a.size = b.size := by
    rcases same with alike | unclaimed
    · exact ⟨alike.addr, alike.size⟩
    · exact unclaimed.rest agreed
  refine ⟨rfl, ?_, rfl, rest.2, rfl, fun used => ⟨(same.pos used).1, (same.pos used).2, rfl⟩⟩
  simp only [Msgbuf.created, Msgbuf.copyName, Msgbuf.claim, rest.1]

end Match

section Registry

variable {rely : Rely} {a b : Registry} (same : RegMatch rely a b)

include same

theorem RegMatch.get (id : Int) : msgbufGet a id = msgbufGet b id := by
  by_cases listed : a.nodes = []
  · have other : b.nodes = [] := by
      rw [← List.length_eq_zero_iff, ← same.length, listed]
      rfl
    simp [msgbufGet, Registry.nodeOf, listed, other]
  · have other : b.nodes ≠ [] := by
      intro empty
      apply listed
      rw [← List.length_eq_zero_iff, same.length, empty]
      rfl
    rw [msgbufGet_eq a id listed same.lastA, msgbufGet_eq b id other same.lastB, (same.bufs _).name]

theorem RegMatch.live (id : Int) (n : Nat) (found : msgbufGet a id = .ok (some n)) :
    a.Live n ∧ Alike rely (a.buf n) (b.buf n) := by
  by_cases listed : a.nodes = []
  · simp [msgbufGet, Registry.nodeOf, listed] at found
  · rw [msgbufGet_eq a id listed same.lastA] at found
    split_ifs at found with gone
    · simp at found
    · obtain rfl := Option.some.inj (Except.ok.inj found)
      have live := (not_or.mp gone).2
      exact ⟨live, (same.bufs _).alike live⟩

theorem RegMatch.nodes : a.nodes = [] ↔ b.nodes = [] := by
  rw [← List.length_eq_zero_iff, same.length, List.length_eq_zero_iff]

theorem RegMatch.getId (name : List CChar) : msgbufGetId a name = msgbufGetId b name := by
  unfold msgbufGetId
  cases nodesA : a.nodes with
  | nil => rw [same.nodes.mp nodesA]
  | cons nodeA restA =>
    cases nodesB : b.nodes with
    | nil => rw [same.nodes.mpr nodesB] at nodesA; cases nodesA
    | cons nodeB restB =>
      have names (i : Fin nodeBufCnt) : (nodeA i).name = (nodeB i).name := by
        rw [← a.buf_first nodeA restA nodesA i, ← b.buf_first nodeB restB nodesB i]
        exact (same.bufs _).name
      simp only [names]

end Registry

/-- A message buffer that has been taken in both systems, so that a task may hold a pointer to it. -/
def Paired (rely : Rely) (a b : MsgSys) (n : Nat) : Prop :=
  n < a.reg.nodes.length * nodeBufCnt ∧ Alike rely (a.reg.buf n) (b.reg.buf n)

/-- What a step leaves: registries that still match, and no message buffers that have come apart. -/
structure Follows (rely : Rely) (a b a' b' : MsgSys) : Prop where
  now : SysMatch rely a' b'
  kept : ∀ n, Paired rely a b n → Paired rely a' b' n

theorem Follows.refl {rely : Rely} {a b : MsgSys} (same : SysMatch rely a b) : Follows rely a b a b :=
  ⟨same, fun _ => id⟩

theorem Follows.trans {rely : Rely} {a b a' b' a'' b'' : MsgSys} (first : Follows rely a b a' b')
    (second : Follows rely a' b' a'' b'') : Follows rely a b a'' b'' :=
  ⟨second.now, fun n pair => second.kept n (first.kept n pair)⟩

section Sys

variable {rely : Rely} {a b : MsgSys} (same : SysMatch rely a b)

include same

theorem SysMatch.setKernel (k : Kernel) :
    Follows rely a b ⟨a.sys.setKernel k, a.reg⟩ ⟨b.sys.setKernel k, b.reg⟩ :=
  ⟨⟨by rw [same.sys], same.reg⟩, fun _ => id⟩

-- A write to one message buffer after which the two are alike.
theorem SysMatch.put (n : Nat) (f g : Msgbuf → Msgbuf) (alike : Alike rely (f (a.reg.buf n)) (g (b.reg.buf n))) :
    Follows rely a b ⟨a.sys, a.reg.setBuf n f⟩ ⟨b.sys, b.reg.setBuf n g⟩ := by
  have length := same.reg.length
  by_cases inside : n < a.reg.nodes.length * nodeBufCnt
  · have here : Alike rely ((a.reg.setBuf n f).buf n) ((b.reg.setBuf n g).buf n) := by
      rw [a.reg.buf_setBuf_self n f inside, b.reg.buf_setBuf_self n g (length ▸ inside)]
      exact alike
    have away (m : Nat) (other : m ≠ n) : (a.reg.setBuf n f).buf m = a.reg.buf m ∧
        (b.reg.setBuf n g).buf m = b.reg.buf m :=
      ⟨a.reg.buf_setBuf_of_ne n f m other, b.reg.buf_setBuf_of_ne n g m other⟩
    refine ⟨⟨same.sys, by simp [length], same.reg.lastA, same.reg.lastB, fun m => ?_⟩, fun m before => ?_⟩
    · by_cases at_ : m = n
      · rw [at_]
        exact .inl here
      · rw [(away m at_).1, (away m at_).2]
        exact same.reg.bufs m
    · refine ⟨by simpa using before.1, ?_⟩
      by_cases at_ : m = n
      · rw [at_]
        exact here
      · simpa only [(away m at_).1, (away m at_).2] using before.2
  · have unchanged (m : Nat) := And.intro (a.reg.setBuf_outside n f inside m)
      (b.reg.setBuf_outside n g (length ▸ inside) m)
    refine ⟨⟨same.sys, by simp [length], same.reg.lastA, same.reg.lastB, fun m => ?_⟩, fun m before => ?_⟩
    · rw [(unchanged m).1, (unchanged m).2]
      exact same.reg.bufs m
    · exact ⟨by simpa using before.1, by simpa only [(unchanged m).1, (unchanged m).2] using before.2⟩

theorem SysMatch.owns (n : Nat) (alike : Alike rely (a.reg.buf n) (b.reg.buf n)) : a.owns n ↔ b.owns n := by
  rw [MsgSys.owns, MsgSys.owns, same.sys, alike.owner]

theorem SysMatch.connFree (n : Nat) (recvId : Int) (alike : Alike rely (a.reg.buf n) (b.reg.buf n)) :
    Both (fun r r' => r.1 = r'.1 ∧ Follows rely a b r.2 r'.2) (connFree a n recvId) (connFree b n recvId) := by
  have search : connSearch (a.reg.buf n) recvId = connSearch (b.reg.buf n) recvId := by
    rw [connSearch, connSearch, alike.conns]
  unfold Anthill.connFree
  simp only [search, alike.conns, alike.size, same.reg.get]
  generalize connSearch (b.reg.buf n) recvId = c
  cases found : msgbufGet b.reg ((b.reg.buf n).connections c).id with
  | error halt => rfl
  | ok receiver =>
    have unmapped : unmapReceiver a ((b.reg.buf n).connections c) receiver
        (memSizeToPages (b.reg.buf n).size).toNat =
        unmapReceiver b ((b.reg.buf n).connections c) receiver (memSizeToPages (b.reg.buf n).size).toNat := by
      cases receiver with
      | none => simp only [unmapReceiver, same.sys]
      | some r =>
        rw [← same.reg.get] at found
        simp only [unmapReceiver, same.sys, (same.reg.live _ r found).2.owner]
    simp only [unmapped]
    refine Both.map _ _ (Both.refl Eq (fun _ => rfl) _) fun k k' equal => ?_
    subst equal
    refine ⟨rfl, (same.setKernel k).trans ((same.setKernel k).now.put n _ _ ?_)⟩
    exact alike.setConn c ⟨-1, 0⟩

theorem SysMatch.closeConns (n : Nat) (conns : List (Fin maxConn)) (pair : Paired rely a b n) :
    Both (Follows rely a b) (closeConns n a conns) (closeConns n b conns) := by
  induction conns generalizing a b with
  | nil => exact Follows.refl same
  | cons c conns ih =>
    unfold Anthill.closeConns
    rw [pair.2.conns]
    split_ifs
    · exact ih same pair
    · rcases (same.connFree n ((b.reg.buf n).connections c).id pair.2).cases with
        ⟨halt, doneA, doneB⟩ | ⟨r, r', doneA, doneB, _, freed⟩
      · simp only [doneA, doneB]
        rfl
      · simp only [doneA, doneB]
        exact (ih freed.now (freed.kept n pair)).mono fun _ _ rest => freed.trans rest

theorem SysMatch.clearName (n : Nat) (alike : Alike rely (a.reg.buf n) (b.reg.buf n)) :
    Follows rely a b (a.clearName n) (b.clearName n) :=
  same.put n _ _ alike.clear

theorem SysMatch.close (id : Int) :
    Both (fun r r' => r.1 = r'.1 ∧ Follows rely a b r.2 r'.2) (msgbufClose a id) (msgbufClose b id) := by
  unfold msgbufClose
  rw [same.reg.get]
  cases found : msgbufGet b.reg id with
  | error halt => rfl
  | ok got =>
    cases got with
    | none => exact ⟨rfl, .refl same⟩
    | some n =>
      rw [← same.reg.get] at found
      obtain ⟨live, alike⟩ := same.reg.live id n found
      simp only [same.owns n alike, alike.addr]
      split_ifs
      · exact ⟨rfl, same.clearName n alike⟩
      · rcases (same.closeConns n (List.finRange maxConn) ⟨live.inside, alike⟩).cases with
          ⟨halt, doneA, doneB⟩ | ⟨a', b', doneA, doneB, freed⟩
        · simp only [doneA, doneB]
          rfl
        · have alike' := (freed.kept n ⟨live.inside, alike⟩).2
          simp only [doneA, doneB, freed.now.sys, alike'.addr, alike'.size]
          rcases closePages (b'.sys.table b'.sys.current) (b'.reg.buf n).addr b'.sys.kernel 0
            (memSizeToPages (b'.reg.buf n).size).toNat with halt | ⟨err, k⟩
          · rfl
          · have kernel := freed.trans (freed.now.setKernel k)
            rw [freed.now.sys] at kernel
            by_cases fine : err = .ok
            · subst fine
              exact ⟨rfl, kernel.trans (kernel.now.clearName n alike')⟩
            · cases err <;> first | exact absurd rfl fine | exact ⟨rfl, kernel⟩
      · exact ⟨rfl, .refl same⟩

theorem SysMatch.disconnect (sendId recvId : Int) :
    Both (fun r r' => r.1 = r'.1 ∧ Follows rely a b r.2 r'.2) (msgbufDisconnect a sendId recvId)
      (msgbufDisconnect b sendId recvId) := by
  unfold msgbufDisconnect
  rw [same.reg.get, same.reg.get]
  rcases foundN : msgbufGet b.reg sendId with halt | _ | n <;>
    rcases foundR : msgbufGet b.reg recvId with halt' | _ | r
  all_goals try rfl
  all_goals try exact ⟨rfl, .refl same⟩
  rw [← same.reg.get] at foundN
  obtain ⟨_, alike⟩ := same.reg.live sendId n foundN
  simp only [same.owns n alike]
  split_ifs
  · exact same.connFree n recvId alike
  · exact ⟨rfl, .refl same⟩

theorem SysMatch.connect (id : Int) (name : List CChar) :
    Both (fun r r' => r.1 = r'.1 ∧ Follows rely a b r.2 r'.2) (msgbufConnect a id name)
      (msgbufConnect b id name) := by
  unfold msgbufConnect
  rw [same.reg.get, same.reg.getId]
  rcases foundN : msgbufGet b.reg id with halt | _ | n
  · rfl
  · exact ⟨rfl, .refl same⟩
  rcases msgbufGetId b.reg name with halt | receiverId
  · rfl
  simp only [same.reg.get]
  split_ifs
  · exact ⟨rfl, .refl same⟩
  rcases foundR : msgbufGet b.reg receiverId with halt | _ | r
  · rfl
  · rfl
  rw [← same.reg.get] at foundN foundR
  obtain ⟨_, alike⟩ := same.reg.live id n foundN
  obtain ⟨_, alikeR⟩ := same.reg.live receiverId r foundR
  have alloc : connAlloc (a.reg.buf n) receiverId = connAlloc (b.reg.buf n) receiverId := by
    simp only [connAlloc, alike.conns]
  simp only [alloc, same.sys, alike.owner, alike.size, alike.addr, alikeR.owner]
  rcases connAlloc (b.reg.buf n) receiverId with err | c
  · exact ⟨rfl, .refl same⟩
  simp only []
  rcases memUserFindEmpty b.sys.kernel.mem (b.sys.table (b.reg.buf r).owner)
    (memSizeToPages (b.reg.buf n).size).toNat findEmptyRounds 0x200000 with _ | recvBuf
  · rfl
  simp only []
  split_ifs
  · exact ⟨rfl, .refl same⟩
  rcases connectLoop (b.sys.table (b.reg.buf n).owner) (b.reg.buf n).addr (b.sys.table (b.reg.buf r).owner)
    recvBuf b.sys.kernel 0 (memSizeToPages (b.reg.buf n).size).toNat with halt | ⟨err, k⟩
  · rfl
  have kernel := same.setKernel k
  rw [same.sys] at kernel
  by_cases fine : err = .ok
  · subst fine
    exact ⟨rfl, kernel.trans (kernel.now.put n _ _ (alike.setConn c ⟨receiverId, recvBuf⟩))⟩
  · cases err <;> first | exact absurd rfl fine | exact ⟨rfl, kernel⟩

omit same in
theorem RegMatch.named {a b : Registry} (same : RegMatch rely a b) (named : a.Named) : b.Named :=
  named.fewer same.lastB fun n => .inl (same.bufs n).name.symm

omit same in
theorem RegMatch.full {a b : Registry} (same : RegMatch rely a b) : a.Full ↔ b.Full := by
  simp only [Registry.Full, Registry.Live, same.length, (same.bufs _).name]

end Sys

/-- Two assignments of contents to the pages that are handed out for nodes: no names, no next nodes from
the second page on, and receive queue positions inside the queue. -/
structure StaleMatch (rely : Rely) (stale stale' : Stale) : Prop where
  bufs : ∀ n i, Unclaimed rely ((stale n).buffers i) ((stale' n).buffers i)
  next : ∀ n, 0 < n → (stale n).next = 0 ∧ (stale' n).next = 0

theorem StaleMatch.clean {rely : Rely} {stale stale' : Stale} (pages : StaleMatch rely stale stale') :
    stale.Clean ∧ stale'.Clean :=
  ⟨fun n => ⟨fun i => (pages.bufs n i).nameA, fun far => (pages.next n far).1⟩,
    fun n => ⟨fun i => (pages.bufs n i).nameB, fun far => (pages.next n far).2⟩⟩

-- What a node page is read as, past the end of the list with no page at all.
theorem Registry.grow_new (reg : Registry) (stale : Stale) (i : Fin nodeBufCnt) :
    (reg.grow stale).buf (reg.nodes.length * nodeBufCnt + i.val) = (stale reg.nodes.length).buffers i := by
  simp only [Registry.buf, Registry.grow, Paged.get_append_new, Option.getD_some]

theorem RegMatch.grow {rely : Rely} {a b : Registry} {stale stale' : Stale} (same : RegMatch rely a b)
    (pages : StaleMatch rely stale stale') (full : a.Full) :
    RegMatch rely (a.grow stale) (b.grow stale') := by
  have allottedA := grow_allotted pages.clean.1 full
  have allottedB := grow_allotted pages.clean.2 (same.full.mp full)
  have lengthA : (a.grow stale).nodes.length = a.nodes.length + 1 := by simp [Registry.grow]
  have lengthB : (b.grow stale').nodes.length = b.nodes.length + 1 := by simp [Registry.grow]
  refine ⟨by rw [lengthA, lengthB, same.length], allottedA.last, allottedB.last, fun n => ?_⟩
  by_cases old : n < a.nodes.length * nodeBufCnt
  · rw [allottedA.old n old, allottedB.old n (same.length ▸ old)]
    exact same.bufs n
  · by_cases new : n < (a.grow stale).nodes.length * nodeBufCnt
    · have place : n = a.nodes.length * nodeBufCnt + (n - a.nodes.length * nodeBufCnt) := by omega
      have small : n - a.nodes.length * nodeBufCnt < nodeBufCnt := by
        rw [lengthA, Nat.succ_mul] at new
        omega
      have hereA := a.grow_new stale ⟨_, small⟩
      have hereB := b.grow_new stale' ⟨_, small⟩
      rw [← same.length] at hereB
      simp only [← place] at hereA hereB
      rw [hereA, hereB]
      exact .inr (pages.bufs _ _)
    · rw [Registry.buf_outside _ n new, Registry.buf_outside _ n (by rwa [lengthB, ← same.length, ← lengthA])]
      exact .inl (.refl (by decide))

/-- No msgbuf_create with a buffer of this size fails in _buffer_alloc. -/
def BufferLasts (s : MsgSys) (size : Word) : Prop :=
  ∀ k, (k = s.sys.kernel ∨ ∃ va, memKernelAllocPage s.sys.kernel .rw = (⟨va, .ok⟩, k)) →
    ∀ addr err k', bufferAlloc (s.sys.setKernel k) size = .ok (⟨addr, err⟩, k') → err = .ok

section Create

variable {rely : Rely} {a b : MsgSys} {stale stale' : Stale} (same : SysMatch rely a b)
  (pages : StaleMatch rely stale stale') (named : a.reg.Named)

include same pages named

omit named in
-- The two searches end at the same place.
theorem SysMatch.taken {idA idB : Nat} {kA kB : Kernel} {regA regB : Registry}
    (nodeA : NodeTaken stale a.reg regA a.sys.kernel kA) (nodeB : NodeTaken stale' b.reg regB b.sys.kernel kB)
    (allottedA : Allotted a.reg regA idA) (allottedB : Allotted b.reg regB idB) :
    idA = idB ∧ kA = kB ∧ RegMatch rely regA regB ∧
      (kA = a.sys.kernel ∨ ∃ va, memKernelAllocPage a.sys.kernel .rw = (⟨va, .ok⟩, kA)) ∧
      ∀ n, n < a.reg.nodes.length * nodeBufCnt → Alike rely (a.reg.buf n) (b.reg.buf n) →
        Alike rely (regA.buf n) (regB.buf n) := by
  have live (n : Nat) : a.reg.Live n ↔ b.reg.Live n := by
    rw [Registry.Live, Registry.Live, (same.reg.bufs n).name]
  have freeA : ¬ a.reg.Live idA := by
    rw [Registry.Live, ← allottedA.name]
    exact allottedA.free
  have freeB : ¬ b.reg.Live idB := by
    rw [Registry.Live, ← allottedB.name]
    exact allottedB.free
  have ids : idA = idB := by
    rcases lt_trichotomy idA idB with less | equal | more
    · exact absurd ((live idA).mpr (allottedB.first idA less)) freeA
    · exact equal
    · exact absurd ((live idB).mp (allottedA.first idB more)) freeB
  have full := same.reg.full
  rcases nodeA with ⟨roomA, rfl, rfl⟩ | ⟨fullA, rfl, va, allocA⟩ <;>
    rcases nodeB with ⟨roomB, rfl, rfl⟩ | ⟨fullB, rfl, vb, allocB⟩
  · exact ⟨ids, by rw [same.sys], same.reg, .inl rfl, fun _ _ => id⟩
  · exact absurd (full.mpr fullB) roomA
  · exact absurd (full.mp fullA) roomB
  · rw [← same.sys, allocA] at allocB
    refine ⟨ids, (Prod.mk.inj allocB).2, same.reg.grow pages fullA, .inr ⟨va, allocA⟩,
      fun n old alike => ?_⟩
    rw [allottedA.old n old, allottedB.old n (same.reg.length ▸ old)]
    exact alike

theorem SysMatch.create (name : List CChar) (size : Word) (sendBuf : Bool)
    (lasts : rely.rest ∨ (sendBuf = true → BufferLasts a size)) :
    Both (fun r r' => r.1 = r'.1 ∧ Follows rely a b r.2 r'.2) (msgbufCreate stale a name size sendBuf)
      (msgbufCreate stale' b name size sendBuf) := by
  by_cases length : name.length = 0 ∨ msbNameMax < name.length
  · rw [msgbufCreate, msgbufCreate, if_pos length, if_pos length]
    exact ⟨rfl, .refl same⟩
  by_cases sizeless : sendBuf = true ∧ size = 0
  · rw [msgbufCreate, msgbufCreate, if_neg length, if_neg length, if_pos sizeless, if_pos sizeless]
    exact ⟨rfl, .refl same⟩
  have nonempty : name ≠ [] := fun empty => length (.inl (by rw [empty]; rfl))
  have fits : name.length ≤ msbNameMax := Nat.not_lt.mp fun long => length (.inr long)
  have sized : sendBuf = true → size ≠ 0 := fun buffer zero => sizeless ⟨buffer, zero⟩
  have names (n : Nat) : (a.reg.buf n).name = (b.reg.buf n).name := (same.reg.bufs n).name
  rcases msgbufCreate_cases name size sendBuf pages.clean.1 named nonempty fits sized with
      ⟨clashA, doneA⟩ | ⟨clearA, ⟨_, errA, kA, failedA, fullA, allocA, doneA⟩ |
        ⟨idA, kA, regA, nodeA, allottedA, doneA⟩⟩ <;>
    rcases msgbufCreate_cases name size sendBuf pages.clean.2 (same.reg.named named) nonempty fits sized with
      ⟨clashB, doneB⟩ | ⟨clearB, ⟨_, errB, kB, failedB, fullB, allocB, doneB⟩ |
        ⟨idB, kB, regB, nodeB, allottedB, doneB⟩⟩ <;>
    rw [doneA, doneB]
  · exact ⟨rfl, .refl same⟩
  · obtain ⟨n, here⟩ := clashA
    exact absurd ((names n).symm.trans here) (clearB n)
  · obtain ⟨n, here⟩ := clashA
    exact absurd ((names n).symm.trans here) (clearB n)
  · obtain ⟨n, here⟩ := clashB
    exact absurd ((names n).trans here) (clearA n)
  · rw [← same.sys, allocA] at allocB
    obtain ⟨result, rfl⟩ := Prod.mk.inj allocB
    obtain rfl := (MemRAddr.mk.inj result).2
    have kernel := same.setKernel kA
    exact ⟨rfl, kernel⟩
  · rcases nodeB with ⟨room, _⟩ | ⟨_, _, va, alloc⟩
    · exact absurd (same.reg.full.mp fullA) room
    · rw [← same.sys, allocA] at alloc
      exact absurd (MemRAddr.mk.inj (Prod.mk.inj alloc).1).2 failedA
  · obtain ⟨n, here⟩ := clashB
    exact absurd ((names n).trans here) (clearA n)
  · rcases nodeA with ⟨room, _⟩ | ⟨_, _, va, alloc⟩
    · exact absurd (same.reg.full.mpr fullB) room
    · rw [same.sys, allocB] at alloc
      exact absurd (MemRAddr.mk.inj (Prod.mk.inj alloc).1).2 failedB
  · obtain ⟨rfl, rfl, reg, kernel, kept⟩ := same.taken pages nodeA nodeB allottedA allottedB
    have first (k : Kernel) : Follows rely a b ⟨a.sys.setKernel k, regA⟩ ⟨b.sys.setKernel k, regB⟩ :=
      ⟨⟨by rw [same.sys], reg⟩, fun n pair =>
        ⟨pair.1.trans_le (Nat.mul_le_mul_right _ allottedA.more), kept n pair.1 pair.2⟩⟩
    have ends (k : Kernel) (f g : Msgbuf → Msgbuf) (alike : Alike rely (f (regA.buf idA)) (g (regB.buf idA))) :
        Follows rely a b ⟨a.sys.setKernel k, regA.setBuf idA f⟩ ⟨b.sys.setKernel k, regB.setBuf idA g⟩ :=
      (first k).trans ((first k).now.put idA f g alike)
    unfold createEnd
    simp only [same.sys]
    simp only [same.sys] at ends
    split_ifs with buffer
    · rcases alloc : bufferAlloc (b.sys.setKernel kA) size with halt | ⟨⟨addr, err⟩, k'⟩
      · rfl
      · simp only []
        split_ifs with fine
        · exact ⟨rfl, ends k' _ _ ((reg.bufs idA).created name _ addr size)⟩
        · refine ⟨rfl, ends k' _ _ ((reg.bufs idA).kept ?_ name _)⟩
          rcases lasts with agreed | lasts
          · exact agreed
          · exact absurd (lasts buffer kA kernel addr err k' (by rw [same.sys]; exact alloc)) fine
    · exact ⟨rfl, ends kA _ _ ((reg.bufs idA).created name _ 0 0)⟩

end Create

def MsgWait.slot : MsgWait → Nat
  | .space send | .reply send => send.receiver
  | .message recv => recv.receiver

-- The message buffer that a task inside a call holds a pointer to.
def MsgPc.slot : MsgPc → Option Nat
  | .idle => none
  | .push send | .wake send => some send.receiver
  | .pop recv | .look recv _ => some recv.receiver
  | .answer _ _ receiver => some receiver
  | .block wait | .blocked wait => some wait.slot

/-- Steps that show the same and leave systems that match. -/
structure MoveMatch (rely : Rely) (a b : MsgSys) (m m' : MsgMove) : Prop where
  follows : Follows rely a b m.sys m'.sys
  pc : m.pc = m'.pc
  ret : m.ret = m'.ret
  effect : m.effect = m'.effect
  held : ∀ n, m.pc.slot = some n → Paired rely m.sys m'.sys n

section Move

variable {rely : Rely} {a b : MsgSys} {stale stale' : Stale} (same : SysMatch rely a b)

include same

omit same in
theorem Both.returns {R : Type} {a' b' : Except Halt (R × MsgSys)} (ret : R → MsgRet)
    (both : Both (fun r r' => r.1 = r'.1 ∧ Follows rely a b r.2 r'.2) a' b') :
    Both (MoveMatch rely a b) (a'.map fun r => r.2.returns (ret r.1)) (b'.map fun r => r.2.returns (ret r.1)) :=
  both.map _ _ fun _ _ related =>
    ⟨related.2, rfl, congrArg (fun r => some (ret r)) related.1, rfl, fun _ none => by cases none⟩

theorem SysMatch.returns (ret : MsgRet) : MoveMatch rely a b (a.returns ret) (b.returns ret) :=
  ⟨.refl same, rfl, rfl, rfl, fun _ none => by cases none⟩

theorem SysMatch.goes (pc : MsgPc) (held : ∀ n, pc.slot = some n → Paired rely a b n) :
    MoveMatch rely a b (a.goes pc) (b.goes pc) :=
  ⟨.refl same, rfl, rfl, rfl, held⟩

-- The checks that msgbuf_send and msgbuf_reply begin with.
theorem SysMatch.act (pages : StaleMatch rely stale stale') (named : a.reg.Named) (call : MsgCall)
    (lasts : rely.rest ∨ ∀ name size, call = .create name size true → BufferLasts a size) :
    Both (MoveMatch rely a b) (call.act stale a) (call.act stale' b) := by
  have pair (id : Int) (n : Nat) (found : msgbufGet b.reg id = .ok (some n)) : Paired rely a b n := by
    rw [← same.reg.get] at found
    obtain ⟨live, alike⟩ := same.reg.live id n found
    exact ⟨live.inside, alike⟩
  cases call with
  | create name size sendBuf =>
    refine Both.returns (fun r => .id r.1 r.2) (same.create pages named name size sendBuf ?_)
    exact lasts.imp_right fun lasts buffer => lasts name size (by rw [buffer])
  | connect id name => exact Both.returns (fun r => .id r none) (same.connect id name)
  | disconnect sendId recvId => exact Both.returns .err (same.disconnect sendId recvId)
  | close id => exact Both.returns .err (same.close id)
  | send sendId recvId flags =>
    simp only [MsgCall.act, msgbufSend, same.reg.get]
    rcases foundN : msgbufGet b.reg sendId with halt | _ | n <;>
      rcases foundR : msgbufGet b.reg recvId with halt' | _ | r
    all_goals try rfl
    all_goals try exact same.returns _
    have conns : connGet (a.reg.buf n) recvId = connGet (b.reg.buf n) recvId := by
      rw [connGet, connGet, (pair sendId n foundN).2.conns]
    simp only [same.owns n (pair sendId n foundN).2, conns]
    split_ifs
    · exact same.returns _
    · exact same.goes _ fun m here => by rw [← Option.some.inj here]; exact pair recvId r foundR
    · exact same.returns _
  | recv id =>
    simp only [MsgCall.act, msgbufRecv, same.reg.get]
    rcases foundN : msgbufGet b.reg id with halt | _ | n
    · rfl
    · exact same.returns _
    simp only [same.owns n (pair id n foundN).2]
    split_ifs
    · exact same.goes _ fun m here => by rw [← Option.some.inj here]; exact pair id n foundN
    · exact same.returns _
  | reply id replyId =>
    simp only [MsgCall.act, msgbufReply, same.reg.get]
    rcases foundN : msgbufGet b.reg id with halt | _ | n <;>
      rcases foundR : msgbufGet b.reg replyId with halt' | _ | r
    all_goals try rfl
    all_goals try exact same.returns _
    simp only [same.owns n (pair id n foundN).2]
    split_ifs
    · exact same.goes _ fun m here => by rw [← Option.some.inj here]; exact pair replyId r foundR
    · exact same.returns _

-- A push or a pop, which goes through the receive queue from its position.
def MsgPc.usesRing : MsgPc → Prop
  | .push _ | .pop _ => True
  | _ => False

theorem SysMatch.ownerPid (n : Nat) (alike : Alike rely (a.reg.buf n) (b.reg.buf n)) :
    a.ownerPid n = b.ownerPid n := by
  rw [MsgSys.ownerPid, MsgSys.ownerPid, same.sys, alike.owner]

theorem SysMatch.sender (recv : MsgRecv) (sendId : Int) : a.sender recv sendId = b.sender recv sendId := by
  unfold MsgSys.sender
  rw [same.reg.get]
  rcases found : msgbufGet b.reg sendId with halt | _ | n
  · rfl
  · rfl
  · rw [← same.reg.get] at found
    simp only [(same.reg.live sendId n found).2.conns, connGet]

omit same in
theorem Paired.push (send : MsgSend) (pair : Paired rely a b send.receiver) (used : rely.ring) :
    (queuePush (a.reg.buf send.receiver) send.sendId).1 = (queuePush (b.reg.buf send.receiver) send.sendId).1 ∧
      Alike rely (queuePush (a.reg.buf send.receiver) send.sendId).2
        (queuePush (b.reg.buf send.receiver) send.sendId).2 := by
  have alike := pair.2
  have ring := alike.queue used
  rcases queuePush_cases (a.reg.buf send.receiver) send.sendId ring.posA with
      ⟨i, bufA, firstA, pushedA, queueA, arrayA, restA⟩ | ⟨fullA, pushedA⟩ <;>
    rcases queuePush_cases (b.reg.buf send.receiver) send.sendId ring.posB with
      ⟨j, bufB, firstB, pushedB, queueB, arrayB, restB⟩ | ⟨fullB, pushedB⟩ <;>
    rw [pushedA, pushedB]
  · rw [ring.queue, firstB] at firstA
    obtain rfl := Option.some.inj firstA
    refine ⟨rfl, ?_⟩
    rw [ring.queue, ← queueB] at queueA
    subst restA restB
    exact ⟨alike.name, alike.addr, alike.owner, alike.size, alike.conns,
      fun _ => ⟨ring.posA, ring.posB, queueA⟩⟩
  · have empty := of_decide_eq_true (Slots.first_some _ _ firstA)
    rw [ring.queue] at empty
    exact absurd empty (fullB i)
  · have empty := of_decide_eq_true (Slots.first_some _ _ firstB)
    rw [← ring.queue] at empty
    exact absurd empty (fullA j)
  · exact ⟨rfl, alike⟩

/-- The next steps of two tasks that are at the same place. -/
theorem SysMatch.go (pc : MsgPc) (held : ∀ n, pc.slot = some n → Paired rely a b n)
    (ring : pc.usesRing → rely.ring) :
    (pc.go a = none ∧ pc.go b = none) ∨
      ∃ r r', pc.go a = some r ∧ pc.go b = some r' ∧ Both (MoveMatch rely a b) r r' := by
  cases pc with
  | idle => exact .inl ⟨rfl, rfl⟩
  | push send =>
    have pair := held send.receiver rfl
    obtain ⟨pushed, alike⟩ := pair.push send (ring trivial)
    refine .inr ⟨_, _, rfl, rfl, ?_⟩
    have put := same.put send.receiver (fun _ => (queuePush (a.reg.buf send.receiver) send.sendId).2)
      (fun _ => (queuePush (b.reg.buf send.receiver) send.sendId).2) alike
    rw [pushed]
    refine ⟨put, rfl, rfl, rfl, fun n here => put.kept n (held n ?_)⟩
    rw [← here]
    show _ = MsgPc.slot (if _ then _ else _)
    split_ifs <;> rfl
  | wake send =>
    have pid := same.ownerPid send.receiver (held send.receiver rfl).2
    simp only [MsgPc.go, pid]
    split_ifs
    · exact .inr ⟨_, _, rfl, rfl, .refl same, rfl, rfl, rfl, fun _ none => by cases none⟩
    · exact .inr ⟨_, _, rfl, rfl, .refl same, rfl, rfl, rfl, held⟩
  | pop recv =>
    have pair := held recv.receiver rfl
    have alike := pair.2
    have queue := alike.queue (ring trivial)
    simp only [MsgPc.go]
    rcases queuePop_cases (a.reg.buf recv.receiver) queue.posA with
        ⟨emptyA, doneA⟩ | ⟨someA, bufA, doneA, queueA, insideA, arrayA, posA, restA⟩ <;>
      rcases queuePop_cases (b.reg.buf recv.receiver) queue.posB with
        ⟨emptyB, doneB⟩ | ⟨someB, bufB, doneB, queueB, insideB, arrayB, posB, restB⟩ <;>
      simp only [doneA, doneB]
    · have put := same.put recv.receiver (fun _ => a.reg.buf recv.receiver)
        (fun _ => b.reg.buf recv.receiver) alike
      exact .inr ⟨_, _, rfl, rfl, put, rfl, rfl, rfl, fun n here => put.kept n (held n here)⟩
    · rw [queue.queue] at emptyA
      exact absurd emptyA someB
    · rw [← queue.queue] at emptyB
      exact absurd emptyB someA
    · rw [queue.queue] at queueA
      have popped : Alike rely bufA bufB := by
        refine ⟨?_, ?_, ?_, ?_, ?_, fun _ => ⟨insideA, insideB, queueA.trans queueB.symm⟩⟩ <;>
          rw [restA, restB]
        · exact alike.name
        · exact alike.addr
        · exact alike.owner
        · exact alike.size
        · exact alike.conns
      have put := same.put recv.receiver (fun _ => bufA) (fun _ => bufB) popped
      rw [queue.queue]
      refine .inr ⟨_, _, rfl, rfl, put, rfl, rfl, rfl, fun n here => put.kept n (held n ?_)⟩
      rw [← here]
      show _ = MsgPc.slot (if _ then _ else _)
      split_ifs <;> rfl
  | look recv sendId =>
    simp only [MsgPc.go, same.sender]
    rcases b.sender recv sendId with halt | _ | addr
    · exact .inr ⟨_, _, rfl, rfl, rfl⟩
    · exact .inr ⟨_, _, rfl, rfl, same.goes _ held⟩
    · exact .inr ⟨_, _, rfl, rfl, same.returns _⟩
  | answer id replyId receiver =>
    have pid := same.ownerPid receiver (held receiver rfl).2
    simp only [MsgPc.go, pid]
    exact .inr ⟨_, _, rfl, rfl, .refl same, rfl, rfl, rfl, fun _ none => by cases none⟩
  | block wait => exact .inr ⟨_, _, rfl, rfl, .refl same, rfl, rfl, rfl, held⟩
  | blocked wait =>
    cases wait with
    | space send => exact .inr ⟨_, _, rfl, rfl, same.goes _ held⟩
    | reply send => exact .inr ⟨_, _, rfl, rfl, same.returns _⟩
    | message recv => exact .inr ⟨_, _, rfl, rfl, same.goes _ held⟩

end Move

/-- Two systems, each on its own node pages, with the tasks at the same places. -/
structure TasksMatch (rely : Rely) (w w' : MsgTasks) : Prop where
  msg : SysMatch rely w.msg w'.msg
  pc : w.pc = w'.pc
  named : w.msg.reg.Named
  held : ∀ t n, (w.pc t).slot = some n → Paired rely w.msg w'.msg n

/-- A step that does not come to the contents of the pages: a msgbuf_create whose buffer can be
allocated, unless the addresses and sizes in the pages agree, and no push or pop, unless the positions
are inside the queues. -/
def MsgTasks.Clear (rely : Rely) (w : MsgTasks) (t : Word) : MsgAction → Prop
  | .call call => rely.rest ∨ ∀ name size, call = .create name size true → BufferLasts (w.msg.as t) size
  | .go => (w.pc t).usesRing → rely.ring

section Tasks

variable {rely : Rely} {stale stale' : Stale} {w w' : MsgTasks} (same : TasksMatch rely w w')

include same

theorem TasksMatch.after (t : Word) {m m' : MsgMove} (move : MoveMatch rely (w.msg.as t) (w'.msg.as t) m m')
    (named : m.sys.reg.Named) : TasksMatch rely (w.after t m) (w'.after t m') where
  msg := move.follows.now
  pc := by
    show Function.update w.pc t m.pc = Function.update w'.pc t m'.pc
    rw [same.pc, move.pc]
  named := named
  held other n here := by
    change (Function.update w.pc t m.pc other).slot = some n at here
    rw [Function.update_apply] at here
    split_ifs at here
    · exact move.held n here
    · exact move.follows.kept n (same.held other n here)

/-- One step of the same task in both systems. -/
theorem TasksMatch.step (pages : StaleMatch rely stale stale') (t : Word) (action : MsgAction)
    (clear : w.Clear rely t action) :
    (w.step stale t action = none ∧ w'.step stale' t action = none) ∨
      ∃ r r', w.step stale t action = some r ∧ w'.step stale' t action = some r' ∧
        Both (fun m m' => m.ret = m'.ret ∧ TasksMatch rely (w.after t m) (w'.after t m')) r r' := by
  have msg : SysMatch rely (w.msg.as t) (w'.msg.as t) := ⟨by simp only [MsgSys.as, same.msg.sys], same.msg.reg⟩
  have lift {r r' : Except Halt MsgMove} (both : Both (MoveMatch rely (w.msg.as t) (w'.msg.as t)) r r')
      (named : ∀ m, r = .ok m → m.sys.reg.Named) :
      Both (fun m m' => m.ret = m'.ret ∧ TasksMatch rely (w.after t m) (w'.after t m')) r r' := by
    rcases both.cases with ⟨halt, rfl, rfl⟩ | ⟨m, m', rfl, rfl, move⟩
    · rfl
    · exact ⟨move.ret, same.after t move (named m rfl)⟩
  cases action with
  | call call =>
    unfold MsgTasks.step
    rw [← same.pc]
    split_ifs
    · refine .inr ⟨_, _, rfl, rfl, lift (msg.act pages same.named call clear) fun m done => ?_⟩
      exact act_named (s := w.msg.as t) pages.clean.1 same.named done
    · exact .inl ⟨rfl, rfl⟩
  | go =>
    rcases msg.go (w.pc t) (same.held t) clear with ⟨stuck, stuck'⟩ | ⟨r, r', done, done', both⟩
    · rw [same.pc] at stuck'
      exact .inl ⟨stuck, stuck'⟩
    · rw [same.pc] at done'
      refine .inr ⟨r, r', done, done', lift both fun m result => ?_⟩
      rw [result] at done
      exact (go_step done).queuesOnly.named same.named

end Tasks

/-- What a step shows. -/
inductive Outcome where
  | refused
  | halted (halt : Halt)
  | did (ret : Option MsgRet)
deriving DecidableEq, Repr

-- What the steps show, one after the other, up to a halt.
def MsgTasks.outcomes (stale : Stale) (w : MsgTasks) : List (Word × MsgAction) → List Outcome
  | [] => []
  | a :: steps =>
    match w.step stale a.1 a.2 with
    | none => .refused :: w.outcomes stale steps
    | some (.error halt) => [.halted halt]
    | some (.ok move) => .did move.ret :: (w.after a.1 move).outcomes stale steps

/-- `holds` of every step, in the state in which it is taken. -/
def MsgTasks.Along (stale : Stale) (holds : MsgTasks → Word → MsgAction → Prop) (w : MsgTasks) :
    List (Word × MsgAction) → Prop
  | [] => True
  | a :: steps => holds w a.1 a.2 ∧
    match w.step stale a.1 a.2 with
    | none => w.Along stale holds steps
    | some (.error _) => True
    | some (.ok move) => (w.after a.1 move).Along stale holds steps

theorem MsgTasks.along_all (stale : Stale) (holds : MsgTasks → Word → MsgAction → Prop) (w : MsgTasks)
    (steps : List (Word × MsgAction)) (all : ∀ w, ∀ a ∈ steps, holds w a.1 a.2) : w.Along stale holds steps := by
  induction steps generalizing w with
  | nil => trivial
  | cons a steps ih =>
    have rest (w : MsgTasks) : w.Along stale holds steps :=
      ih w fun w a member => all w a (List.mem_cons_of_mem _ member)
    refine ⟨all w a List.mem_cons_self, ?_⟩
    split
    · exact rest w
    · trivial
    · exact rest _

-- No search that gets to the end of the list follows a pointer from there.
def MsgTasks.Ends (w : MsgTasks) (_ : Word) (_ : MsgAction) : Prop := w.msg.reg.next = 0

def MsgTasks.SparesRing (w : MsgTasks) (t : Word) : MsgAction → Prop
  | .call _ => True
  | .go => ¬ (w.pc t).usesRing

-- All that the claim compares in two runs.
structure SameRuns (rely : Rely) (stale stale' : Stale) (w w' : MsgTasks) (steps : List (Word × MsgAction)) :
    Prop where
  shown : w.outcomes stale steps = w'.outcomes stale' steps
  ends : w.Along stale MsgTasks.Ends steps ∧ w'.Along stale' MsgTasks.Ends steps
  ring : ¬ rely.ring → w.Along stale MsgTasks.SparesRing steps ∧ w'.Along stale' MsgTasks.SparesRing steps

theorem TasksMatch.run {rely : Rely} {stale stale' : Stale} (pages : StaleMatch rely stale stale')
    (steps : List (Word × MsgAction)) {w w' : MsgTasks} (same : TasksMatch rely w w')
    (clear : w.Along stale (MsgTasks.Clear rely) steps) : SameRuns rely stale stale' w w' steps := by
  induction steps generalizing w w' with
  | nil => exact ⟨rfl, ⟨trivial, trivial⟩, fun _ => ⟨trivial, trivial⟩⟩
  | cons a steps ih =>
    obtain ⟨now, later⟩ := clear
    have ends : w.Ends a.1 a.2 ∧ w'.Ends a.1 a.2 := ⟨same.msg.reg.lastA, same.msg.reg.lastB⟩
    have spares (unused : ¬ rely.ring) : w.SparesRing a.1 a.2 ∧ w'.SparesRing a.1 a.2 := by
      rcases a with ⟨t, _ | _⟩
      · exact ⟨trivial, trivial⟩
      · have idle : ¬ (w.pc t).usesRing := fun uses => unused (now uses)
        refine ⟨idle, ?_⟩
        rw [same.pc] at idle
        exact idle
    have first {later later' : Prop} (rest : ¬ rely.ring → later ∧ later') (unused : ¬ rely.ring) :=
      And.intro (And.intro (spares unused).1 (rest unused).1) (And.intro (spares unused).2 (rest unused).2)
    rcases same.step pages a.1 a.2 now with ⟨stuck, stuck'⟩ | ⟨r, r', done, done', both⟩
    · simp only [stuck] at later
      have rest := ih same later
      constructor
      · simp only [MsgTasks.outcomes, stuck, stuck', rest.shown]
      · simp only [MsgTasks.Along, stuck, stuck']
        exact ⟨⟨ends.1, rest.ends.1⟩, ends.2, rest.ends.2⟩
      · simp only [MsgTasks.Along, stuck, stuck']
        exact first rest.ring
    · rcases both.cases with ⟨halt, rfl, rfl⟩ | ⟨m, m', rfl, rfl, ret, after⟩
      · constructor
        · simp only [MsgTasks.outcomes, done, done']
        · simp only [MsgTasks.Along, done, done']
          exact ⟨⟨ends.1, trivial⟩, ends.2, trivial⟩
        · simp only [MsgTasks.Along, done, done']
          exact first fun _ => ⟨trivial, trivial⟩
      · simp only [done] at later
        have rest := ih after later
        constructor
        · simp only [MsgTasks.outcomes, done, done', ret, rest.shown]
        · simp only [MsgTasks.Along, done, done']
          exact ⟨⟨ends.1, rest.ends.1⟩, ends.2, rest.ends.2⟩
        · simp only [MsgTasks.Along, done, done']
          exact first rest.ring

theorem TasksMatch.fresh (rely : Rely) (sys : Sys) : TasksMatch rely (.fresh sys) (.fresh sys) where
  msg := by
    have first : (0 : Word).toNat < queueSize := by decide
    exact ⟨rfl, rfl, rfl, rfl, fun n => .inr ⟨rfl, rfl, fun _ => ⟨first, first⟩, fun _ => ⟨rfl, rfl⟩⟩⟩
  pc := rfl
  named := ⟨rfl, fun _ => Nat.zero_le _, fun _ _ live => absurd rfl live⟩
  held t n here := by cases here

/-- On node pages that read as nameless message buffers and end the list, and in steps that do not come
to the other contents, all that is returned is the same, and no pointer is followed that a page held. No
push or pop takes its position from a page if the positions in the pages do not matter. -/
theorem msgbuf_ignores_stale (rely : Rely) (stale stale' : Stale) (pages : StaleMatch rely stale stale')
    (sys : Sys) (steps : List (Word × MsgAction))
    (clear : (MsgTasks.fresh sys).Along stale (MsgTasks.Clear rely) steps) :
    SameRuns rely stale stale' (.fresh sys) (.fresh sys) steps :=
  (TasksMatch.fresh rely sys).run pages steps clear

-- The first message buffer of the first page reads as one with a name.
def namedPage : Stale := fun n => ⟨0, fun i => { Msgbuf.blank with name := if n = 0 ∧ i = 0 then letter 0 else [] }⟩

theorem staleName_takes_id :
    ¬ ∀ (stale stale' : Stale) (sys : Sys) (steps : List (Word × MsgAction)),
      SameRuns ⟨True, False⟩ stale stale' (.fresh sys) (.fresh sys) steps := by
  intro claim
  have same := (claim zeroPages namedPage (oneTask [] [20, 21, 22])
    [(poolVa 10, .call (.create (letter 1) 0 false))]).shown
  have first : (MsgTasks.fresh (oneTask [] [20, 21, 22])).outcomes zeroPages
      [(poolVa 10, .call (.create (letter 1) 0 false))] = [.did (some (.id ⟨0, .ok⟩ none))] := by
    decide +kernel
  have second : (MsgTasks.fresh (oneTask [] [20, 21, 22])).outcomes namedPage
      [(poolVa 10, .call (.create (letter 1) 0 false))] = [.did (some (.id ⟨1, .ok⟩ none))] := by
    decide +kernel
  rw [first, second] at same
  cases same

-- Pages of old pointers and positions, without a name.
def usedPages : Stale := fun _ =>
  ⟨0, fun _ => { Msgbuf.blank with addr := 0x5000, owner := 0x7000, recvQueuePos := 9 }⟩

-- A create and a close show the same on used pages as on zeroed ones.
theorem msgbuf_ignores_stale_created : SameRuns ⟨False, False⟩ zeroPages usedPages
    (.fresh (oneTask [] [20, 21, 22])) (.fresh (oneTask [] [20, 21, 22]))
    [(poolVa 10, .call (.create (letter 1) 0 false)), (poolVa 10, .call (.close 0))] := by
  refine msgbuf_ignores_stale ⟨False, False⟩ zeroPages usedPages ⟨fun n i => ?_, fun n far => ⟨rfl, rfl⟩⟩
    (oneTask [] [20, 21, 22]) _ (MsgTasks.along_all _ _ _ _ fun w a member => ?_)
  · exact ⟨rfl, rfl, fun used => used.elim, fun used => used.elim⟩
  · rcases List.mem_cons.mp member with rfl | last
    · exact .inr fun name size created => by cases created
    · rw [List.mem_singleton.mp last]
      exact .inr fun name size created => by cases created

end Anthill
