import Anthill.FileSessions
import Anthill.MessageWire
import Anthill.MqueueFifo
import Mathlib.Data.List.Forall2

set_option autoImplicit false

namespace Anthill

open Bytes (Store)
open VfsServer
open FileSessions (System)

namespace RingSessions

/-- The server with its buffer, the processes, and the queues of the kernel between them. -/
structure Rings where
  server : VfsServer Vfs
  buf : Option (List Byte)
  inbox : Mqueue
  outbox : Nat → Mqueue
  process : Nat → Rpc.Phase Message Message Session

-- What mq_send and mq_receive do to a queue when they do not wait.
def send (queue : Mqueue) (bytes : List Byte) : Except MqFault Enqueued :=
  enqueue queue (fun a => bytes.getD a 0) (BitVec.ofNat 64 bytes.length)

def receive (queue : Mqueue) : Except MqFault Dequeued := dequeue queue (BitVec.ofNat 64 vfsMaxMsgLen)

/-- The bytes that are sent as an answer. What vnode_forward has left in the buffer is sent as it is. -/
def Sent (r : Request) (reply : Message) (mq : Int) (bytes : List Byte) : Prop :=
  reply.Sends mq bytes ∨ (∃ v, r.forward v r.msg = some (some (reply, mq))) ∧ reply.Passes mq bytes

inductive Answers (r : Request) (outbox : Nat → Mqueue) : Answer → (Nat → Mqueue) → Prop where
  | none : Answers r outbox none outbox
  | some {reply : Message} {mq : Int} {bytes : List Byte} {woken : List Int} {queue : Mqueue} (sent : Sent r reply mq bytes)
      (done : send (outbox mq.toNat) bytes = .ok ⟨true, woken, queue⟩) :
      Answers r outbox (some (reply, mq)) (Function.update outbox mq.toNat queue)

/-- The processes put their messages into the server's queue as bytes, and the server parses them from its buffer. -/
inductive Step (p : Placement) (name : Nat → VfsProcess) : Rings → Rpc.QueueAct Nat → Rings → Prop where
  | begin {k : Rings} {i : Nat} {a : Session} {t : FileTalk Session} (idle : k.process i = .runs (.done a))
      (new : FileBegins name i a t) : Step p name k (.begin i) { k with process := Function.update k.process i (.runs t) }
  | send {k : Rings} {i : Nat} {msg : Message} {next : Message → FileTalk Session} {bytes : List Byte} {woken : List Int}
      {inbox : Mqueue} (asks : k.process i = .runs (.ask msg next)) (put : msg.Sends i bytes)
      (done : send k.inbox bytes = .ok ⟨true, woken, inbox⟩) :
      Step p name k (.send i) { k with inbox := inbox, process := Function.update k.process i (.waits next) }
  | full {k : Rings} {i : Nat} {msg : Message} {next : Message → FileTalk Session} {bytes : List Byte} {woken : List Int}
      {inbox : Mqueue} (asks : k.process i = .runs (.ask msg next)) (put : msg.Sends i bytes)
      (done : send k.inbox bytes = .ok ⟨false, woken, inbox⟩) : Step p name k (.send i) { k with inbox := inbox }
  | take {k : Rings} {result : Int} {bytes : List Byte} {inbox : Mqueue} (free : k.buf = none)
      (done : receive k.inbox = .ok ⟨result, bytes, inbox⟩) (some_ : 0 < result) :
      Step p name k .take { k with buf := some bytes, inbox := inbox }
  | reply {k : Rings} {bytes : List Byte} {r : Request} {answer : Answer} {server : VfsServer Vfs} {outbox : Nat → Mqueue}
      (taken : k.buf = some bytes) (parsed : r.msg.Parsed r.mqId bytes) (offers : Offers k.server r.mqId.toNat r)
      (handled : handleMessage libvfs p r k.server = some (answer, server)) (answers : Answers r k.outbox answer outbox) :
      Step p name k .reply { k with server := server, buf := none, outbox := outbox }
  | drop {k : Rings} {bytes : List Byte} {m : Store} {out : VfsMsg} {buf : Nat} (taken : k.buf = some bytes)
      (is : m.bytes buf bytes.length = bytes) (refused : (vfsMsgParse m out buf).result = 0) :
      Step p name k .reply { k with buf := none }
  | receive {k : Rings} {i : Nat} {next : Message → FileTalk Session} {result mq : Int} {bytes : List Byte} {queue : Mqueue}
      {got : Message} (waits : k.process i = .waits next) (done : receive (k.outbox i) = .ok ⟨result, bytes, queue⟩)
      (some_ : 0 < result) (parsed : got.Parsed mq bytes) :
      Step p name k (.receive i)
        { k with
          outbox := Function.update k.outbox i queue
          process := Function.update k.process i (.runs (next got.canonical)) }

-- Where the processes begin.
def start (_ : Nat) : Rpc.Phase Message Message Session := .runs (.done started)

/-- A queue as mqueue_open leaves it where no attributes are given. -/
structure Fresh (queue : Mqueue) : Prop where
  cursors : queue.head = -1 ∧ queue.tail = -1
  curmsg : queue.attr.mqCurmsg = 0
  maxmsg : queue.attr.mqMaxmsg = mqMaxMsg

/-- The states that are reached from fresh queues. Of the queue that a message names, the server parses one character. -/
def Reaches (p : Placement) (name : Nat → VfsProcess) (tree : VnodeTree) (k : Rings) : Prop :=
  ∃ inbox outbox, Fresh inbox ∧ (∀ i, Fresh (outbox i)) ∧
    Run (Step p name) (fun _ act => ∀ i, act = .send i → i < 256)
      ⟨(VfsServer.booted tree).1, none, inbox, outbox, start⟩ k

section Lies

variable {α : Type}

/-- A queue holds bytes that stand for the messages, in their order. -/
def Lies (stands : List Byte → α → Prop) (queue : Mqueue) (messages : List α) : Prop := ∃ contents : List (List Byte),
  queue.Holds mqMaxMsg (contents.map fun bytes => (bytes.length, bytes)) ∧ List.Forall₂ stands contents messages

variable {stands : List Byte → α → Prop} {queue : Mqueue} {messages : List α} {bytes : List Byte} {x : α}

theorem Fresh.lies (fresh : Fresh queue) : Lies stands queue [] := by
  obtain ⟨⟨head, tail⟩, curmsg, maxmsg⟩ := fresh
  refine ⟨[], ⟨?_, maxmsg, ?_, fun _ member => absurd member List.not_mem_nil⟩, .nil⟩
  · have limit : (mqMaxMsg : Int) = 8 := rfl
    refine ⟨?_, ?_, ⟨?_, ?_⟩, ⟨?_, ?_⟩, ⟨?_, ?_⟩, .inl ?_⟩ <;> omega
  · refine List.length_eq_zero_iff.mp ?_
    rw [queue.pending_length, curmsg]
    rfl

theorem sentMessage_bytes (short : bytes.length ≤ mqMaxMsgSize) :
    sentMessage (fun a => bytes.getD a 0) (BitVec.ofNat 64 bytes.length) = (bytes.length, bytes) := by
  have length : (BitVec.ofNat 64 bytes.length).toNat = bytes.length := by
    rw [BitVec.toNat_ofNat, Nat.mod_eq_of_lt (Nat.lt_of_le_of_lt short (by decide))]
  rw [sentMessage, length]
  refine congrArg (Prod.mk _) (List.ext_getElem (by simp) fun a low high => ?_)
  simp [high]

/-- What is sent comes behind what lies there, or waits. -/
theorem Lies.send (lies : Lies stands queue messages) (short : bytes.length ≤ mqMaxMsgSize) (is : stands bytes x) :
    (messages.length = mqMaxMsg ∧ send queue bytes = .ok ⟨false, [], queue.wrapTail⟩ ∧ Lies stands queue.wrapTail messages) ∨
    messages.length < mqMaxMsg ∧ ∃ woken queue', RingSessions.send queue bytes = .ok ⟨true, woken, queue'⟩ ∧
      Lies stands queue' (messages ++ [x]) := by
  obtain ⟨contents, holds, all⟩ := lies
  have length : (contents.map fun bytes => (bytes.length, bytes)).length = messages.length := by
    rw [List.length_map, all.length_eq]
  have sent := sentMessage_bytes short
  have fits : (BitVec.ofNat 64 bytes.length).toNat ≤ mqMaxMsgSize := (congrArg Prod.fst sent).trans_le short
  rcases holds.enqueue (fun a => bytes.getD a 0) _ fits with ⟨full, done⟩ | ⟨room, woken, queue', done, pushed⟩
  · exact .inl ⟨length.symm.trans full, done, contents, holds.wrapTail, all⟩
  · refine .inr ⟨length.symm.trans_lt room, woken, queue', done, contents ++ [bytes], ?_, List.rel_append all (.cons is .nil)⟩
    rw [sent] at pushed
    rwa [List.map_append]

/-- What is received is what lies there first. -/
theorem Lies.receive (lies : Lies stands queue messages) {result : Int} {queue' : Mqueue}
    (done : receive queue = .ok ⟨result, bytes, queue'⟩) (some_ : 0 < result) :
    ∃ x rest, messages = x :: rest ∧ stands bytes x ∧ Lies stands queue' rest := by
  obtain ⟨contents, holds, all⟩ := lies
  rcases holds.dequeue (BitVec.ofNat 64 vfsMaxMsgLen) with
    ⟨-, empty⟩ | ⟨message, rest, is, ⟨long, -⟩ | ⟨short, queue'', popped, holds'⟩⟩
  · cases done.symm.trans empty
    exact absurd some_ (lt_irrefl 0)
  · exact absurd (holds.sizes message (is ▸ List.mem_cons_self ..)) (Nat.not_le.mpr long)
  · cases all with
    | nil => cases is
    | @cons bytes' x contents' rest' stands' all' =>
      obtain ⟨rfl, rfl⟩ := List.cons.inj is
      cases done.symm.trans popped
      exact ⟨x, rest', rfl, stands', contents', holds', all'⟩

end Lies

/-- Bytes of a message and the queue of the process that asks. -/
def Asks (bytes : List Byte) (request : Nat × Message) : Prop := ∃ id : Byte, id.toNat = request.1 ∧ request.2.Wire id bytes

/-- Bytes of a reply, as the process reads it. -/
def Tells (bytes : List Byte) (reply : Message) : Prop := ∃ (id : Byte) (sent : Message), sent.Wire id bytes ∧ reply = sent.canonical

/-- What the server and the queues hold as bytes stands for messages. -/
structure Carried (k : Rings) (q : System) : Prop where
  server : q.server.1 = k.server
  process : q.process = k.process
  buf : Option.Rel Asks k.buf q.taken
  inbox : Lies Asks k.inbox q.inbox
  outbox : ∀ i, Lies Tells (k.outbox i) (q.outbox i)

section Carried

variable {p : Placement} {name : Nat → VfsProcess} {tree : VnodeTree} {k k' : Rings} {q : System} {bytes : List Byte}

theorem Sent.tells {r : Request} {reply : Message} {mq : Int} (sent : Sent r reply mq bytes) :
    bytes.length ≤ mqMaxMsgSize ∧ Tells bytes reply.canonical := by
  rcases sent with put | ⟨-, passes⟩
  · exact ⟨put.wire.short, _, reply, put.wire, rfl⟩
  · obtain ⟨id, -, wire⟩ := passes.wire
    exact ⟨wire.short, id, reply, wire, rfl⟩

theorem asks_of_sends {msg : Message} {i : Nat} (put : msg.Sends i bytes) (few : i < 256) : Asks bytes (i, msg) := by
  refine ⟨_, ?_, put.wire⟩
  rw [BitVec.toNat_setWidth, BitVec.toNat_ofInt]
  omega

/-- The server parses what was sent, and takes it to be from the process that sent it. -/
theorem Carried.taken (carried : Carried k q) (taken : k.buf = some bytes) :
    ∃ i msg, q.taken = some (i, msg) ∧ (∀ (r : Request), r.msg.Parsed r.mqId bytes → r.msg.Same msg ∧ r.mqId = i) ∧
      ∀ (m : Store) (out : VfsMsg) (buf : Nat), m.bytes buf bytes.length = bytes → (vfsMsgParse m out buf).result ≠ 0 := by
  have asks := carried.buf
  rw [taken] at asks
  cases there : q.taken with
  | none =>
    rw [there] at asks
    cases asks
  | some request =>
    obtain ⟨i, msg⟩ := request
    rw [there] at asks
    cases asks with
    | some asks =>
      obtain ⟨id, named, wire⟩ := asks
      refine ⟨i, msg, rfl, fun r parsed => ?_, fun m out buf is refused => ?_⟩
      · obtain ⟨same, mq⟩ := wire.of_parsed parsed
        exact ⟨same, mq.trans (congrArg Nat.cast named)⟩
      · exact absurd ((wire.parse m out buf is).1.symm.trans refused) wire.positive.ne'

/-- The server answers as it does where it has the message itself, and to the process that asked. -/
theorem Carried.handled (carried : Carried k q) (reaches : FileSessions.Reaches p name tree q) (taken : k.buf = some bytes)
    {r : Request} (parsed : r.msg.Parsed r.mqId bytes) (offers : Offers k.server r.mqId.toNat r) {answer : Answer}
    {server : VfsServer Vfs} (handled : handleMessage libvfs p r k.server = some (answer, server)) :
    ∃ i msg table, q.taken = some (i, msg) ∧
      vfsServe p i msg q.server (answer.map fun sent => sent.1.canonical) (server, table) ∧
      ∀ reply mq, answer = some (reply, mq) → mq = i := by
  obtain ⟨i, msg, there, all, -⟩ := carried.taken taken
  obtain ⟨same, own⟩ := all r parsed
  rw [own, Int.toNat_natCast, ← carried.server] at offers
  rw [← carried.server] at handled
  obtain ⟨served, back⟩ := FileSessions.Reaches.served reaches there same offers
  rw [handled, Option.map_some] at served
  obtain ⟨⟨answer', s'⟩, handled', is⟩ := Option.map_eq_some_iff.mp served.symm
  refine ⟨i, msg, s', there, ⟨r, answer, answer', same, offers, handled, handled', ?_⟩, ?_⟩
  · cases answer with
    | none => exact .none
    | some sent => exact .some sent.1.canonical_same
  · rintro reply mq rfl
    exact back reply mq server handled

/-- What is sent as an answer never finds the queue of the process full. -/
theorem Carried.answers (carried : Carried k q) (reaches : FileSessions.Reaches p name tree q) {i : Nat} {msg : Message}
    (there : q.taken = some (i, msg)) {r : Request} {reply : Message} {mq : Int} (sent : Sent r reply mq bytes) :
    (∃ next, k.process i = .waits next) ∧ ∃ woken queue, send (k.outbox i) bytes = .ok ⟨true, woken, queue⟩ ∧
      Lies Tells queue (q.outbox i ++ [reply.canonical]) := by
  obtain ⟨c, linear, -⟩ := reaches.sound
  have first : q.sent i = msg :: Rpc.sentBy i q.inbox := by
    rw [Rpc.Queued.sent, Rpc.Queued.requests, there, Option.toList_some, Rpc.sentBy_append, Rpc.sentBy_self]
    rfl
  obtain ⟨-, empty, next, waits, -⟩ := (linear.places i).of_sent first
  obtain ⟨short, tells⟩ := sent.tells
  refine ⟨⟨next, carried.process ▸ waits⟩, ?_⟩
  rcases (carried.outbox i).send short tells with ⟨full, -⟩ | ⟨-, done⟩
  · rw [empty] at full
    cases full
  · exact done

/-- A step between the rings is one between the queues of messages, or changes none of them. -/
theorem Carried.step {act : Rpc.QueueAct Nat} (carried : Carried k q) (reaches : FileSessions.Reaches p name tree q)
    (few : ∀ i, act = .send i → i < 256) (step : Step p name k act k') :
    ∃ q', (q' = q ∨ FileSessions.Step p name q act q') ∧ Carried k' q' := by
  have processes := carried.process
  cases step with
  | @begin i a t idle new =>
    refine ⟨_, .inr (.begin (processes ▸ idle) new), carried.server, ?_, carried.buf, carried.inbox, carried.outbox⟩
    simp only [processes]
  | @send i msg next bytes woken inbox asks put done =>
    rcases carried.inbox.send put.wire.short (asks_of_sends put (few i rfl)) with
      ⟨-, full, -⟩ | ⟨room, woken', inbox', pushed, lies⟩
    · cases done.symm.trans full
    · cases done.symm.trans pushed
      refine ⟨_, .inr (.send (processes ▸ asks) room), carried.server, ?_, carried.buf, lies, carried.outbox⟩
      simp only [processes]
  | @full i msg next bytes woken inbox asks put done =>
    rcases carried.inbox.send put.wire.short (asks_of_sends put (few i rfl)) with
      ⟨-, full, lies⟩ | ⟨-, woken', inbox', pushed, -⟩
    · cases done.symm.trans full
      exact ⟨q, .inl rfl, carried.server, processes, carried.buf, lies, carried.outbox⟩
    · cases done.symm.trans pushed
  | @take result bytes inbox free done some_ =>
    obtain ⟨first, rest, there, asks, lies⟩ := carried.inbox.receive done some_
    have empty : q.taken = none := by
      have buf := carried.buf
      rw [free] at buf
      cases taken : q.taken with
      | none => rfl
      | some _ =>
        rw [taken] at buf
        cases buf
    exact ⟨_, .inr (.take empty there), carried.server, processes, .some asks, lies, carried.outbox⟩
  | @reply bytes r answer server outbox taken parsed offers handled answers =>
    obtain ⟨i, msg, table, there, served, own⟩ := carried.handled reaches taken parsed offers handled
    refine ⟨_, .inr (.reply there served), rfl, processes, .none, carried.inbox, fun j => ?_⟩
    cases answers with
    | none =>
      simp only [Option.map_none, Option.toList_none, List.append_nil, Function.update_eq_self]
      exact carried.outbox j
    | @some reply mq bytes' woken queue sent done =>
      obtain rfl := own reply mq rfl
      rw [Int.toNat_natCast] at done ⊢
      obtain ⟨-, woken', queue', pushed, lies⟩ := carried.answers reaches there sent
      cases done.symm.trans pushed
      by_cases same : j = i
      · subst same
        simp only [Function.update_self]
        exact lies
      · simp only [Function.update_of_ne same]
        exact carried.outbox j
  | @drop bytes m out buf taken is refused =>
    obtain ⟨-, -, -, -, parses⟩ := carried.taken taken
    exact absurd refused (parses m out buf is)
  | @receive i next result mq bytes queue got waits done some_ parsed =>
    obtain ⟨reply, rest, there, ⟨id, sent, wire, rfl⟩, lies⟩ := (carried.outbox i).receive done some_
    have same := (wire.of_parsed parsed).1.canonical
    refine ⟨_, .inr (.receive (processes ▸ waits) there), carried.server, ?_, carried.buf, carried.inbox, fun j => ?_⟩
    · simp only [processes, same]
    · by_cases own : j = i
      · subst own
        simp only [Function.update_self]
        exact lies
      · simp only [Function.update_of_ne own]
        exact carried.outbox j

theorem Reaches.carried (reaches : Reaches p name tree k) : ∃ q, FileSessions.Reaches p name tree q ∧ Carried k q := by
  obtain ⟨inbox, outbox, freshIn, freshOut, run⟩ := reaches
  refine run.invariant (fun k => ∃ q, FileSessions.Reaches p name tree q ∧ Carried k q) ⟨_, .start, ?_⟩ ?_
  · exact ⟨rfl, rfl, .none, freshIn.lies, fun i => (freshOut i).lies⟩
  · rintro k act k' ⟨q, before, carried⟩ few step
    obtain ⟨q', is | step', carried'⟩ := carried.step before few step
    · exact ⟨q, before, is ▸ carried'⟩
    · exact ⟨q', .next _ _ _ before trivial step', carried'⟩

/-- Over the rings of bytes the processes and the server do what they do over queues of messages: no message is lost, and
none is read as another. -/
theorem rings_refine (reaches : Reaches p name tree k) : ∃ q, FileSessions.Reaches p name tree q ∧ Carried k q :=
  reaches.carried

/-- The server drops nothing that it has received, and when it has an answer it does not wait: the answer goes to a
process that waits for it and whose queue has room. -/
theorem server_unblocked (reaches : Reaches p name tree k) (taken : k.buf = some bytes) :
    (∀ (m : Store) (out : VfsMsg) (buf : Nat), m.bytes buf bytes.length = bytes → (vfsMsgParse m out buf).result ≠ 0) ∧
      ∀ (r : Request) reply mq server bytes', r.msg.Parsed r.mqId bytes → Offers k.server r.mqId.toNat r →
        handleMessage libvfs p r k.server = some (some (reply, mq), server) → Sent r reply mq bytes' →
        (∃ next, k.process mq.toNat = .waits next) ∧
          ∃ woken queue, send (k.outbox mq.toNat) bytes' = .ok ⟨true, woken, queue⟩ := by
  obtain ⟨q, before, carried⟩ := reaches.carried
  obtain ⟨-, -, -, -, parses⟩ := carried.taken taken
  refine ⟨parses, fun r reply mq server bytes' parsed offers handled sent => ?_⟩
  obtain ⟨i, msg, table, there, -, own⟩ := carried.handled before taken parsed offers handled
  obtain rfl := own reply mq rfl
  obtain ⟨waits, woken, queue, done, -⟩ := carried.answers before there sent
  exact ⟨waits, woken, queue, done⟩

end Carried

-- The process 5 asks for the length of a file that it has not opened, and the server has no client for it.

def statFcall : Fcall := { (default : Fcall) with type := FcallType.tstat.code }

def statAsked : Message := (noFiles.message .tstat).set .fid 0

def statBytes : List Byte := [11, 0, 0, 0, 118, 0, 0, 0, 0, 0, 0, 5, 0, 0, 0]

def statRead : Message := ⟨.tstat, 0, statFcall.value fun a => statBytes.getD a 0⟩

-- The pointers of a structure, where nothing is but the text of an Rerror.
def errorFcall : Fcall := { (default : Fcall) with type := FcallType.rerror.code, ename := 2000 }

def errorMemory : Store := Store.write (fun _ => 0) 2000 (pstringWire enoclient)

def errorReply : Message := (statRead.to .rerror).set .ename enoclient

def freshQueue : Mqueue := { Mqueue.unused with head := -1, tail := -1, attr := ⟨0, 8, 128, 0⟩ }

theorem freshQueue_fresh : Fresh freshQueue := ⟨⟨rfl, rfl⟩, rfl, rfl⟩

theorem stat_sends : statAsked.Sends (5 : Nat) statBytes := by
  refine ⟨fun _ => 0, statFcall, 1000, ⟨rfl, rfl, ?_⟩, ?_, by decide, by decide⟩
  · rintro ds fields d member
    cases fields
    simp only [List.mem_singleton] at member
    subst member
    rfl
  · rintro d e is a low high
    have before : e.1 + e.2 ≤ 1000 := by
      cases d <;> cases is <;> decide
    omega

theorem error_sends : ∃ bytes, errorReply.Sends (5 : Nat) bytes := by
  refine ⟨_, errorMemory, errorFcall, 1000, ⟨rfl, rfl, ?_⟩, ?_, by decide, rfl⟩
  · rintro ds fields d member
    cases fields
    simp only [List.mem_singleton] at member
    subst member
    rfl
  · rintro d e is a low high
    have apart : e.1 + e.2 ≤ 1000 ∨ 1000 + vfsMaxMsgLen ≤ e.1 := by
      cases d <;> cases is <;> decide
    omega

def statQueue : Mqueue := (freshQueue.wrapTail.put (fun a => statBytes.getD a 0) 15).queue

theorem stat_sent : send freshQueue statBytes = .ok ⟨true, [], statQueue⟩ := rfl

theorem stat_received : ∃ queue, receive statQueue = .ok ⟨15, statBytes, queue⟩ := ⟨_, rfl⟩

def statTalk : FileTalk Session := (fileGetStat 0 noFiles).bind fun (_, f) => .done ⟨f, none⟩

theorem stat_taken : ∃ k, Reaches encoded FileSessions.name portTree k ∧ k.server = (VfsServer.booted portTree).1 ∧
    k.buf = some statBytes := by
  have few (act : Rpc.QueueAct Nat) (small : ∀ i, act = .send i → i = 5) : ∀ i, act = .send i → i < 256 :=
    fun i is => (small i is).trans_lt (by decide)
  have idle : Run (Step encoded FileSessions.name) (fun _ act => ∀ i, act = .send i → i < 256)
      ⟨(VfsServer.booted portTree).1, none, freshQueue, fun _ => freshQueue, start⟩
      ⟨(VfsServer.booted portTree).1, none, freshQueue, fun _ => freshQueue, start⟩ := .start
  have begun := Run.next _ _ _ idle (few _ fun _ is => by cases is) (.begin (i := 5) (t := statTalk) rfl (.stat 0))
  obtain ⟨next, asked⟩ : ∃ next, statTalk = .ask statAsked next := ⟨_, rfl⟩
  have asks : Function.update start 5 (.runs statTalk) 5 = .runs (.ask statAsked next) :=
    (Function.update_self ..).trans (congrArg Rpc.Phase.runs asked)
  have sent := Run.next _ _ _ begun (few _ fun _ is => by cases is; rfl) (.send (i := 5) asks stat_sends stat_sent)
  obtain ⟨queue, received⟩ := stat_received
  have taken := Run.next _ _ _ sent (few _ fun _ is => by cases is) (.take rfl received (by decide))
  exact ⟨_, ⟨freshQueue, fun _ => freshQueue, freshQueue_fresh, fun _ => freshQueue_fresh, taken⟩, rfl, rfl⟩

theorem rings_refine_stat : ∃ k q, k.buf = some statBytes ∧ FileSessions.Reaches encoded FileSessions.name portTree q ∧
    Carried k q := by
  obtain ⟨k, reaches, -, buf⟩ := stat_taken
  obtain ⟨q, before, carried⟩ := rings_refine reaches
  exact ⟨k, q, buf, before, carried⟩

theorem server_unblocked_stat : ∃ k : Rings, (∃ next, k.process 5 = .waits next) ∧
    ∃ bytes woken queue, errorReply.Sends (5 : Nat) bytes ∧ send (k.outbox 5) bytes = .ok ⟨true, woken, queue⟩ := by
  obtain ⟨k, reaches, server, buf⟩ := stat_taken
  obtain ⟨-, answers⟩ := server_unblocked reaches buf
  obtain ⟨bytes, sends⟩ := error_sends
  have parsed : statRead.Parsed (5 : Nat) statBytes :=
    ⟨fun a => statBytes.getD a 0, ⟨default, 0⟩, 0, by decide, by decide, rfl, by decide⟩
  have offers : Offers k.server 5 (FileSessions.asking statRead 16 32 48) := by
    rw [server]
    exact FileSessions.asking_offers ⟨by decide, rfl, rfl⟩ ⟨by decide, rfl, rfl⟩ ⟨by decide, rfl, rfl⟩ (by decide)
  have handled : handleMessage libvfs encoded (FileSessions.asking statRead 16 32 48) k.server =
      some (some (errorReply, (5 : Int)), k.server) := by
    rw [server]
    rfl
  obtain ⟨waits, woken, queue, done⟩ := answers (FileSessions.asking statRead 16 32 48) _ _ _ bytes parsed offers handled
    (.inl sends)
  exact ⟨k, waits, bytes, woken, queue, sends, done⟩

end RingSessions

end Anthill
