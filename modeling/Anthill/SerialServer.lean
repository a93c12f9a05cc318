import Anthill.Serial

set_option autoImplicit false

namespace Anthill

open Bytes (Counted)

/-- What a driver sends for a message: nothing, no bytes at all to a queue, or a message. -/
inductive Sent where
  | nothing
  | empty (mq : Int)
  | message (msg : Message) (mq : Int)

structure SerialServer (σ α : Type) where
  clients : σ
  line : Line α

namespace SerialServer

def eclient : Counted 16 Byte := ⟨chars "Client error", eclient_short⟩

def einvalid : Counted 16 Byte := ⟨chars "Invalid message", einvalid_short⟩

def eunknown : Counted 16 Byte := ⟨chars "Unknown type", by decide⟩

section Handlers

variable {σ α : Type} (d : Serial α) (lib : ClientLib σ) (r : SerialRequest α)

def withClient (s : SerialServer σ α) (next : Option (Answer × SerialServer σ α)) : Option (Answer × SerialServer σ α) :=
  (lib.get r.mqId s.clients).bind fun client => if client = 0 then some (r.error eclient, s) else next

def attach (s : SerialServer σ α) : Option (Answer × SerialServer σ α) :=
  (attachClient lib r.toReceived s.clients).map fun (client, clients) =>
    let s := { s with clients := clients }
    let fid := r.msg.value .fid
    if client.isNone then (none, s)
    else if fid = nofid ∨ r.msg.value .afid ≠ nofid then (r.error einvalid, s)
    else (r.answer ((r.msg.to .rattach).set .qid ⟨0, 0, fid.setWidth 64⟩), s)

def read (s : SerialServer σ α) : Option (Answer × SerialServer σ α) :=
  withClient lib r s ((d.read r (r.msg.value .count) s.line).map fun (data, line) =>
    (r.answer ((r.msg.to .rread).set .data data), { s with line := line }))

def write (s : SerialServer σ α) : Option (Answer × SerialServer σ α) :=
  withClient lib r s ((d.write r (r.msg.value .data).1 s.line).map fun (count, line) =>
    (r.answer ((r.msg.to .rwrite).set .count count), { s with line := line }))

/-- What the drivers have in common. They differ in what they do with messages of other types, and with an answer that
has no bytes. -/
def handleMessage (other : Answer) (silence : Sent) (s : SerialServer σ α) : Option (Sent × SerialServer σ α) :=
  let answered : Option (Answer × SerialServer σ α) := match r.msg.type with
    | .tattach => attach lib r s
    | .tread => read d lib r s
    | .twrite => write d lib r s
    | _ => some (other, s)
  answered.map fun (answer, s) => ((answer.map fun (msg, mq) => Sent.message msg mq).getD silence, s)

end Handlers

end SerialServer

/-- _handle_message of uart/main.c, which sends what it has put even if that is nothing. -/
def Uart.handleMessage {σ : Type} (lib : ClientLib σ) (r : SerialRequest Byte) (s : SerialServer σ Byte) :
    Option (Sent × SerialServer σ Byte) :=
  SerialServer.handleMessage uart lib r (r.error SerialServer.eunknown) (.empty r.mqId) s

/-- _handle_message of pl011/main.c, which sends back the messages that it does not know. -/
def Pl011.handleMessage {σ : Type} (lib : ClientLib σ) (r : SerialRequest (BitVec 32)) (s : SerialServer σ (BitVec 32)) :
    Option (Sent × SerialServer σ (BitVec 32)) :=
  SerialServer.handleMessage pl011 lib r (some (r.msg, r.mqId)) .nothing s

namespace SerialServer

/-- A driver with what its clients have been sent for their Treads, and what it was sent in the Twrites that it has
answered with an Rwrite. -/
structure Serving (σ α : Type) where
  server : SerialServer σ α
  delivered : List Byte
  written : List Byte

def delivers (r : Received) : Sent → List Byte
  | .message msg _ => if r.msg.type = .tread ∧ msg.type = .rread then (msg.value .data).1 else []
  | _ => []

def accepts (r : Received) : Sent → List Byte
  | .message msg _ => if r.msg.type = .twrite ∧ msg.type = .rwrite then (r.msg.value .data).1 else []
  | _ => []

def Step {σ α : Type} (handle : SerialRequest α → SerialServer σ α → Option (Sent × SerialServer σ α))
    (s : Serving σ α) (r : SerialRequest α) (s' : Serving σ α) : Prop :=
  ∃ sent, handle r s.server = some (sent, s'.server) ∧ s'.delivered = s.delivered ++ delivers r.toReceived sent ∧
    s'.written = s.written ++ accepts r.toReceived sent

-- A driver that has just been started.
def started {σ : Type} (α : Type) (clients : σ) : Serving σ α := ⟨⟨clients, ⟨[], [], [], []⟩⟩, [], []⟩

/-- All that was written has been sent. What has arrived is delivered, once and in order, with what is still held, if and
only if no read has taken out more than 113 bytes. -/
def Exact {σ α : Type} (d : Serial α) (s : Serving σ α) : Prop :=
  s.server.line.tx = s.written ∧
    (s.server.line.arrived.map d.char = s.delivered ++ s.server.line.rx.map d.char ↔
      ∀ data, data ∈ s.server.line.taken → data.length ≤ 113)

/-- Every byte is delivered, or was taken out by a read that took out too many, or is still held. -/
structure Accounts {σ α : Type} (d : Serial α) (s : Serving σ α) : Prop where
  arrived : s.server.line.arrived.map d.char = s.server.line.taken.flatten ++ s.server.line.rx.map d.char
  delivered : s.delivered = (s.server.line.taken.filter fun data => data.length ≤ 113).flatten
  written : s.server.line.tx = s.written

theorem flatten_filter_le (taken : List (List Byte)) :
    (taken.filter fun data => data.length ≤ 113).flatten.length ≤ taken.flatten.length := by
  induction taken with
  | nil => exact Nat.le_refl _
  | cons data taken ih =>
    rw [List.flatten_cons, List.length_append]
    by_cases short : data.length ≤ 113
    · rw [List.filter_cons_of_pos (by simpa using short), List.flatten_cons, List.length_append]
      omega
    · rw [List.filter_cons_of_neg (by simpa using short)]
      omega

theorem flatten_filter_length (taken : List (List Byte)) :
    (taken.filter fun data => data.length ≤ 113).flatten.length = taken.flatten.length ↔
      ∀ data, data ∈ taken → data.length ≤ 113 := by
  induction taken with
  | nil => simp
  | cons data taken ih =>
    have less := flatten_filter_le taken
    rw [List.forall_mem_cons, ← ih, List.flatten_cons, List.length_append]
    by_cases short : data.length ≤ 113
    · rw [List.filter_cons_of_pos (by simpa using short), List.flatten_cons, List.length_append]
      omega
    · rw [List.filter_cons_of_neg (by simpa using short)]
      omega

theorem Accounts.exact {σ α : Type} {d : Serial α} {s : Serving σ α} (accounts : Accounts d s) : Exact d s := by
  refine ⟨accounts.written, ?_⟩
  rw [accounts.arrived, accounts.delivered, List.append_cancel_right_eq]
  constructor
  · intro same
    exact (flatten_filter_length _).mp (congrArg List.length same).symm
  · intro short
    rw [List.filter_eq_self.mpr fun data member => by simpa using short data member]

section Accounts

variable {σ α : Type} {d : Serial α} {lib : ClientLib σ} {r : SerialRequest α} {s : SerialServer σ α}

-- The line is not touched.
theorem attach_line {x : Answer × SerialServer σ α} (done : attach lib r s = some x) : x.2.line = s.line := by
  obtain ⟨⟨client, clients⟩, -, rfl⟩ := Option.map_eq_some_iff.mp done
  simp only
  split
  · rfl
  split
  · rfl
  · rfl

theorem withClient_some {next : Option (Answer × SerialServer σ α)} {x : Answer × SerialServer σ α}
    (done : withClient lib r s next = some x) : x = (r.error eclient, s) ∨ next = some x := by
  obtain ⟨client, -, done⟩ := Option.bind_eq_some_iff.mp done
  split at done
  · exact .inl (Option.some.inj done).symm
  · exact .inr done

theorem error_sent (ename : Counted 16 Byte) (silence : Sent) (short : ename.1.length ≤ 115) :
    ((r.error ename).map fun (msg, mq) => Sent.message msg mq).getD silence =
      .message ((r.msg.to .rerror).set .ename ename) r.mqId := by
  have fits : ((r.msg.to .rerror).set .ename ename).Fits := by
    rw [fits_rerror rfl, Message.set_value]
    exact short
  rw [Received.error, Received.answer, Message.put, if_pos fits]
  rfl

/-- What one message does. -/
theorem handleMessage_accounts {other : Answer} {silence : Sent} (silent : delivers r.toReceived silence = [])
    {sent : Sent} {s' : SerialServer σ α} (done : handleMessage d lib r other silence s = some (sent, s')) :
    ∃ taken, s.line.Took d.char s'.line taken.flatten (accepts r.toReceived sent) ∧
      s'.line.taken = s.line.taken ++ taken ∧
      delivers r.toReceived sent = (taken.filter fun data => data.length ≤ 113).flatten := by
  obtain ⟨⟨answer, s''⟩, answered, is⟩ := Option.map_eq_some_iff.mp done
  obtain ⟨rfl, rfl⟩ := Prod.mk.inj is
  -- A message that is no Tread and no Twrite, and one of an unknown client.
  have nothing {sent : Sent} (line : s''.line = s.line) (quiet : delivers r.toReceived sent = [])
      (refused : accepts r.toReceived sent = []) : ∃ taken, s.line.Took d.char s''.line taken.flatten
        (accepts r.toReceived sent) ∧ s''.line.taken = s.line.taken ++ taken ∧
        delivers r.toReceived sent = (taken.filter fun data => data.length ≤ 113).flatten := by
    refine ⟨[], ?_, by rw [line, List.append_nil], quiet⟩
    rw [line, refused]
    exact .refl _ _
  split at answered
  · next type =>
    refine nothing (attach_line answered) ?_ ?_
    · rw [delivers.eq_def]
      split
      · rw [if_neg fun both => absurd both.1 (by rw [type]; decide)]
      · rfl
    · rw [accepts.eq_def]
      split
      · rw [if_neg fun both => absurd both.1 (by rw [type]; decide)]
      · rfl
  · next type =>
    rcases withClient_some answered with is | answered
    · obtain ⟨rfl, rfl⟩ := Prod.mk.inj is
      rw [error_sent _ _ (by decide)]
      refine nothing rfl (if_neg fun both => by cases both.2) (if_neg fun both => by cases both.2)
    · obtain ⟨⟨data, line⟩, readData, is⟩ := Option.map_eq_some_iff.mp answered
      obtain ⟨rfl, rfl⟩ := Prod.mk.inj is
      obtain ⟨took, taken, -⟩ := d.reads r _ _ data line readData
      refine ⟨[data.1], ?_, taken, ?_⟩
      · have refused (sent : Sent) : accepts r.toReceived sent = [] := by
          rw [accepts.eq_def]
          split
          · rw [if_neg fun both => absurd both.1 (by rw [type]; decide)]
          · rfl
        rw [refused, List.flatten_cons, List.flatten_nil, List.append_nil]
        exact took
      · rw [Received.answer, Message.put]
        have type' : ((r.msg.to .rread).set .data data).type = .rread := rfl
        have fits := fits_rread type'
        rw [Message.set_value] at fits
        by_cases short : data.1.length ≤ 113
        · rw [if_pos (fits.mpr short), List.filter_cons_of_pos (by simpa using short)]
          show (if r.msg.type = .tread ∧ _ then _ else _) = _
          rw [if_pos ⟨type, rfl⟩, Message.set_value]
          exact (List.append_nil _).symm
        · rw [if_neg (mt fits.mp short), List.filter_cons_of_neg (by simpa using short)]
          exact silent
  · next type =>
    rcases withClient_some answered with is | answered
    · obtain ⟨rfl, rfl⟩ := Prod.mk.inj is
      rw [error_sent _ _ (by decide)]
      refine nothing rfl (if_neg fun both => by cases both.2) (if_neg fun both => by cases both.2)
    · obtain ⟨⟨count, line⟩, wrote, is⟩ := Option.map_eq_some_iff.mp answered
      obtain ⟨rfl, rfl⟩ := Prod.mk.inj is
      obtain ⟨took, taken, -⟩ := d.writes r _ _ count line wrote
      have fits : ((r.msg.to .rwrite).set .count count).Fits := fits_fixed (by simp)
      rw [Received.answer, Message.put, if_pos fits]
      refine ⟨[], ?_, by rw [taken, List.append_nil], if_neg fun both => by cases both.2⟩
      show s.line.Took d.char line [] (if r.msg.type = .twrite ∧ _ then _ else _)
      rw [if_pos ⟨type, rfl⟩]
      exact took
  · next attach read write =>
    obtain ⟨rfl, rfl⟩ := Prod.mk.inj (Option.some.inj answered)
    refine nothing rfl ?_ ?_
    · rw [delivers.eq_def]
      split
      · rw [if_neg fun both => read both.1]
      · rfl
    · rw [accepts.eq_def]
      split
      · rw [if_neg fun both => write both.1]
      · rfl

theorem accounts_of_run {other : SerialRequest α → Answer} {silence : SerialRequest α → Sent}
    (silent : ∀ r, delivers r.toReceived (silence r) = []) (clients : σ) {s : Serving σ α}
    (run : Run (Step fun r => handleMessage d lib r (other r) (silence r)) (fun _ _ => True) (started α clients) s) :
    Accounts d s := by
  refine run.invariant (Accounts d) ⟨rfl, rfl, rfl⟩ ?_
  rintro s r s' accounts - ⟨sent, done, delivered, written⟩
  obtain ⟨taken, ⟨⟨new, arrived, stood⟩, tx⟩, noted, passed⟩ := handleMessage_accounts (silent r) done
  refine ⟨?_, ?_, ?_⟩
  · rw [arrived, List.map_append, accounts.arrived, noted, List.flatten_append, List.append_assoc, ← List.map_append,
      stood, List.append_assoc]
  · rw [delivered, passed, accounts.delivered, noted, List.filter_append, List.flatten_append]
  · rw [tx, accounts.written, written]

end Accounts

/-- In every run of a driver, of whatever clients the messages come from and in whatever order. -/
theorem drivers_exact {σ : Type} (lib : ClientLib σ) (clients : σ) :
    (∀ s, Run (Step (Uart.handleMessage lib)) (fun _ _ => True) (started Byte clients) s → Exact uart s) ∧
    (∀ s, Run (Step (Pl011.handleMessage lib)) (fun _ _ => True) (started (BitVec 32) clients) s → Exact pl011 s) :=
  ⟨fun _ run => (accounts_of_run (fun _ => rfl) clients run).exact,
    fun _ run => (accounts_of_run (fun _ => rfl) clients run).exact⟩

-- The state after a message, when it is handled.
def after (s : Serving Vfs Byte) (r : SerialRequest Byte) : Serving Vfs Byte :=
  (Uart.handleMessage libvfs r s.server).elim s fun (sent, server) =>
    ⟨server, s.delivered ++ delivers r.toReceived sent, s.written ++ accepts r.toReceived sent⟩

def joining : SerialRequest Byte := ⟨(VfsServer.attaching 5 16 32 48).toReceived, fun _ => [], 1⟩

-- A Tread, during which "h" and a carriage return arrive.
def reading : SerialRequest Byte :=
  ⟨⟨(⟨.tread, 2, Field.blank⟩ : Message).set .count 100, 5, fun _ => 5, 0, 0⟩, fun k => if k = 0 then [104, 13] else [], 1⟩

def typed : Serving Vfs Byte := after (after (started Byte noClients.1) joining) reading

theorem drivers_exact_typed : typed.delivered = [104, 10] ∧ Exact uart typed :=
  ⟨by decide +kernel, (drivers_exact libvfs noClients.1).1 typed
    (.next (after (started Byte noClients.1) joining) typed reading
      (.next (started Byte noClients.1) _ joining .start trivial ⟨_, rfl, rfl, rfl⟩) trivial ⟨_, rfl, rfl, rfl⟩)⟩

end SerialServer

end Anthill
