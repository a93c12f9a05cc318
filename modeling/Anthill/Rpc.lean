import Anthill.Run
import Mathlib.Logic.Function.Basic

set_option autoImplicit false

namespace Rpc

variable {ι Q R α β σ V : Type}

/-- What a process does: it is done, or it sends a request and goes on with the reply. -/
inductive Talk (Q R α : Type) where
  | done (result : α)
  | ask (request : Q) (next : R → Talk Q R α)

def Talk.bind : Talk Q R α → (α → Talk Q R β) → Talk Q R β
  | .done a, f => f a
  | .ask q next, f => .ask q fun r => (next r).bind f

/-- What a server does for a request of a process: it takes a step, and it replies or does not. -/
abbrev Serve (ι Q R σ : Type) := ι → Q → σ → Option R → σ → Prop

/-- What a process may begin when it is done. -/
abbrev Begins (ι Q R α : Type) := ι → α → Talk Q R α → Prop

/-- The server and its processes, as if every request were handled at once. A process without a reply goes no further. -/
structure Calls (ι Q R α σ : Type) where
  server : σ
  process : ι → Option (Talk Q R α)

inductive CallAct (ι : Type) where
  | begin (i : ι)
  | call (i : ι)

section Step

variable [DecidableEq ι]

inductive Calls.Step (serve : Serve ι Q R σ) (begins : Begins ι Q R α) :
    Calls ι Q R α σ → CallAct ι → Calls ι Q R α σ → Prop where
  | begin {c : Calls ι Q R α σ} {i : ι} {a : α} {t : Talk Q R α} (idle : c.process i = some (.done a)) (new : begins i a t) :
      Step serve begins c (.begin i) { c with process := Function.update c.process i (some t) }
  | call {c : Calls ι Q R α σ} {i : ι} {q : Q} {next : R → Talk Q R α} {r : Option R} {s : σ}
      (asks : c.process i = some (.ask q next)) (served : serve i q c.server r s) :
      Step serve begins c (.call i) ⟨s, Function.update c.process i (r.map next)⟩

inductive Phase (Q R α : Type) where
  | runs (t : Talk Q R α)
  | waits (next : R → Talk Q R α)

/-- The server and its processes, with the queues between them. The server takes one request at a time. -/
structure Queued (ι Q R α σ : Type) where
  server : σ
  taken : Option (ι × Q)
  inbox : List (ι × Q)
  outbox : ι → List R
  process : ι → Phase Q R α

inductive QueueAct (ι : Type) where
  | begin (i : ι)
  | send (i : ι)
  | take
  | reply
  | receive (i : ι)

/-- A process waits while the queue of requests is full, and one that has sent a request until there is a reply. -/
inductive Queued.Step (cap : Nat) (serve : Serve ι Q R σ) (begins : Begins ι Q R α) :
    Queued ι Q R α σ → QueueAct ι → Queued ι Q R α σ → Prop where
  | begin {q : Queued ι Q R α σ} {i : ι} {a : α} {t : Talk Q R α} (idle : q.process i = .runs (.done a)) (new : begins i a t) :
      Step cap serve begins q (.begin i) { q with process := Function.update q.process i (.runs t) }
  | send {q : Queued ι Q R α σ} {i : ι} {request : Q} {next : R → Talk Q R α}
      (asks : q.process i = .runs (.ask request next)) (room : q.inbox.length < cap) :
      Step cap serve begins q (.send i)
        { q with inbox := q.inbox ++ [(i, request)], process := Function.update q.process i (.waits next) }
  | take {q : Queued ι Q R α σ} {first : ι × Q} {rest : List (ι × Q)} (free : q.taken = none)
      (there : q.inbox = first :: rest) : Step cap serve begins q .take { q with taken := some first, inbox := rest }
  | reply {q : Queued ι Q R α σ} {i : ι} {request : Q} {r : Option R} {s : σ} (taken : q.taken = some (i, request))
      (served : serve i request q.server r s) :
      Step cap serve begins q .reply
        { q with server := s, taken := none, outbox := Function.update q.outbox i (q.outbox i ++ r.toList) }
  | receive {q : Queued ι Q R α σ} {i : ι} {next : R → Talk Q R α} {r : R} {rest : List R}
      (waits : q.process i = .waits next) (there : q.outbox i = r :: rest) :
      Step cap serve begins q (.receive i)
        { q with outbox := Function.update q.outbox i rest, process := Function.update q.process i (.runs (next r)) }

def Queued.requests (q : Queued ι Q R α σ) : List (ι × Q) := q.taken.toList ++ q.inbox

def sentBy (i : ι) (requests : List (ι × Q)) : List Q := requests.filterMap fun e => if e.1 = i then some e.2 else none

theorem sentBy_append (i : ι) (before after : List (ι × Q)) : sentBy i (before ++ after) = sentBy i before ++ sentBy i after :=
  List.filterMap_append ..

theorem sentBy_self (i : ι) (request : Q) : sentBy i [(i, request)] = [request] := by simp [sentBy]

theorem sentBy_other {i j : ι} (other : j ≠ i) (request : Q) : sentBy j [(i, request)] = [] := by simp [sentBy, other.symm]

-- The requests of a process that have not been replied to.
def Queued.sent (q : Queued ι Q R α σ) (i : ι) : List Q := sentBy i q.requests

/-- Each process is done or waits for a reply, and no message is on its way. -/
def Queued.Rests (q : Queued ι Q R α σ) : Prop := ∀ i, (∃ a, q.process i = .runs (.done a)) ∨
  ∃ next, q.process i = .waits next ∧ q.sent i = [] ∧ q.outbox i = []

/-- Where a process stands between a request and its reply, and what it does where requests are handled at once. -/
inductive Queued.Place (q : Queued ι Q R α σ) (i : ι) : Option (Talk Q R α) → Prop where
  | runs (t : Talk Q R α) (process : q.process i = .runs t) (sent : q.sent i = []) (outbox : q.outbox i = []) :
      Place q i (some t)
  | asked (request : Q) (next : R → Talk Q R α) (process : q.process i = .waits next) (sent : q.sent i = [request])
      (outbox : q.outbox i = []) : Place q i (some (.ask request next))
  | answered (reply : R) (next : R → Talk Q R α) (process : q.process i = .waits next) (sent : q.sent i = [])
      (outbox : q.outbox i = [reply]) : Place q i (some (next reply))
  | lost (next : R → Talk Q R α) (process : q.process i = .waits next) (sent : q.sent i = []) (outbox : q.outbox i = []) :
      Place q i none

/-- Each request is handled as if at the moment at which it is replied to. -/
structure Linearized (q : Queued ι Q R α σ) (c : Calls ι Q R α σ) : Prop where
  server : c.server = q.server
  places : ∀ i, q.Place i (c.process i)

section Place

variable {q q' : Queued ι Q R α σ} {i : ι} {t : Option (Talk Q R α)}

-- What others do leaves a process where it is.
theorem Queued.Place.congr (place : q.Place i t) (process : q'.process i = q.process i) (sent : q'.sent i = q.sent i)
    (outbox : q'.outbox i = q.outbox i) : q'.Place i t := by
  cases place with
  | runs t is none_ empty => exact .runs t (process.trans is) (sent.trans none_) (outbox.trans empty)
  | asked request next is one empty => exact .asked request next (process.trans is) (sent.trans one) (outbox.trans empty)
  | answered reply next is none_ one => exact .answered reply next (process.trans is) (sent.trans none_) (outbox.trans one)
  | lost next is none_ empty => exact .lost next (process.trans is) (sent.trans none_) (outbox.trans empty)

theorem Queued.Place.of_runs {t' : Talk Q R α} (place : q.Place i t) (is : q.process i = .runs t') :
    t = some t' ∧ q.sent i = [] ∧ q.outbox i = [] := by
  cases place with
  | runs t process none_ empty =>
    obtain rfl := Phase.runs.inj (process.symm.trans is)
    exact ⟨rfl, none_, empty⟩
  | asked _ _ process => cases process.symm.trans is
  | answered _ _ process => cases process.symm.trans is
  | lost _ process => cases process.symm.trans is

theorem Queued.Place.of_sent {request : Q} {rest : List Q} (place : q.Place i t) (is : q.sent i = request :: rest) :
    rest = [] ∧ q.outbox i = [] ∧ ∃ next, q.process i = .waits next ∧ t = some (.ask request next) := by
  cases place with
  | runs _ _ none_ => cases none_.symm.trans is
  | asked request next process one empty =>
    obtain ⟨rfl, rfl⟩ := List.cons.inj (one.symm.trans is)
    exact ⟨rfl, empty, next, process, rfl⟩
  | answered _ _ _ none_ => cases none_.symm.trans is
  | lost _ _ none_ => cases none_.symm.trans is

theorem Queued.Place.of_outbox {reply : R} {rest : List R} (place : q.Place i t) (is : q.outbox i = reply :: rest) :
    rest = [] ∧ q.sent i = [] ∧ ∃ next, q.process i = .waits next ∧ t = some (next reply) := by
  cases place with
  | runs _ _ _ empty => cases empty.symm.trans is
  | asked _ _ _ _ empty => cases empty.symm.trans is
  | answered reply next process none_ one =>
    obtain ⟨rfl, rfl⟩ := List.cons.inj (one.symm.trans is)
    exact ⟨rfl, none_, next, process, rfl⟩
  | lost _ _ _ empty => cases empty.symm.trans is

end Place

section Refines

variable {cap : Nat} {serve : Serve ι Q R σ} {begins : Begins ι Q R α} {q q' : Queued ι Q R α σ} {c : Calls ι Q R α σ}

/-- A step between the queues is none where requests are handled at once, or it is the one that they are handled in. -/
theorem Linearized.step {act : QueueAct ι} (linear : Linearized q c) (step : Queued.Step cap serve begins q act q') :
    Linearized q' c ∨ ∃ act' c', Calls.Step serve begins c act' c' ∧ Linearized q' c' := by
  cases step with
  | @begin i a t idle new =>
    obtain ⟨is, none_, empty⟩ := (linear.places i).of_runs idle
    refine .inr ⟨_, _, .begin is new, linear.server, fun j => ?_⟩
    by_cases same : j = i
    · subst same
      simp only [Function.update_self]
      exact .runs t (Function.update_self ..) none_ empty
    · simp only [Function.update_of_ne same]
      exact (linear.places j).congr (Function.update_of_ne same ..) rfl rfl
  | @send i request next asks room =>
    obtain ⟨is, none_, empty⟩ := (linear.places i).of_runs asks
    refine .inl ⟨linear.server, fun j => ?_⟩
    have sent : ({ q with
          inbox := q.inbox ++ [(i, request)]
          process := Function.update q.process i (.waits next) } : Queued ι Q R α σ).sent j =
        q.sent j ++ sentBy j [(i, request)] := by
      rw [Queued.sent, Queued.sent, Queued.requests, Queued.requests, ← List.append_assoc, sentBy_append]
    by_cases same : j = i
    · subst same
      rw [is]
      exact .asked request next (Function.update_self ..) (by rw [sent, none_, sentBy_self]; rfl) empty
    · exact (linear.places j).congr (Function.update_of_ne same ..) (by rw [sent, sentBy_other same, List.append_nil]) rfl
  | @take first rest free there =>
    refine .inl ⟨linear.server, fun j => (linear.places j).congr rfl ?_ rfl⟩
    rw [Queued.sent, Queued.sent, Queued.requests, Queued.requests, free, there]
    rfl
  | @reply i request r s taken served =>
    have split (j : ι) : q.sent j = sentBy j [(i, request)] ++ sentBy j q.inbox := by
      rw [Queued.sent, Queued.requests, taken, Option.toList_some, sentBy_append]
    have first := split i
    rw [sentBy_self] at first
    obtain ⟨rest, empty, next, process, is⟩ := (linear.places i).of_sent first
    refine .inr ⟨_, _, .call is (linear.server.symm ▸ served), rfl, fun j => ?_⟩
    by_cases same : j = i
    · subst same
      simp only [Function.update_self]
      cases r with
      | none =>
        refine .lost next process rest ?_
        simp only [Function.update_self, empty, Option.toList_none, List.append_nil]
      | some reply =>
        refine .answered reply next process rest ?_
        simp only [Function.update_self, empty, Option.toList_some, List.nil_append]
    · simp only [Function.update_of_ne same]
      refine (linear.places j).congr rfl ?_ (Function.update_of_ne same ..)
      rw [split j, sentBy_other same]
      rfl
  | @receive i next r rest waits there =>
    obtain ⟨rfl, none_, next', process, is⟩ := (linear.places i).of_outbox there
    obtain rfl := Phase.waits.inj (process.symm.trans waits)
    refine .inl ⟨linear.server, fun j => ?_⟩
    by_cases same : j = i
    · subst same
      rw [is]
      exact .runs (next' r) (Function.update_self ..) none_ (Function.update_self ..)
    · exact (linear.places j).congr (Function.update_of_ne same ..) rfl (Function.update_of_ne same ..)

/-- In every interleaving the processes get the replies that they get where requests are handled at once. -/
theorem Linearized.run {q₀ : Queued ι Q R α σ} {c₀ : Calls ι Q R α σ} (start : Linearized q₀ c₀)
    (run : Run (Queued.Step cap serve begins) (fun _ _ => True) q₀ q) :
    ∃ c, Run (Calls.Step serve begins) (fun _ _ => True) c₀ c ∧ Linearized q c := by
  refine run.invariant (fun q => ∃ c, Run (Calls.Step serve begins) (fun _ _ => True) c₀ c ∧ Linearized q c)
    ⟨c₀, .start, start⟩ ?_
  rintro q act q' ⟨c, before, linear⟩ - step
  rcases linear.step step with still | ⟨act', c', call, linear'⟩
  · exact ⟨c, before, still⟩
  · exact ⟨c', .next c c' act' before trivial call, linear'⟩

/-- As long as the server handles what it has taken there is a step, unless all rests. -/
theorem Linearized.progress (linear : Linearized q c) (room : 0 < cap)
    (handles : ∀ i request, q.taken = some (i, request) → ∃ r s, serve i request q.server r s) :
    (∃ act q', (∀ i, act ≠ .begin i) ∧ Queued.Step cap serve begins q act q') ∨ q.Rests := by
  cases taken : q.taken with
  | some first =>
    obtain ⟨r, s, served⟩ := handles first.1 first.2 taken
    exact .inl ⟨.reply, _, (fun _ is => by cases is), .reply taken served⟩
  | none =>
    cases inbox : q.inbox with
    | cons first rest => exact .inl ⟨.take, _, (fun _ is => by cases is), .take taken inbox⟩
    | nil =>
      by_cases rests : q.Rests
      · exact .inr rests
      obtain ⟨i, stands⟩ := Classical.not_forall.mp rests
      obtain ⟨busy, waiting⟩ := not_or.mp stands
      have quiet : q.sent i = [] := by rw [Queued.sent, Queued.requests, taken, inbox]; rfl
      have place := linear.places i
      generalize c.process i = t at place
      cases place with
      | runs t process =>
        cases t with
        | done a => exact absurd ⟨a, process⟩ busy
        | ask request next =>
          exact .inl ⟨.send i, _, (fun _ is => by cases is), .send process (by rw [inbox]; exact room)⟩
      | asked _ _ _ one => cases quiet.symm.trans one
      | answered reply next process _ one => exact .inl ⟨.receive i, _, (fun _ is => by cases is), .receive process one⟩
      | lost next process none_ empty => exact absurd ⟨next, process, none_, empty⟩ waiting

end Refines

/-- What a process does while the server has no other requests. -/
inductive Talk.Alone (serve : Serve ι Q R σ) (i : ι) : Talk Q R α → σ → α → σ → Prop where
  | done (a : α) (s : σ) : Alone serve i (.done a) s a s
  | ask {q : Q} {next : R → Talk Q R α} {s s' s'' : σ} {r : R} {a : α} (served : serve i q s (some r) s')
      (rest : Alone serve i (next r) s' a s'') : Alone serve i (.ask q next) s a s''

/-- It can do so between the queues. -/
theorem Queued.alone {cap : Nat} {serve : Serve ι Q R σ} {begins : Begins ι Q R α} {i : ι} {t : Talk Q R α} {s s' : σ} {a : α}
    (alone : t.Alone serve i s a s') (room : 0 < cap) {q₀ : Queued ι Q R α σ} {process : ι → Phase Q R α}
    (run : Run (Queued.Step cap serve begins) (fun _ _ => True) q₀
      ⟨s, none, [], fun _ => [], Function.update process i (.runs t)⟩) :
    Run (Queued.Step cap serve begins) (fun _ _ => True) q₀
      ⟨s', none, [], fun _ => [], Function.update process i (.runs (.done a))⟩ := by
  induction alone with
  | done a s => exact run
  | @ask q next s s₁ s'' r a served rest ih =>
    have asked := Run.next _ _ _ run trivial (.send (Function.update_self ..) room)
    have taken := Run.next _ _ _ asked trivial (.take rfl rfl)
    have replied := Run.next _ _ _ taken trivial (.reply rfl served)
    simp only [Function.update_idem, List.nil_append, Option.toList_some] at replied
    have there : Function.update (fun _ => []) i [r] i = [r] := Function.update_self ..
    have received := Run.next _ _ _ replied trivial (.receive (Function.update_self ..) there)
    simp only [Function.update_idem, Function.update_eq_self] at received
    exact ih received

/-- What a process may ask for, and what becomes of its view of the server when it gets a reply or gets none. -/
structure Contract (Q R V : Type) where
  allows : V → Q → Prop
  effect : V → Q → Option R → V → Prop

/-- By the contract everything that the process asks for is allowed, and when it is done the postcondition holds. -/
def Talk.Sound (contract : Contract Q R V) (post : α → V → Prop) : Talk Q R α → V → Prop
  | .done a, v => post a v
  | .ask q next, v => contract.allows v q ∧ ∀ r v', contract.effect v q (some r) v' → (next r).Sound contract post v'

section Sound

variable {contract : Contract Q R V} {post post' : α → V → Prop} {t : Talk Q R α} {v : V}

theorem Talk.Sound.imp (sound : t.Sound contract post v) (weaker : ∀ a v, post a v → post' a v) :
    t.Sound contract post' v := by
  induction t generalizing v with
  | done a => exact weaker a v sound
  | ask q next ih => exact ⟨sound.1, fun r v' effect => ih r (sound.2 r v' effect)⟩

theorem Talk.Sound.bind {f : α → Talk Q R β} {post : β → V → Prop}
    (sound : t.Sound contract (fun a v => (f a).Sound contract post v) v) : (t.bind f).Sound contract post v := by
  induction t generalizing v with
  | done a => exact sound
  | ask q next ih => exact ⟨sound.1, fun r v' effect => ih r (sound.2 r v' effect)⟩

variable {serve : Serve ι Q R σ} {begins : Begins ι Q R α} {inv : σ → Prop} {view : ι → σ → V} {posts : ι → α → V → Prop}

/-- A server keeps a contract: what is allowed keeps its invariant, has the effect, and is not seen by other processes. -/
structure Contract.Kept (contract : Contract Q R V) (serve : Serve ι Q R σ) (inv : σ → Prop) (view : ι → σ → V) : Prop where
  keeps : ∀ i q s r s', inv s → contract.allows (view i s) q → serve i q s r s' → inv s'
  own : ∀ i q s r s', inv s → contract.allows (view i s) q → serve i q s r s' →
    contract.effect (view i s) q r (view i s')
  others : ∀ i q s r s', inv s → contract.allows (view i s) q → serve i q s r s' → ∀ j, j ≠ i → view j s' = view j s

structure Calls.Sound (contract : Contract Q R V) (inv : σ → Prop) (view : ι → σ → V) (posts : ι → α → V → Prop)
    (c : Calls ι Q R α σ) : Prop where
  inv : inv c.server
  talks : ∀ i t, c.process i = some t → t.Sound contract (posts i) (view i c.server)

/-- Where all that is begun is sound, and the server keeps the contract, everything that is asked for is allowed. -/
theorem Calls.Sound.step {c c' : Calls ι Q R α σ} {act : CallAct ι} (kept : contract.Kept serve inv view)
    (starts : ∀ i a t v, posts i a v → begins i a t → t.Sound contract (posts i) v) (sound : c.Sound contract inv view posts)
    (step : Calls.Step serve begins c act c') : c'.Sound contract inv view posts := by
  cases step with
  | @begin i a t idle new =>
    refine ⟨sound.inv, fun j t' is => ?_⟩
    simp only at is ⊢
    by_cases same : j = i
    · subst same
      rw [Function.update_self] at is
      obtain rfl := Option.some.inj is
      exact starts j a _ _ (sound.talks j _ idle) new
    · rw [Function.update_of_ne same] at is
      exact sound.talks j t' is
  | @call i q next r s asks served =>
    obtain ⟨allowed, later⟩ := sound.talks i _ asks
    refine ⟨kept.keeps i q _ r s sound.inv allowed served, fun j t is => ?_⟩
    simp only at is ⊢
    by_cases same : j = i
    · subst same
      rw [Function.update_self] at is
      cases r with
      | none => cases is
      | some reply =>
        obtain rfl := Option.some.inj is
        exact later reply _ (kept.own j q _ _ s sound.inv allowed served)
    · rw [Function.update_of_ne same] at is
      rw [kept.others i q _ r s sound.inv allowed served j same]
      exact sound.talks j t is

theorem Calls.Sound.run {c c' : Calls ι Q R α σ} (kept : contract.Kept serve inv view)
    (starts : ∀ i a t v, posts i a v → begins i a t → t.Sound contract (posts i) v) (sound : c.Sound contract inv view posts)
    (run : Run (Calls.Step serve begins) (fun _ _ => True) c c') : c'.Sound contract inv view posts :=
  run.invariant (Calls.Sound contract inv view posts) sound fun _ _ _ sound _ step => sound.step kept starts step

end Sound

end Step

end Rpc
