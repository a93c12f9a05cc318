import Mathlib.Data.List.Nodup
import Mathlib.Logic.Function.Basic

set_option autoImplicit false

namespace Channel

/-- An item that was received: the send it is put down to, and how many sends there had been by then. -/
structure Receipt (E : Type) where
  item : E
  number : Nat
  before : Nat
deriving DecidableEq, Repr

/-- What was sent and what was received, in order. Sends are numbered from 0. -/
structure Log (E : Type) where
  sent : List E
  got : List (Receipt E)
deriving DecidableEq, Repr

variable {K E : Type}

def Log.empty : Log E := ⟨[], []⟩

def Log.send (log : Log E) (e : E) : Log E := { log with sent := log.sent ++ [e] }

def Log.receive (log : Log E) (e : E) (number : Nat) : Log E :=
  { log with got := log.got ++ [⟨e, number, log.sent.length⟩] }

/-- Every receipt has an earlier send of the same item for itself, and the receipts of each channel come
in the order of their sends. -/
structure Log.Attributed (key : E → K) (log : Log E) : Prop where
  earlier : ∀ g ∈ log.got, g.number < g.before ∧ log.sent[g.number]? = some g.item
  once : (log.got.map Receipt.number).Nodup
  order : log.got.Pairwise fun g g' => key g.item = key g'.item → g.number < g'.number

/-- The sends that the channels still hold, each in order and after all that was received from there. -/
structure Log.Holds (key : E → K) (log : Log E) (held : K → List Nat) : Prop where
  earlier : ∀ g ∈ log.got, g.number < g.before ∧ log.sent[g.number]? = some g.item
  order : log.got.Pairwise fun g g' => key g.item = key g'.item → g.number < g'.number
  sent : ∀ k, ∀ p ∈ held k, ∃ e, log.sent[p]? = some e ∧ key e = k
  sorted : ∀ k, (held k).Pairwise (· < ·)
  later : ∀ g ∈ log.got, ∀ p ∈ held (key g.item), g.number < p

namespace Log

variable {key : E → K} {log : Log E} {held : K → List Nat}

theorem Holds.attributed (holds : log.Holds key held) : log.Attributed key where
  earlier := holds.earlier
  once := by
    rw [List.Nodup, List.pairwise_map]
    refine holds.order.imp_of_mem fun {g g'} here there before same => ?_
    have item := (holds.earlier g here).2
    rw [same, (holds.earlier g' there).2] at item
    have increasing := before (congrArg key (Option.some.inj item).symm)
    omega
  order := holds.order

theorem holds_empty : Holds key (empty : Log E) fun _ => [] where
  earlier _ none := absurd none List.not_mem_nil
  order := .nil
  sent _ _ none := absurd none List.not_mem_nil
  sorted _ := .nil
  later _ none := absurd none List.not_mem_nil

/-- Items may be dropped. -/
theorem Holds.fewer (holds : log.Holds key held) (held' : K → List Nat)
    (fewer : ∀ k, (held' k).Sublist (held k)) : log.Holds key held' where
  earlier := holds.earlier
  order := holds.order
  sent k p member := holds.sent k p ((fewer k).subset member)
  sorted k := (holds.sorted k).sublist (fewer k)
  later g here p member := holds.later g here p ((fewer (key g.item)).subset member)

theorem get_send (log : Log E) (e : E) (p : Nat) (item : E) (there : log.sent[p]? = some item) :
    (log.send e).sent[p]? = some item := by
  obtain ⟨inside, _⟩ := List.getElem?_eq_some_iff.mp there
  rw [send, List.getElem?_append_left inside, there]

theorem Holds.send [DecidableEq K] (holds : log.Holds key held) (e : E) :
    (log.send e).Holds key (Function.update held (key e) (held (key e) ++ [log.sent.length])) := by
  have inside (k : K) (p : Nat) (member : p ∈ held k) : p < log.sent.length := by
    obtain ⟨_, there, _⟩ := holds.sent k p member
    exact (List.getElem?_eq_some_iff.mp there).1
  have cases (k : K) (p : Nat)
      (member : p ∈ Function.update held (key e) (held (key e) ++ [log.sent.length]) k) :
      p ∈ held k ∨ (k = key e ∧ p = log.sent.length) := by
    rw [Function.update_apply] at member
    split_ifs at member with here
    · rw [here]
      exact (List.mem_append.mp member).imp_right fun last => ⟨rfl, List.mem_singleton.mp last⟩
    · exact .inl member
  refine ⟨fun g here => ?_, holds.order, fun k p member => ?_, fun k => ?_, fun g here p member => ?_⟩
  · exact ⟨(holds.earlier g here).1, log.get_send e _ _ (holds.earlier g here).2⟩
  · rcases cases k p member with old | ⟨rfl, rfl⟩
    · obtain ⟨item, there, channel⟩ := holds.sent k p old
      exact ⟨item, log.get_send e p item there, channel⟩
    · exact ⟨e, by simp [Log.send], rfl⟩
  · rw [Function.update_apply]
    split_ifs
    · refine List.pairwise_append.mpr ⟨holds.sorted _, List.pairwise_singleton _ _, fun p old q last => ?_⟩
      rw [List.mem_singleton.mp last]
      exact inside _ p old
    · exact holds.sorted k
  · rcases cases _ p member with old | ⟨_, rfl⟩
    · exact holds.later g here p old
    · exact (List.getElem?_eq_some_iff.mp (holds.earlier g here).2).1

theorem Holds.receive [DecidableEq K] (holds : log.Holds key held) (e : E) (p : Nat) (rest : List Nat)
    (front : held (key e) = p :: rest) (there : log.sent[p]? = some e) :
    (log.receive e p).Holds key (Function.update held (key e) rest) := by
  have sorted := holds.sorted (key e)
  rw [front] at sorted
  have fewer (k : K) : (Function.update held (key e) rest k).Sublist (held k) := by
    rw [Function.update_apply]
    split_ifs with here
    · rw [here, front]
      exact List.sublist_cons_self _ _
    · exact .refl _
  have kept := holds.fewer _ fewer
  have cases (g : Receipt E) (here : g ∈ (log.receive e p).got) :
      g ∈ log.got ∨ g = ⟨e, p, log.sent.length⟩ :=
    (List.mem_append.mp here).imp_right List.mem_singleton.mp
  refine ⟨fun g here => ?_, ?_, kept.sent, kept.sorted, fun g here q member => ?_⟩
  · rcases cases g here with old | rfl
    · exact holds.earlier g old
    · exact ⟨(List.getElem?_eq_some_iff.mp there).1, there⟩
  · refine List.pairwise_append.mpr ⟨holds.order, List.pairwise_singleton _ _, fun g old g' last same => ?_⟩
    rw [List.mem_singleton.mp last] at same ⊢
    refine holds.later g old p ?_
    rw [same, front]
    exact List.mem_cons_self
  · rcases cases g here with old | rfl
    · exact kept.later g old q member
    · rw [Function.update_self] at member
      exact (List.pairwise_cons.mp sorted).1 q member

end Log

end Channel
