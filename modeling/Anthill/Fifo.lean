import Mathlib.Data.List.Basic

set_option autoImplicit false

namespace Fifo

variable {A S O R : Type}

/-- The operations of a bounded queue. A pop may not take what is at the front. -/
inductive Op (A : Type) where
  | push (a : A)
  | pop (takes : A → Bool)

inductive Result (A : Type) where
  | pushed
  | full
  | popped (a : A)
  | refused
  | empty

def step (cap : Nat) (queue : List A) : Op A → Result A × List A
  | .push a => if queue.length < cap then (.pushed, queue ++ [a]) else (.full, queue)
  | .pop takes =>
    match queue with
    | [] => (.empty, [])
    | a :: rest => if takes a then (.popped a, rest) else (.refused, a :: rest)

def steps (cap : Nat) : List A → List (Op A) → List (Result A) × List A
  | queue, [] => ([], queue)
  | queue, op :: ops =>
    let next := step cap queue op
    ((next.1 :: (steps cap next.2 ops).1), (steps cap next.2 ops).2)

-- What an operation puts into the queue, by its result.
def Op.put : Op A → Result A → List A
  | .push a, .pushed => [a]
  | _, _ => []

def Result.taken : Result A → List A
  | .popped a => [a]
  | _ => []

def put (ops : List (Op A)) (results : List (Result A)) : List A := (List.zipWith Op.put ops results).flatten

def taken (results : List (Result A)) : List A := results.flatMap Result.taken

theorem step_order (cap : Nat) (queue : List A) (op : Op A) :
    queue ++ op.put (step cap queue op).1 = (step cap queue op).1.taken ++ (step cap queue op).2 := by
  cases op with
  | push a =>
    rw [step]
    split_ifs
    · rfl
    · exact List.append_nil queue
  | pop takes =>
    cases queue with
    | nil => rfl
    | cons a rest =>
      simp only [step]
      split_ifs
      · exact List.append_nil (a :: rest)
      · exact List.append_nil (a :: rest)

/-- Elements are taken in the order in which they are put. -/
theorem steps_order (cap : Nat) (queue : List A) (ops : List (Op A)) :
    queue ++ put ops (steps cap queue ops).1 = taken (steps cap queue ops).1 ++ (steps cap queue ops).2 := by
  induction ops generalizing queue with
  | nil => exact List.append_nil queue
  | cons op ops ih =>
    have later := ih (step cap queue op).2
    rw [put, taken] at later
    rw [steps, put, taken, List.zipWith_cons_cons, List.flatten_cons, List.flatMap_cons, ← List.append_assoc,
      step_order, List.append_assoc, later, List.append_assoc]

/-- The results of an implementation, one operation after the other, unless it fails. -/
def runs (impl : S → O → Option (R × S)) : S → List O → Option (List R × S)
  | s, [] => some ([], s)
  | s, o :: ops => (impl s o).bind fun first => (runs impl first.2 ops).map fun rest => (first.1 :: rest.1, rest.2)

/-- An implementation whose states hold queues, and whose results stand for those of the queue. -/
structure Refines (cap : Nat) (impl : S → O → Option (R × S)) (op : O → Op A) (result : Result A → R)
    (allowed : O → Prop) (holds : S → List A → Prop) : Prop where
  step : ∀ s queue o, holds s queue → allowed o →
    ∃ s', impl s o = some (result (step cap queue (op o)).1, s') ∧ holds s' (Fifo.step cap queue (op o)).2

theorem Refines.runs {cap : Nat} {impl : S → O → Option (R × S)} {op : O → Op A} {result : Result A → R}
    {allowed : O → Prop} {holds : S → List A → Prop} (refines : Refines cap impl op result allowed holds) (s : S)
    (queue : List A) (start : holds s queue) (ops : List O) (all : ∀ o, o ∈ ops → allowed o) :
    ∃ s', Fifo.runs impl s ops = some ((steps cap queue (ops.map op)).1.map result, s') ∧
      holds s' (steps cap queue (ops.map op)).2 := by
  induction ops generalizing s queue with
  | nil => exact ⟨s, rfl, start⟩
  | cons o ops ih =>
    obtain ⟨s₁, first, held⟩ := refines.step s queue o start (all o List.mem_cons_self)
    obtain ⟨s₂, rest, last⟩ := ih s₁ _ held fun o' later => all o' (List.mem_cons_of_mem o later)
    refine ⟨s₂, ?_, last⟩
    rw [Fifo.runs, first, Option.bind_some]
    dsimp only
    rw [rest]
    rfl

end Fifo
