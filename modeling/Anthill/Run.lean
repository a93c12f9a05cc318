set_option autoImplicit false

variable {S A : Type}

/-- The states that a run from `s₀` reaches when every step it takes is allowed where it is taken. -/
inductive Run (step : S → A → S → Prop) (allowed : S → A → Prop) (s₀ : S) : S → Prop where
  | start : Run step allowed s₀ s₀
  | next (s s' : S) (a : A) (before : Run step allowed s₀ s) (fine : allowed s a)
      (taken : step s a s') : Run step allowed s₀ s'

namespace Run

variable {step : S → A → S → Prop} {allowed : S → A → Prop} {s₀ s : S}

theorem invariant (inv : S → Prop) (first : inv s₀)
    (kept : ∀ s a s', inv s → allowed s a → step s a s' → inv s') (run : Run step allowed s₀ s) :
    inv s := by
  induction run with
  | start => exact first
  | next s s' a _ fine taken ih => exact kept s a s' ih fine taken

theorem weaken (allowed' : S → A → Prop) (weaker : ∀ s a, allowed s a → allowed' s a) (run : Run step allowed s₀ s) :
    Run step allowed' s₀ s := by
  induction run with
  | start => exact .start
  | next s s' a _ fine taken ih => exact .next s s' a ih (weaker s a fine) taken

/-- The state after the given steps, when each of them can be taken and is allowed. -/
def replay (step : S → A → Option S) (allowed : S → A → Prop) [∀ s a, Decidable (allowed s a)] :
    S → List A → Option S
  | s, [] => some s
  | s, a :: rest => if allowed s a then (step s a).bind fun s => replay step allowed s rest else none

theorem of_replay (step : S → A → Option S) (allowed : S → A → Prop) [∀ s a, Decidable (allowed s a)]
    (s' : S) (actions : List A) (before : Run (fun s a s' => step s a = some s') allowed s₀ s)
    (done : replay step allowed s actions = some s') : Run (fun s a s' => step s a = some s') allowed s₀ s' := by
  induction actions generalizing s with
  | nil =>
    obtain rfl := Option.some.inj done
    exact before
  | cons a actions ih =>
    unfold replay at done
    split at done
    next fine =>
      obtain ⟨next, taken, rest⟩ := Option.bind_eq_some_iff.mp done
      exact ih (.next s next a before fine taken) rest
    next => cases done

end Run
