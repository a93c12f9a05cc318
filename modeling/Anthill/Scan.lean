import Mathlib.Logic.Relation
import Mathlib.Order.Basic

set_option autoImplicit false

namespace Scan

variable {A : Type} [Preorder A] {step : A → Option A}

/-- The states of a run, from `a` on, that stops within the fuel. -/
def visits (step : A → Option A) : Nat → A → Option (List A)
  | 0, _ => none
  | fuel + 1, a => match step a with
    | none => some [a]
    | some b => (visits step fuel b).map fun path => a :: path

abbrev Reach (step : A → Option A) : A → A → Prop := Relation.ReflTransGen fun a b => step a = some b

/-- Each step that a run takes goes up. -/
def Ascends (step : A → Option A) (a : A) : Prop := ∀ b, Reach step a b → ∀ c, step b = some c → b < c

theorem Ascends.next {a b : A} (ascends : Ascends step a) (taken : step a = some b) : Ascends step b :=
  fun c reach => ascends c (.head taken reach)

theorem ascends_iff {a b : A} (taken : step a = some b) : Ascends step a ↔ a < b ∧ Ascends step b := by
  constructor
  · exact fun ascends => ⟨ascends a .refl b taken, ascends.next taken⟩
  · rintro ⟨up, rest⟩ c reach d later
    rcases Relation.ReflTransGen.cases_head reach with rfl | ⟨b', first, reach⟩
    · obtain rfl := Option.some.inj (taken.symm.trans later)
      exact up
    · obtain rfl := Option.some.inj (taken.symm.trans first)
      exact rest c reach d later

omit [Preorder A] in
theorem visits_head {fuel : Nat} {a : A} {path : List A} (run : visits step fuel a = some path) :
    ∃ rest, path = a :: rest := by
  cases fuel with
  | zero => cases run
  | succ fuel =>
    rw [visits] at run
    cases taken : step a with
    | none =>
      rw [taken] at run
      exact ⟨[], (Option.some.inj run).symm⟩
    | some b =>
      rw [taken] at run
      obtain ⟨rest, -, rfl⟩ := Option.map_eq_some_iff.mp run
      exact ⟨rest, rfl⟩

theorem ascends_of_visits {fuel : Nat} {a : A} {path : List A} (run : visits step fuel a = some path)
    (increasing : path.Pairwise (· < ·)) : Ascends step a := by
  induction fuel generalizing a path with
  | zero => cases run
  | succ fuel ih =>
    rw [visits] at run
    cases taken : step a with
    | none =>
      rw [taken] at run
      intro b reach c later
      rcases Relation.ReflTransGen.cases_head reach with rfl | ⟨b', first, -⟩
      · exact absurd (taken.symm.trans later) (Option.some_ne_none c).symm
      · exact absurd (taken.symm.trans first) (Option.some_ne_none b').symm
    | some b =>
      rw [taken] at run
      obtain ⟨rest, later, rfl⟩ := Option.map_eq_some_iff.mp run
      obtain ⟨above, increasing⟩ := List.pairwise_cons.mp increasing
      obtain ⟨more, rfl⟩ := visits_head later
      exact (ascends_iff taken).mpr ⟨above b (List.mem_cons_self ..), ih later increasing⟩

/-- Where only finitely many steps go up, a run whose steps all do stops. -/
theorem visits_of_ascends (rank : A → Nat) (bounded : ∀ a b, step a = some b → a < b → rank b < rank a) {a : A}
    (ascends : Ascends step a) {fuel : Nat} (enough : rank a < fuel) :
    ∃ path, visits step fuel a = some (a :: path) ∧ (a :: path).Pairwise (· < ·) := by
  induction fuel generalizing a with
  | zero => exact absurd enough (Nat.not_lt_zero _)
  | succ fuel ih =>
    rw [visits]
    cases taken : step a with
    | none => exact ⟨[], rfl, List.pairwise_singleton ..⟩
    | some b =>
      have up := ascends a .refl b taken
      obtain ⟨rest, run, increasing⟩ := ih (ascends.next taken)
        (Nat.lt_of_lt_of_le (bounded a b taken up) (Nat.le_of_lt_succ enough))
      refine ⟨b :: rest, by simp only [run, Option.map_some], List.pairwise_cons.mpr ⟨fun c member => ?_, increasing⟩⟩
      rcases List.mem_cons.mp member with rfl | member
      · exact up
      · exact up.trans (List.rel_of_pairwise_cons increasing member)

/-- A run stops, having gone up with each step, exactly if each step that it comes to goes up. -/
theorem visits_increasing_iff (rank : A → Nat) (bounded : ∀ a b, step a = some b → a < b → rank b < rank a) (a : A) :
    (∃ fuel path, visits step fuel a = some path ∧ path.Pairwise (· < ·)) ↔ Ascends step a := by
  constructor
  · rintro ⟨fuel, path, run, increasing⟩
    exact ascends_of_visits run increasing
  · intro ascends
    obtain ⟨path, run, increasing⟩ := visits_of_ascends rank bounded ascends (Nat.lt_succ_self (rank a))
    exact ⟨rank a + 1, a :: path, run, increasing⟩

end Scan
