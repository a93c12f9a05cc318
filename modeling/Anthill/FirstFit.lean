import Mathlib.Tactic.SplitIfs
import Mathlib.Tactic.ByContra

set_option autoImplicit false

namespace FirstFit

-- The first taken place among `count`, from place `place` on.
def firstTaken (taken : Nat → Bool) (place : Nat) : Nat → Option Nat
  | 0 => none
  | count + 1 => if taken place then some place else firstTaken taken (place + 1) count

-- Look for `count` free places in a row, and go on behind the first taken place that is met.
def search (taken : Nat → Bool) (count : Nat) : Nat → Nat → Option Nat
  | 0, _ => none
  | fuel + 1, place =>
    match firstTaken taken place count with
    | none => some place
    | some met => search taken count fuel (met + 1)

def Room (taken : Nat → Bool) (count place : Nat) : Prop := ∀ p, p < count → taken (place + p) = false

/-- The first place at or behind `start` with `count` free places in a row. -/
structure Least (taken : Nat → Bool) (count start place : Nat) : Prop where
  from_start : start ≤ place
  fits : Room taken count place
  first : ∀ j, start ≤ j → j < place → ¬ Room taken count j

variable (taken : Nat → Bool) (count : Nat)

theorem firstTaken_none (place : Nat) : firstTaken taken place count = none ↔ Room taken count place := by
  induction count generalizing place with
  | zero => exact ⟨fun _ p less => absurd less (Nat.not_lt_zero p), fun _ => rfl⟩
  | succ count ih =>
    cases here : taken place with
    | true =>
      rw [firstTaken, here, if_pos rfl]
      refine ⟨fun impossible => (by cases impossible), fun fits => ?_⟩
      have free := fits 0 (Nat.succ_pos count)
      rw [Nat.add_zero, here] at free
      cases free
    | false =>
      rw [firstTaken, here, if_neg Bool.false_ne_true, ih]
      constructor
      · intro fits p less
        cases p with
        | zero => exact here
        | succ p => rw [← fits p (by omega), Nat.add_right_comm, Nat.add_assoc]
      · intro fits p less
        rw [← fits (p + 1) (by omega), Nat.add_right_comm, Nat.add_assoc]

theorem firstTaken_some (place met : Nat) (found : firstTaken taken place count = some met) :
    place ≤ met ∧ met < place + count ∧ taken met = true := by
  induction count generalizing place with
  | zero => cases found
  | succ count ih =>
    rw [firstTaken] at found
    split_ifs at found with here
    · cases found
      exact ⟨Nat.le_refl _, by omega, here⟩
    · obtain ⟨behind, before, busy⟩ := ih (place + 1) found
      exact ⟨by omega, by omega, busy⟩

-- No fitting place lies at or before a taken place that is met.
theorem skipped (place met j : Nat) (found : firstTaken taken place count = some met) (behind : place ≤ j)
    (before : j ≤ met) : ¬ Room taken count j := by
  obtain ⟨_, bound, busy⟩ := firstTaken_some taken count place met found
  intro fits
  have free := fits (met - j) (by omega)
  rw [Nat.add_sub_cancel' before, busy] at free
  cases free

theorem search_least (fuel place result : Nat) (found : search taken count fuel place = some result) :
    Least taken count place result := by
  induction fuel generalizing place with
  | zero => cases found
  | succ fuel ih =>
    rw [search] at found
    cases met : firstTaken taken place count with
    | none =>
      rw [met] at found
      cases found
      exact ⟨Nat.le_refl _, (firstTaken_none taken count _).mp met, fun j low high => by omega⟩
    | some p =>
      rw [met] at found
      have later := ih (p + 1) found
      have behind := (firstTaken_some taken count place p met).1
      refine ⟨by have := later.from_start; omega, later.fits, fun j low high => ?_⟩
      by_cases jumped : j ≤ p
      · exact skipped taken count place p j met low jumped
      · exact later.first j (by omega) high

-- The distance to a fitting place falls with every round.
theorem search_ends (room start : Nat) (behind : start ≤ room) (fits : Room taken count room) :
    ∀ fuel, room - start < fuel → ∃ result, search taken count fuel start = some result := by
  intro fuel enough
  induction fuel generalizing start with
  | zero => omega
  | succ fuel ih =>
    rw [search]
    cases met : firstTaken taken start count with
    | none => exact ⟨start, rfl⟩
    | some p =>
      have forward := (firstTaken_some taken count start p met).1
      have missed : p < room := by
        by_contra reached
        exact skipped taken count start p room met behind (by omega) fits
      exact ih (p + 1) (by omega) (by omega)

theorem Least.unique {start place place' : Nat} (least : Least taken count start place)
    (least' : Least taken count start place') : place = place' := by
  rcases Nat.lt_trichotomy place place' with less | same | more
  · exact absurd least.fits (least'.first place least.from_start less)
  · exact same
  · exact absurd least'.fits (least.first place' least'.from_start more)

/-- The search comes to a place for all fuel from some amount on just where that place is the first that fits. -/
theorem search_iff (start place : Nat) :
    (∃ enough, ∀ fuel, enough ≤ fuel → search taken count fuel start = some place) ↔
      Least taken count start place := by
  constructor
  · rintro ⟨enough, found⟩
    exact search_least taken count enough start place (found enough (Nat.le_refl _))
  · intro least
    refine ⟨place - start + 1, fun fuel enough => ?_⟩
    obtain ⟨result, found⟩ := search_ends taken count place start least.from_start least.fits fuel (by omega)
    rw [found, (search_least taken count fuel start result found).unique taken count least]

theorem exists_least (start room : Nat) (behind : start ≤ room) (fits : Room taken count room) :
    ∃ place, place ≤ room ∧ Least taken count start place := by
  obtain ⟨place, found⟩ := search_ends taken count room start behind fits (room - start + 1) (by omega)
  have least := search_least taken count _ start place found
  refine ⟨place, ?_, least⟩
  by_contra beyond
  exact least.first room behind (by omega) fits

end FirstFit
