import Mathlib.Data.Fin.Basic
import Mathlib.Data.List.FinRange
import Mathlib.Data.Int.ModEq
import Mathlib.Logic.Function.Basic

set_option autoImplicit false

namespace Slots

variable {n : Nat} {A : Type}

/-- The search from the front of an array that each of the `for` loops makes. -/
def first (found : Fin n → Bool) : Option (Fin n) := (List.finRange n).find? found

theorem first_some (found : Fin n → Bool) (i : Fin n) (hit : first found = some i) :
    found i = true :=
  List.find?_some hit

theorem first_none (found : Fin n → Bool) : first found = none ↔ ∀ i, found i = false := by
  simp [first, List.find?_eq_none]

theorem first_least (found : Fin n → Bool) (i j : Fin n) (hit : first found = some i) (before : j < i) :
    found j = false := by
  obtain ⟨_, p, inside, here, misses⟩ := List.find?_eq_some_iff_getElem.mp hit
  rw [List.getElem_finRange] at here
  have place : p = i.val := congrArg Fin.val here
  have miss := misses j.val (place ▸ before)
  simpa using miss

-- The only slot that matches is the one found.
theorem first_unique (found : Fin n → Bool) (i : Fin n) (here : found i = true)
    (only : ∀ j, found j = true → j = i) : first found = some i := by
  cases hit : first found with
  | none => rw [(first_none found).mp hit i] at here; cases here
  | some j => rw [only j (first_some found j hit)]

end Slots

namespace Ring

variable {A : Type}

/-- The `count` elements of a ring of `cap` cells, from cell `start` on. -/
def contents (cells : Nat → A) (cap start count : Nat) : List A :=
  (List.range count).map fun i => cells ((start + i) % cap)

variable (cells : Nat → A) (cap start count : Nat)

@[simp] theorem contents_zero : contents cells cap start 0 = [] := rfl

@[simp] theorem contents_length : (contents cells cap start count).length = count := by
  simp [contents]

theorem contents_mod : contents cells cap (start % cap) count = contents cells cap start count := by
  simp [contents]

theorem contents_succ :
    contents cells cap start (count + 1) =
      contents cells cap start count ++ [cells ((start + count) % cap)] := by
  simp [contents, List.range_succ]

theorem contents_cons :
    contents cells cap start (count + 1) =
      cells (start % cap) :: contents cells cap (start + 1) count := by
  simp only [contents, List.range_succ_eq_map, List.map_cons, List.map_map, Nat.add_zero]
  congr 1
  apply List.map_congr_left
  intro i _
  show cells ((start + (i + 1)) % cap) = cells ((start + 1 + i) % cap)
  rw [Nat.add_assoc, Nat.add_comm 1 i]

theorem contents_congr (cells' : Nat → A)
    (same : ∀ i, i < count → cells' ((start + i) % cap) = cells ((start + i) % cap)) :
    contents cells' cap start count = contents cells cap start count :=
  List.map_congr_left fun i inside => same i (List.mem_range.mp inside)

-- Two places of the ring that are less than a round apart are different cells.
theorem place_ne (i j : Nat) (before : i < j) (round : j - i < cap) :
    (start + i) % cap ≠ (start + j) % cap := by
  intro same
  have apart : (start + j) - (start + i) = j - i := by omega
  have divides := (Nat.modEq_iff_dvd' (by omega : start + i ≤ start + j)).mp same
  rw [apart] at divides
  have := Nat.le_of_dvd (by omega) divides
  omega

/-- A write behind the last element appends it. -/
theorem contents_push (x : A) (room : count < cap) :
    contents (Function.update cells ((start + count) % cap) x) cap start (count + 1) =
      contents cells cap start count ++ [x] := by
  rw [contents_succ, Function.update_self]
  congr 1
  refine contents_congr cells cap start count _ fun i inside => ?_
  exact Function.update_of_ne (place_ne cap start i count inside (by omega)) _ _

end Ring
