import Mathlib.Data.List.TakeWhile
import Mathlib.Data.List.Basic

set_option autoImplicit false

namespace Spans

variable {α : Type} (p : α → Bool)

-- An element at `i` in a span, none before it.
def startsAt (s : List α) (i : Nat) : Bool := s[i]?.any p && (i == 0 || !s[i - 1]?.any p)

def spansFrom (s : List α) (i : Nat) : List (Nat × List α) :=
  ((List.range' i (s.length - i)).filter (startsAt p s)).map fun i => (i, (s.drop i).takeWhile p)

/-- The longest non-empty runs of elements with `p`, in their order and with their places. -/
def spans (s : List α) : List (Nat × List α) := spansFrom p s 0

theorem spansFrom_end (s : List α) (i : Nat) (beyond : s.length ≤ i) : spansFrom p s i = [] := by
  rw [spansFrom, Nat.sub_eq_zero_of_le beyond]
  rfl

theorem spansFrom_skip (s : List α) (i k : Nat) (le : i ≤ k) (inside : k ≤ s.length)
    (none : ∀ j, i ≤ j → j < k → startsAt p s j = false) : spansFrom p s i = spansFrom p s k := by
  have split : List.range' i (s.length - i) = List.range' i (k - i) ++ List.range' k (s.length - k) := by
    have whole := List.range'_append_1 (s := i) (m := k - i) (n := s.length - k)
    rw [show i + (k - i) = k by omega, show k - i + (s.length - k) = s.length - i by omega] at whole
    exact whole.symm
  have skipped : (List.range' i (k - i)).filter (startsAt p s) = [] := by
    refine List.filter_eq_nil_iff.mpr fun j member => ?_
    obtain ⟨low, high⟩ := List.mem_range'_1.mp member
    rw [none j low (by omega)]
    decide
  rw [spansFrom, split, List.filter_append, skipped, List.nil_append, spansFrom]

theorem startsAt_lt {s : List α} {i : Nat} (starts : startsAt p s i = true) : i < s.length := by
  by_contra beyond
  rw [startsAt, List.getElem?_eq_none (Nat.le_of_not_lt beyond)] at starts
  cases starts

theorem spansFrom_start {s : List α} {i : Nat} (starts : startsAt p s i = true) :
    spansFrom p s i = (i, (s.drop i).takeWhile p) :: spansFrom p s (i + 1) := by
  have inside := startsAt_lt p starts
  rw [spansFrom, show s.length - i = s.length - (i + 1) + 1 by omega, List.range'_succ,
    List.filter_cons_of_pos starts, List.map_cons, spansFrom]

theorem startsAt_of_mem {s : List α} {i j : Nat} {r : List α} (member : (j, r) ∈ spansFrom p s i) :
    startsAt p s j = true := by
  obtain ⟨k, there, is⟩ := List.mem_map.mp member
  cases is
  exact (List.mem_filter.mp there).2

section Element

variable (s : List α) (i : Nat)

theorem any_of_takeWhile (j : Nat) (within : j < ((s.drop i).takeWhile p).length) : s[i + j]?.any p = true := by
  have there : s[i + j]? = some ((s.drop i).takeWhile p)[j] := by
    rw [← List.getElem?_drop]
    exact List.prefix_iff_getElem?.mp (List.takeWhile_prefix p) j within
  have holds : p ((s.drop i).takeWhile p)[j] = true := List.mem_takeWhile_imp (List.getElem_mem within)
  rw [there]
  exact holds

theorem not_any_after : s[i + ((s.drop i).takeWhile p).length]?.any p = false := by
  have next : s[i + ((s.drop i).takeWhile p).length]? = ((s.drop i).dropWhile p).head? := by
    rw [List.head?_eq_getElem?, ← List.getElem?_drop]
    have parts : (s.drop i)[((s.drop i).takeWhile p).length]? =
        ((s.drop i).takeWhile p ++ (s.drop i).dropWhile p)[((s.drop i).takeWhile p).length]? := by
      rw [List.takeWhile_append_dropWhile]
    rw [parts, List.getElem?_append_right le_rfl, Nat.sub_self]
  rw [next]
  have stops := List.head?_dropWhile_not p (s.drop i)
  cases rest : (s.drop i).dropWhile p with
  | nil => rfl
  | cons c cs =>
    rw [rest] at stops
    simpa using stops

theorem length_takeWhile_drop : ((s.drop i).takeWhile p).length ≤ s.length - i := by
  rw [← List.length_drop]
  exact (List.takeWhile_prefix p).length_le

theorem not_any_not (c : Nat) (not : s[c]?.any (fun c => !p c) = true) : s[c]?.any p = false := by
  cases there : s[c]? with
  | none => rfl
  | some d =>
    rw [there] at not
    simpa using not

end Element

/-- What comes after a span, from the element that ends it on. -/
theorem spansFrom_span {s : List α} {i : Nat} (starts : startsAt p s i = true) :
    spansFrom p s i = (i, (s.drop i).takeWhile p) :: spansFrom p s (i + ((s.drop i).takeWhile p).length) := by
  have inside := startsAt_lt p starts
  have short := length_takeWhile_drop p s i
  have positive : 0 < ((s.drop i).takeWhile p).length := by
    by_contra none
    have after := not_any_after p s i
    rw [startsAt, Bool.and_eq_true] at starts
    rw [Nat.eq_zero_of_not_pos none, Nat.add_zero, starts.1] at after
    cases after
  rw [spansFrom_start p starts, spansFrom_skip p s (i + 1) (i + ((s.drop i).takeWhile p).length) (by omega) (by omega)]
  intro j low high
  have before := any_of_takeWhile p s i (j - 1 - i) (by omega)
  rw [show i + (j - 1 - i) = j - 1 by omega] at before
  have later : (j == 0) = false := beq_false_of_ne (by omega)
  rw [startsAt, before, later]
  cases s[j]?.any p <;> rfl

/-- From an element without `p` on the next span starts behind all of them. -/
theorem spansFrom_gap (s : List α) (i : Nat) (inside : i < s.length) (gap : s[i]?.any p = false) :
    let next := i + ((s.drop i).takeWhile fun c => !p c).length
    spansFrom p s i = spansFrom p s next ∧ (next < s.length → startsAt p s next = true) := by
  intro next
  have short := length_takeWhile_drop (fun c => !p c) s i
  have away (j : Nat) (low : i ≤ j) (high : j < next) : s[j]?.any p = false := by
    have there := any_of_takeWhile (fun c => !p c) s i (j - i) (by omega)
    rw [show i + (j - i) = j by omega] at there
    exact not_any_not p s j there
  have positive : i < next := by
    by_contra none
    have stop := not_any_after (fun c => !p c) s i
    rw [show i + ((s.drop i).takeWhile fun c => !p c).length = i by omega, List.getElem?_eq_getElem inside] at stop
    rw [List.getElem?_eq_getElem inside] at gap
    simp only [Option.any_some, Bool.not_eq_eq_eq_not, Bool.not_false] at stop gap
    rw [stop] at gap
    cases gap
  refine ⟨spansFrom_skip p s i next (by omega) (by omega) fun j low high => ?_, fun more => ?_⟩
  · rw [startsAt, away j low high]
    rfl
  · have stop := not_any_after (fun c => !p c) s i
    rw [List.getElem?_eq_getElem more] at stop
    rw [startsAt, away (next - 1) (by omega) (by omega), List.getElem?_eq_getElem more]
    simpa using stop

end Spans
