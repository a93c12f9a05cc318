import Mathlib.Data.List.TakeWhile

set_option autoImplicit false

namespace Anthill

/-- The characters of a string, without its NUL. -/
abbrev CStr := { s : List (BitVec 8) // 0 ∉ s }

def chars (s : String) : List (BitVec 8) := s.toList.map fun c => BitVec.ofNat 8 c.toNat

-- The string functions are given what is in memory from the pointer on, as far as the end of the buffer, whose
-- next byte is a NUL.

def strcspn : List (BitVec 8) → List (BitVec 8) → Nat
  | [], _ => 0
  | c :: cs, s2 => if c = 0 ∨ s2.contains c then 0 else strcspn cs s2 + 1

def strspn : List (BitVec 8) → List (BitVec 8) → Nat
  | [], _ => 0
  | c :: cs, s2 => if c = 0 ∨ !s2.contains c then 0 else strspn cs s2 + 1

-- The loop of strrchr over the characters before the NUL, with the place found so far.
def strrchrFrom (c : BitVec 8) : Nat → Option Nat → List (BitVec 8) → Option Nat
  | _, pos, [] => pos
  | i, pos, ch :: s => strrchrFrom c (i + 1) (if ch = c then some i else pos) s

def strrchr (s : List (BitVec 8)) (c : BitVec 8) : Option Nat := strrchrFrom c 0 none s

theorem strcspn_eq (cs s2 : List (BitVec 8)) (nonzero : 0 ∉ cs) :
    strcspn cs s2 = (cs.takeWhile fun c => !s2.contains c).length := by
  induction cs with
  | nil => rfl
  | cons c cs ih =>
    obtain ⟨first, rest⟩ := List.ne_and_not_mem_of_not_mem_cons nonzero
    rw [strcspn, List.takeWhile_cons]
    cases found : s2.contains c
    · rw [if_neg (by rintro (zero | found) <;> [exact first zero.symm; cases found]), ih rest]
      rfl
    · rw [if_pos (.inr rfl)]
      rfl

theorem strspn_eq (cs s2 : List (BitVec 8)) (nonzero : 0 ∉ cs) :
    strspn cs s2 = (cs.takeWhile fun c => s2.contains c).length := by
  induction cs with
  | nil => rfl
  | cons c cs ih =>
    obtain ⟨first, rest⟩ := List.ne_and_not_mem_of_not_mem_cons nonzero
    rw [strspn, List.takeWhile_cons]
    cases found : s2.contains c
    · rw [if_pos (.inr rfl)]
      rfl
    · rw [if_neg (by rintro (zero | found) <;> [exact first zero.symm; cases found]), ih rest]
      rfl

theorem strrchrFrom_append (c : BitVec 8) (i : Nat) (pos : Option Nat) (s t : List (BitVec 8)) :
    strrchrFrom c i pos (s ++ t) = strrchrFrom c (i + s.length) (strrchrFrom c i pos s) t := by
  induction s generalizing i pos with
  | nil => rfl
  | cons ch s ih =>
    rw [List.cons_append, strrchrFrom, ih, List.length_cons, Nat.add_right_comm, Nat.add_assoc]
    rfl

theorem strrchrFrom_absent (c : BitVec 8) (i : Nat) (pos : Option Nat) (s : List (BitVec 8)) (absent : c ∉ s) :
    strrchrFrom c i pos s = pos := by
  induction s generalizing i with
  | nil => rfl
  | cons ch s ih =>
    obtain ⟨ne, rest⟩ := List.ne_and_not_mem_of_not_mem_cons absent
    rw [strrchrFrom, if_neg (Ne.symm ne), ih (i + 1) rest]

theorem strrchr_absent (s : List (BitVec 8)) (c : BitVec 8) (absent : c ∉ s) : strrchr s c = none :=
  strrchrFrom_absent c 0 none s absent

theorem strrchr_last (s t : List (BitVec 8)) (c : BitVec 8) (last : c ∉ t) : strrchr (s ++ c :: t) c = some s.length := by
  rw [strrchr, strrchrFrom_append, strrchrFrom, if_pos rfl, strrchrFrom_absent c _ _ t last, Nat.zero_add]

theorem exists_last_of_mem {c : BitVec 8} {s : List (BitVec 8)} (member : c ∈ s) :
    ∃ u t, s = u ++ c :: t ∧ c ∉ t := by
  obtain ⟨t, u, is, absent⟩ := List.eq_append_cons_of_mem (List.mem_reverse.mpr member)
  refine ⟨u.reverse, t.reverse, ?_, mt List.mem_reverse.mp absent⟩
  rw [← List.reverse_reverse s, is]
  simp

-- What is behind the last `c` of a string, or the string if there is none.
def afterLast (c : BitVec 8) (s : List (BitVec 8)) : List (BitVec 8) := (s.reverse.takeWhile (· ≠ c)).reverse

theorem afterLast_last (s t : List (BitVec 8)) (c : BitVec 8) (last : c ∉ t) : afterLast c (s ++ c :: t) = t := by
  have reversed : (s ++ c :: t).reverse = t.reverse ++ c :: s.reverse := by simp
  have all (a : BitVec 8) (ha : a ∈ t.reverse) : decide (a ≠ c) = true :=
    decide_eq_true (fun is => last (is ▸ List.mem_reverse.mp ha))
  rw [afterLast, reversed, List.takeWhile_append_of_pos all, List.takeWhile_cons_of_neg (by simp), List.append_nil,
    List.reverse_reverse]

end Anthill
