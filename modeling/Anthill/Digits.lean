import Mathlib.Data.Nat.Digits.Defs
import Mathlib.Data.Nat.Log

set_option autoImplicit false

namespace Digits

variable (b : Nat)

-- The digits of `n` from that of `b ^ k` down.
def topDigits : Nat → Nat → List Nat
  | 0, n => [n]
  | k + 1, n => n / b ^ (k + 1) :: topDigits k (n % b ^ (k + 1))

@[simp] theorem length_topDigits (k n : Nat) : (topDigits b k n).length = k + 1 := by
  induction k generalizing n with
  | zero => rfl
  | succ k ih => rw [topDigits, List.length_cons, ih]

theorem ofDigits_topDigits (k n : Nat) : Nat.ofDigits b (topDigits b k n).reverse = n := by
  induction k generalizing n with
  | zero => exact Nat.ofDigits_singleton
  | succ k ih =>
    rw [topDigits, Nat.ofDigits_reverse_cons, ih, length_topDigits]
    exact Nat.mod_add_div n _

variable {b}

theorem topDigits_lt (positive : 0 < b) (k n : Nat) (small : n < b ^ (k + 1)) : ∀ d ∈ topDigits b k n, d < b := by
  induction k generalizing n with
  | zero =>
    intro d member
    rw [List.mem_singleton.mp member]
    rwa [Nat.zero_add, Nat.pow_one] at small
  | succ k ih =>
    intro d member
    rcases List.mem_cons.mp member with rfl | later
    · refine Nat.div_lt_of_lt_mul ?_
      rwa [← Nat.pow_succ]
    · exact ih _ (Nat.mod_lt n (Nat.pow_pos positive)) d later

theorem head_topDigits (k n : Nat) : (topDigits b k n).head? = some (n / b ^ k) := by
  cases k with
  | zero => rw [Nat.pow_zero, Nat.div_one]; rfl
  | succ k => rfl

/-- The digits of a number, and none before them. -/
theorem topDigits_log (radix : 1 < b) (n : Nat) (nonzero : n ≠ 0) : topDigits b (Nat.log b n) n = (Nat.digits b n).reverse := by
  have small : n < b ^ (Nat.log b n + 1) := Nat.lt_pow_succ_log_self radix n
  have lt := topDigits_lt (Nat.zero_lt_of_lt radix) (Nat.log b n) n small
  have positive : 0 < n / b ^ Nat.log b n :=
    Nat.div_pos (Nat.pow_log_le_self b nonzero) (Nat.pow_pos (Nat.zero_lt_of_lt radix))
  have top (some_ : (topDigits b (Nat.log b n) n).reverse ≠ []) : (topDigits b (Nat.log b n) n).reverse.getLast some_ ≠ 0 := by
    have head := head_topDigits (b := b) (Nat.log b n) n
    rw [List.head?_eq_some_head (by simpa using some_)] at head
    rw [List.getLast_reverse, Option.some.inj head]
    exact positive.ne'
  have digits := Nat.digits_ofDigits b radix (topDigits b (Nat.log b n) n).reverse
    (fun d member => lt d (List.mem_reverse.mp member)) top
  rw [ofDigits_topDigits] at digits
  rw [digits, List.reverse_reverse]

end Digits
