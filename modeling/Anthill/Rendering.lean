import Anthill.Formatter
import Anthill.Digits

set_option autoImplicit false

namespace Anthill

open Bytes (Store)

-- _char for each character of a list. The location is an int: there is no result where it overflows.
def putCharsInt (m : Cells) (buffer : Nat) (loc n : Int) : List (BitVec 8) → Option (Int × Cells)
  | [] => some (loc, m)
  | c :: cs =>
    let stored := if loc < n then m.store (buffer + loc.toNat) c else m
    if loc = 2147483647 then none else putCharsInt stored buffer (loc + 1) n cs

/-- The formatter with the int that it counts in. -/
def formatterInt (m : Cells) (text : BitVec 64 → List (BitVec 8)) (buffer : Nat) (format : List (BitVec 8))
    (args : List (BitVec 64)) (maxSize : Nat) : Option (Int × Cells) :=
  putCharsInt m buffer 0 ((maxSize : Int).bmod intModulus) (formatChars text format args)

-- 0 to 9 and a to f.
def digitSymbols : List (BitVec 8) :=
  [0x30, 0x31, 0x32, 0x33, 0x34, 0x35, 0x36, 0x37, 0x38, 0x39, 0x61, 0x62, 0x63, 0x64, 0x65, 0x66]

/-- A number without leading zeros. -/
def rendered (base n : Nat) : List (BitVec 8) :=
  if n = 0 then [0x30] else (Nat.digits base n).reverse.map fun d => digitSymbols.getD d 0

def renderedInt (i : Int) : List (BitVec 8) := (if i < 0 then [0x2d] else []) ++ rendered 10 i.natAbs

/-- A character that stands for itself, or a conversion with what is in the slot of its argument. -/
inductive Piece where
  | literal (c : BitVec 8) (some_ : c ≠ 0) (plain : c ≠ 0x25)
  | percent
  | char (slot : BitVec 64)
  | string (slot : BitVec 64)
  | signed (isLong i : Bool) (slot : BitVec 64)
  | unsigned (isLong : Bool) (slot : BitVec 64)
  | hex (isLong : Bool) (slot : BitVec 64)

namespace Piece

def conversion (isLong : Bool) (c : BitVec 8) : List (BitVec 8) := if isLong then [0x25, 0x6c, c] else [0x25, c]

def format : Piece → List (BitVec 8)
  | literal c _ _ => [c]
  | percent => [0x25, 0x25]
  | char _ => conversion false 0x63
  | string _ => conversion false 0x73
  | signed isLong i _ => conversion isLong (if i then 0x69 else 0x64)
  | unsigned isLong _ => conversion isLong 0x75
  | hex isLong _ => conversion isLong 0x78

def slots : Piece → List (BitVec 64)
  | literal _ _ _ | percent => []
  | char slot | string slot | signed _ _ slot | unsigned _ slot | hex _ slot => [slot]

-- An int is the lower half of its slot.
def unsignedArg (isLong : Bool) (slot : BitVec 64) : Nat := if isLong then slot.toNat else (slot.setWidth 32).toNat

def signedArg (isLong : Bool) (slot : BitVec 64) : Int := if isLong then slot.toInt else (slot.setWidth 32).toInt

def rendering (text : BitVec 64 → List (BitVec 8)) : Piece → List (BitVec 8)
  | literal c _ _ => [c]
  | percent => [0x25]
  | char slot => [slot.setWidth 8]
  | string slot => text slot
  | signed isLong _ slot => renderedInt (signedArg isLong slot)
  | unsigned isLong slot => rendered 10 (unsignedArg isLong slot)
  | hex isLong slot => rendered 16 (unsignedArg isLong slot)

end Piece

section Digits

variable {base : Nat} (radix : base = 10 ∨ base = 16)

include radix

theorem digitChar_eq (d : Nat) (small : d < base) : digitChar d = digitSymbols.getD d 0 := by
  have symbols : ∀ d < 16, digitChar d = digitSymbols.getD d 0 := by decide
  exact symbols d (by omega)

theorem uintDiv_eq (val : Nat) (nonzero : val ≠ 0) (fuel k : Nat) (le : k ≤ Nat.log base val)
    (enough : Nat.log base val ≤ k + fuel) : uintDiv val base fuel (base ^ k) = base ^ Nat.log base val := by
  have big : 1 < base := by omega
  induction fuel generalizing k with
  | zero => rw [uintDiv, Nat.le_antisymm le enough]
  | succ fuel ih =>
    have more : base ≤ val / base ^ k ↔ k + 1 ≤ Nat.log base val := by
      rw [Nat.le_div_iff_mul_le (Nat.pow_pos (Nat.zero_lt_of_lt big)), ← Nat.pow_succ', Nat.le_log_iff_pow_le big nonzero]
    rw [uintDiv]
    split_ifs with step
    · rw [← Nat.pow_succ]
      exact ih (k + 1) (more.mp step) (by omega)
    · rw [Nat.le_antisymm le (by omega)]

theorem uintDigits_eq (val fuel k : Nat) (enough : k < fuel) (small : val < base ^ (k + 1)) :
    uintDigits base fuel val (base ^ k) = (Digits.topDigits base k val).map fun d => digitSymbols.getD d 0 := by
  have positive : 0 < base := by omega
  induction k generalizing val fuel with
  | zero =>
    obtain ⟨fuel, rfl⟩ := Nat.exists_eq_add_of_lt enough
    have last : (1 : Nat) / base = 0 := Nat.div_eq_of_lt (by omega)
    rw [Nat.pow_zero, uintDigits, if_neg Nat.one_ne_zero, last, Nat.div_one, digitChar_eq radix val (by simpa using small)]
    cases 0 + fuel <;> rfl
  | succ k ih =>
    obtain ⟨fuel, rfl⟩ := Nat.exists_eq_add_of_lt (Nat.zero_lt_of_lt enough)
    have power : 0 < base ^ (k + 1) := Nat.pow_pos positive
    have top : val / base ^ (k + 1) < base := Nat.div_lt_of_lt_mul (by rwa [← Nat.pow_succ])
    have lower : base ^ (k + 1) / base = base ^ k := by
      rw [Nat.pow_succ, Nat.mul_div_cancel _ positive]
    rw [uintDigits, if_neg power.ne', lower, ih _ _ (by omega) (Nat.mod_lt val power), digitChar_eq radix _ top]
    rfl

theorem uintChars_eq (val : BitVec 64) : uintChars val base = rendered base val.toNat := by
  have big : 1 < base := by omega
  rw [uintChars, rendered]
  split_ifs with zero
  · rw [zero]
    rcases radix with rfl | rfl <;> rfl
  · have few : Nat.log base val.toNat < 64 := by
      refine Nat.log_lt_of_lt_pow zero (val.isLt.trans_le ?_)
      exact Nat.pow_le_pow_left big 64
    have div := uintDiv_eq radix val.toNat zero 64 0 (Nat.zero_le _) (by omega)
    rw [Nat.pow_zero] at div
    rw [div, uintDigits_eq radix _ 65 _ (by omega) (Nat.lt_pow_succ_log_self big _), Digits.topDigits_log big _ zero]

end Digits

theorem intChars_eq (val : BitVec 64) : intChars val 10 = renderedInt val.toInt := by
  have sign : val.slt 0 = true ↔ val.toInt < 0 := by
    rw [BitVec.slt_iff_toInt_lt]
    rfl
  rw [intChars, renderedInt, uintChars_eq (.inl rfl), uintChars_eq (.inl rfl)]
  by_cases negative : val.toInt < 0
  · have abs : (-val).toNat = val.toInt.natAbs := by
      have is := BitVec.toInt_eq_toNat_cond val
      have small := val.isLt
      rw [BitVec.toNat_neg]
      split_ifs at is <;> omega
    rw [if_pos (sign.mpr negative), if_pos negative, if_pos rfl, abs]
  · have abs : val.toNat = val.toInt.natAbs := by
      have is := BitVec.toInt_eq_toNat_cond val
      split_ifs at is <;> omega
    rw [if_neg (mt sign.mp negative), if_neg negative, List.nil_append, abs]

section Formats

variable (text : BitVec 64 → List (BitVec 8))

theorem formatChars_plain (c : BitVec 8) (some_ : c ≠ 0) (plain : c ≠ 0x25) (d : BitVec 8) (rest : List (BitVec 8))
    (args : List (BitVec 64)) : formatChars text (c :: d :: rest) args = c :: formatChars text (d :: rest) args := by
  cases rest <;> exact (if_neg some_).trans (if_pos plain)

theorem formatChars_conversion (isLong : Bool) (c : BitVec 8) (other : c ≠ 0x25) (short : c ≠ 0x6c)
    (rest : List (BitVec 8)) (args : List (BitVec 64)) :
    formatChars text (Piece.conversion isLong c ++ rest) args =
      (convert text isLong c args).1 ++ formatChars text rest (convert text isLong c args).2 := by
  cases isLong
  · have percent : ¬ (0x25 : BitVec 8) = 0 ∧ ¬ (0x25 : BitVec 8) ≠ 0x25 := by decide
    cases rest <;> exact (if_neg percent.1).trans ((if_neg percent.2).trans ((if_neg other).trans (if_neg short)))
  · rfl

theorem toInt_signed (isLong : Bool) (slot : BitVec 64) :
    (if isLong then slot else (slot.setWidth 32).signExtend 64).toInt = Piece.signedArg isLong slot := by
  cases isLong
  · exact BitVec.toInt_signExtend_of_le (by decide)
  · rfl

theorem toNat_unsigned (isLong : Bool) (slot : BitVec 64) :
    (if isLong then slot else (slot.setWidth 32).setWidth 64).toNat = Piece.unsignedArg isLong slot := by
  cases isLong
  · exact BitVec.toNat_setWidth_of_le (by decide)
  · rfl

theorem formatChars_piece (piece : Piece) (d : BitVec 8) (rest : List (BitVec 8)) (args : List (BitVec 64)) :
    formatChars text (piece.format ++ d :: rest) (piece.slots ++ args) =
      piece.rendering text ++ formatChars text (d :: rest) args := by
  cases piece with
  | literal c some_ plain => exact formatChars_plain text c some_ plain d rest args
  | percent => rfl
  | char slot => exact formatChars_conversion text false 0x63 (by decide) (by decide) _ _
  | string slot => exact formatChars_conversion text false 0x73 (by decide) (by decide) _ _
  | signed isLong i slot =>
    rw [Piece.rendering, ← toInt_signed, ← intChars_eq]
    cases i <;> exact formatChars_conversion text isLong _ (by decide) (by decide) _ _
  | unsigned isLong slot =>
    rw [Piece.rendering, ← toNat_unsigned, ← uintChars_eq (.inl rfl)]
    exact formatChars_conversion text isLong _ (by decide) (by decide) _ _
  | hex isLong slot =>
    rw [Piece.rendering, ← toNat_unsigned, ← uintChars_eq (.inr rfl)]
    exact formatChars_conversion text isLong _ (by decide) (by decide) _ _

theorem formatChars_pieces (pieces : List Piece) (behind : List (BitVec 8)) (args : List (BitVec 64)) :
    formatChars text (pieces.flatMap Piece.format ++ 0 :: behind) (pieces.flatMap Piece.slots ++ args) =
      pieces.flatMap (Piece.rendering text) := by
  induction pieces with
  | nil =>
    have nul (args : List (BitVec 64)) : formatChars text (0 :: behind) args = [] := by
      match behind with
      | [] => rfl
      | [_] => rfl
      | _ :: _ :: _ => rfl
    exact nul args
  | cons piece pieces ih =>
    have next : ∃ d rest, pieces.flatMap Piece.format ++ 0 :: behind = d :: rest :=
      List.exists_cons_of_ne_nil (List.append_ne_nil_of_right_ne_nil _ (List.cons_ne_nil 0 behind))
    obtain ⟨d, rest, is⟩ := next
    rw [is] at ih
    rw [List.flatMap_cons, List.flatMap_cons, List.flatMap_cons, List.append_assoc, List.append_assoc, is,
      formatChars_piece, ih]

end Formats

section Stores

variable (m : Cells) (buffer : Nat)

/-- Of the characters those below `n` are stored, each once. -/
theorem putChars_eq (loc : Nat) (n : Int) (chars : List (BitVec 8)) :
    putChars m buffer loc n chars = m.memcpy (buffer + loc) (chars.take (n - loc).toNat) := by
  induction chars generalizing m loc with
  | nil =>
    rw [List.take_nil, putChars, Cells.memcpy, Store.write, List.length_nil, List.range'_zero, List.append_nil]
  | cons c cs ih =>
    rw [putChars, ih]
    split_ifs with inside
    · have more : (n - loc).toNat = (n - (loc + 1 : Nat)).toNat + 1 := by omega
      rw [more, List.take_succ_cons, Cells.memcpy, Cells.memcpy, Cells.store, Store.write, List.length_cons,
        List.range'_succ, List.append_assoc, List.singleton_append, Nat.add_assoc]
    · have none : (n - loc).toNat = 0 ∧ (n - (loc + 1 : Nat)).toNat = 0 := by omega
      rw [none.1, none.2, List.take_zero, List.take_zero, Cells.memcpy, Cells.memcpy]
      rfl

theorem putCharsInt_fits (loc : Nat) (n : Int) (chars : List (BitVec 8)) (fits : loc + chars.length < 2147483648) :
    putCharsInt m buffer loc n chars = some (((loc + chars.length : Nat) : Int), putChars m buffer loc n chars) := by
  induction chars generalizing m loc with
  | nil => rfl
  | cons c cs ih =>
    rw [List.length_cons] at fits ⊢
    have next := ih (if (loc : Int) < n then m.store (buffer + loc) c else m) (loc + 1) (by omega)
    rw [putCharsInt, if_neg (by omega), putChars]
    rw [Nat.add_right_comm] at next
    exact next

theorem putCharsInt_overflows (loc : Nat) (n : Int) (chars : List (BitVec 8)) (room : loc < 2147483648)
    (long : 2147483648 ≤ loc + chars.length) : putCharsInt m buffer loc n chars = none := by
  induction chars generalizing m loc with
  | nil =>
    rw [List.length_nil] at long
    omega
  | cons c cs ih =>
    rw [List.length_cons] at long
    rw [putCharsInt]
    by_cases max : (loc : Int) = 2147483647
    · exact if_pos max
    · rw [if_neg max]
      exact ih _ (loc + 1) (by omega) (by omega)

end Stores

/-- What the format stands for comes back as its length and is in the first `n` bytes of the buffer, as far as it fits;
nothing else is stored. -/
def Formats (m : Cells) (text : BitVec 64 → List (BitVec 8)) (buffer : Nat) (pieces : List Piece)
    (behind : List (BitVec 8)) (args : List (BitVec 64)) (n : Nat) : Prop :=
  let rendering := pieces.flatMap (Piece.rendering text)
  ∃ m', formatterInt m text buffer (pieces.flatMap Piece.format ++ 0 :: behind)
      (pieces.flatMap Piece.slots ++ args) n = some ((rendering.length : Int), m') ∧
    m'.stores = m.stores ++ List.range' buffer (min n rendering.length) ∧
    m'.bytes = m.bytes.write buffer (rendering.take n)

theorem formatter_renders (m : Cells) (text : BitVec 64 → List (BitVec 8)) (buffer : Nat) (pieces : List Piece)
    (behind : List (BitVec 8)) (args : List (BitVec 64)) (n : Nat) (small : n < 2147483648)
    (fits : (pieces.flatMap (Piece.rendering text)).length < 2147483648) :
    Formats m text buffer pieces behind args n := by
  have int : ((n : Int).bmod intModulus - (0 : Nat)).toNat = n := by
    rw [bmod_int n (by omega) (by omega)]
    omega
  have put := putCharsInt_fits m buffer 0 ((n : Int).bmod intModulus) _ (by rwa [Nat.zero_add])
  rw [putChars_eq, int, Nat.zero_add, Nat.add_zero] at put
  refine ⟨m.memcpy buffer ((pieces.flatMap (Piece.rendering text)).take n), ?_, ?_, rfl⟩
  · rw [formatterInt, formatChars_pieces]
    exact put
  · rw [Cells.memcpy, List.length_take]

-- The least long, cut off in its second digit.
theorem formatter_renders_min : Formats ⟨fun _ => 0, []⟩ (fun _ => []) 4096
    [.literal 0x3d (by decide) (by decide), .signed true false 0x8000000000000000] [] [] 4 :=
  formatter_renders _ _ _ _ [] [] 4 (by decide) (by decide)

theorem formatter_overflows : ¬ ∀ (m : Cells) (text : BitVec 64 → List (BitVec 8)) (buffer : Nat) (pieces : List Piece)
    (behind : List (BitVec 8)) (args : List (BitVec 64)) (n : Nat), n < 2147483648 →
    Formats m text buffer pieces behind args n := by
  intro formats
  obtain ⟨m', is, -⟩ := formats ⟨fun _ => 0, []⟩ (fun _ => List.replicate 2147483648 0x61) 0 [.string 0] [] [] 0 (by decide)
  have none := putCharsInt_overflows ⟨fun _ => 0, []⟩ 0 0 (((0 : Nat) : Int).bmod intModulus)
    (List.replicate 2147483648 0x61) (by decide) (by rw [List.length_replicate, Nat.zero_add])
  rw [formatterInt, formatChars_pieces, List.flatMap_singleton] at is
  cases none.symm.trans is

end Anthill
