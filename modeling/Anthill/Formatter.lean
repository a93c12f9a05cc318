import Anthill.Bytes

set_option autoImplicit false

namespace Anthill

open Bytes (Store)

/-- The memory of a process, and the addresses to which it has stored a byte. -/
structure Cells where
  bytes : Store
  stores : List Nat

def Cells.store (m : Cells) (a : Nat) (b : BitVec 8) : Cells := ⟨m.bytes.set a b, m.stores ++ [a]⟩

def Cells.memcpy (m : Cells) (dest : Nat) (bs : List (BitVec 8)) : Cells :=
  ⟨m.bytes.write dest bs, m.stores ++ List.range' dest bs.length⟩

-- _char for each character of a list, from location `loc` on.
def putChars (m : Cells) (buffer loc : Nat) (n : Int) : List (BitVec 8) → Cells
  | [] => m
  | c :: cs => putChars (if (loc : Int) < n then m.store (buffer + loc) c else m) buffer (loc + 1) n cs

-- The first loop of _uint. The product does not overflow: it is at most `val`.
def uintDiv (val base : Nat) : Nat → Nat → Nat
  | 0, div => div
  | fuel + 1, div => if base ≤ val / div then uintDiv val base fuel (div * base) else div

def digitChar (digit : Nat) : BitVec 8 := BitVec.ofNat 8 (if 10 ≤ digit then digit + 87 else digit + 48)

def uintDigits (base : Nat) : Nat → Nat → Nat → List (BitVec 8)
  | 0, _, _ => []
  | fuel + 1, val, div =>
    if div = 0 then [] else digitChar (val / div) :: uintDigits base fuel (val % div) (div / base)

-- The characters of _uint. Both loops take at most one turn for each bit.
def uintChars (val : BitVec 64) (base : Nat) : List (BitVec 8) :=
  uintDigits base 65 val.toNat (uintDiv val.toNat base 64 1)

-- The characters of _int. The least value is its own negation.
def intChars (val : BitVec 64) (base : Nat) : List (BitVec 8) :=
  if val.slt 0 then (if base = 10 then [0x2d] else []) ++ uintChars (-val) base else uintChars val base

-- One conversion of formatter, and the arguments that it leaves. Each argument has a slot of 64 bits, and
-- `text` is the string that a pointer leads to.
def convert (text : BitVec 64 → List (BitVec 8)) (isLong : Bool) (c : BitVec 8) (args : List (BitVec 64)) :
    List (BitVec 8) × List (BitVec 64) :=
  let arg := args.headD 0
  let signed := if isLong then arg else (arg.setWidth 32).signExtend 64
  let unsigned := if isLong then arg else (arg.setWidth 32).setWidth 64
  if c = 0x63 then ([arg.setWidth 8], args.tail)
  else if c = 0x73 then (text arg, args.tail)
  else if c = 0x69 ∨ c = 0x64 then (intChars signed 10, args.tail)
  else if c = 0x75 then (uintChars unsigned 10, args.tail)
  else if c = 0x78 then (uintChars unsigned 16, args.tail)
  else ([], args)

-- The characters that formatter passes to _char. The list holds what is in memory from the format on: a
-- terminator after '%' is skipped, and reading goes on behind it.
def formatChars (text : BitVec 64 → List (BitVec 8)) : List (BitVec 8) → List (BitVec 64) → List (BitVec 8)
  | [], _ => []
  | [c], _ => if c = 0 ∨ c = 0x25 then [] else [c]
  | c :: d :: rest, args =>
    if c = 0 then []
    else if c ≠ 0x25 then c :: formatChars text (d :: rest) args
    else if d = 0x25 then d :: formatChars text rest args
    else if d = 0x6c then
      match rest with
      | [] => []
      | e :: rest =>
        let (chars, args) := convert text true e args
        chars ++ formatChars text rest args
    else
      let (chars, args) := convert text false d args
      chars ++ formatChars text rest args

-- Two to the number of bits of an int.
def intModulus : Nat := 4294967296

-- The count is an int: an output of 2^31 characters or more is undefined.
def formatter (m : Cells) (text : BitVec 64 → List (BitVec 8)) (buffer : Nat) (format : List (BitVec 8))
    (args : List (BitVec 64)) (maxSize : Int) : Nat × Cells :=
  let chars := formatChars text format args
  (chars.length, putChars m buffer 0 (maxSize.bmod intModulus) chars)

theorem bmod_int (n : Int) (low : 0 ≤ n) (small : n < 2147483648) : n.bmod intModulus = n := by
  rw [Int.bmod_def, intModulus]
  omega

section Stores

variable (m : Cells) (buffer loc : Nat) (n : Int) (chars : List (BitVec 8))

/-- Only the part of the buffer from `loc` to `n` is stored to. -/
theorem putChars_stores (a : Nat) (member : a ∈ (putChars m buffer loc n chars).stores) :
    a ∈ m.stores ∨ buffer + loc ≤ a ∧ (a : Int) < buffer + n := by
  induction chars generalizing m loc with
  | nil => exact .inl member
  | cons c cs ih =>
    rw [putChars] at member
    rcases ih _ _ member with before | ⟨low, high⟩
    · split_ifs at before with inside
      · rcases List.mem_append.mp before with old | new
        · exact .inl old
        · obtain rfl := List.mem_singleton.mp new
          exact .inr ⟨le_rfl, by omega⟩
      · exact .inl before
    · exact .inr ⟨by omega, high⟩

/-- Characters that fit are all written. -/
theorem putChars_fits (fits : (loc + chars.length : Int) ≤ n) :
    (putChars m buffer loc n chars).bytes = m.bytes.write (buffer + loc) chars := by
  induction chars generalizing m loc with
  | nil => rfl
  | cons c cs ih =>
    rw [List.length_cons] at fits
    rw [putChars, if_pos (by omega), ih _ _ (by omega), Store.write, Nat.add_assoc]
    rfl

/-- What is below the location stays as it is. -/
theorem putChars_below (a : Nat) (below : a < buffer + loc) :
    (putChars m buffer loc n chars).bytes a = m.bytes a := by
  induction chars generalizing m loc with
  | nil => rfl
  | cons c cs ih =>
    rw [putChars, ih _ _ (by omega)]
    split_ifs with inside
    · exact if_neg (by omega)
    · rfl

end Stores

end Anthill
