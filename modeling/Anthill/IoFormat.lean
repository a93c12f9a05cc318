import Anthill.Rendering

set_option autoImplicit false

namespace Anthill

open Bytes (Store)

def ioBufferSize : Nat := 1024

-- _char: what it counts, and io_buffer, which begins at address 0.
def ioChar (c : BitVec 8) (pos : Nat) (m : Cells) : Nat × Cells :=
  if ioBufferSize ≤ pos then (0, m) else (1, m.store pos c)

-- The loop of _string, for the characters before the terminator.
def ioString : List (BitVec 8) → Nat → Nat → Cells → Nat × Cells
  | [], _, written, m => (written, m)
  | c :: cs, pos, written, m =>
    let (n, m) := ioChar c (pos + written) m
    ioString cs pos (written + n) m

-- The second loop of _uint.
def ioDigits (base : Nat) : Nat → Nat → Nat → Nat → Nat → Cells → Nat × Cells
  | 0, _, _, _, written, m => (written, m)
  | fuel + 1, val, div, pos, written, m =>
    if div = 0 then (written, m)
    else
      let (n, m) := ioChar (digitChar (val / div)) (pos + written) m
      ioDigits base fuel (val % div) (div / base) pos (written + n) m

-- Both loops take at most one turn for each bit.
def ioUint (val : BitVec 64) (base pos : Nat) (m : Cells) : Nat × Cells :=
  ioDigits base 65 val.toNat (uintDiv val.toNat base 64 1) pos 0 m

def ioInt (val : BitVec 64) (base pos : Nat) (m : Cells) : Nat × Cells :=
  if val.slt 0 then
    let (sign, m) := if base = 10 then ioChar 0x2d pos m else (0, m)
    let (digits, m) := ioUint (-val) base (pos + sign) m
    (sign + digits, m)
  else ioUint val base pos m

-- One conversion of io_fmt: what it counts, the buffer, and the arguments that are left.
def ioConvert (text : BitVec 64 → List (BitVec 8)) (isLong : Bool) (c : BitVec 8) (args : List (BitVec 64)) (size : Nat)
    (m : Cells) : (Nat × Cells) × List (BitVec 64) :=
  let arg := args.headD 0
  let signed := if isLong then arg else (arg.setWidth 32).signExtend 64
  let unsigned := if isLong then arg else (arg.setWidth 32).setWidth 64
  if c = 0x63 then (ioChar (arg.setWidth 8) size m, args.tail)
  else if c = 0x69 ∨ c = 0x64 then (ioInt signed 10 size m, args.tail)
  else if c = 0x73 then (ioString (text arg) size 0 m, args.tail)
  else if c = 0x75 then (ioUint unsigned 10 size m, args.tail)
  else if c = 0x78 then (ioUint unsigned 16 size m, args.tail)
  else ((0, m), args)

-- The loop of io_fmt. The list holds what is in memory from the format on.
def ioFmtLoop (text : BitVec 64 → List (BitVec 8)) : List (BitVec 8) → List (BitVec 64) → Nat → Cells → Nat × Cells
  | [], _, size, m => (size, m)
  | [c], _, size, m =>
    if c = 0 ∨ c = 0x25 then (size, m)
    else
      let (n, m) := ioChar c size m
      (size + n, m)
  | c :: d :: rest, args, size, m =>
    if c = 0 then (size, m)
    else if c ≠ 0x25 then
      let (n, m) := ioChar c size m
      ioFmtLoop text (d :: rest) args (size + n) m
    else if d = 0x25 then
      let (n, m) := ioChar d size m
      ioFmtLoop text rest args (size + n) m
    else if d = 0x6c then
      match rest with
      | [] => (size, m)
      | e :: rest =>
        let ((n, m), args) := ioConvert text true e args size m
        ioFmtLoop text rest args (size + n) m
    else
      let ((n, m), args) := ioConvert text false d args size m
      ioFmtLoop text rest args (size + n) m

structure IoPrinted where
  result : Nat
  printed : List (BitVec 8)
  buffer : Cells

/-- io_fmt. At its end io_write passes the first `size` bytes of the buffer to the UART, and counts one more. -/
def ioFmt (text : BitVec 64 → List (BitVec 8)) (format : List (BitVec 8)) (args : List (BitVec 64)) (m : Cells) : IoPrinted :=
  let (size, m) := ioFmtLoop text format args 0 m
  ⟨size + 1, m.bytes.bytes 0 size, m⟩

/-- A part of io_fmt puts the characters behind a place in the buffer as formatter does with one of this size, and counts
those that it has room for. -/
def Prints (part : Nat → Cells → Nat × Cells) (chars : List (BitVec 8)) : Prop := ∀ pos m, pos ≤ ioBufferSize →
  part pos m = (min chars.length (ioBufferSize - pos), putChars m 0 pos ioBufferSize chars)

section Prints

variable (text : BitVec 64 → List (BitVec 8))

theorem putChars_full {m : Cells} {buffer loc : Nat} {n : Int} (full : n ≤ loc) (chars : List (BitVec 8)) :
    putChars m buffer loc n chars = m := by
  have none : (n - loc).toNat = 0 := by omega
  rw [putChars_eq, none, List.take_zero, Cells.memcpy, List.length_nil, List.range'_zero, List.append_nil]
  rfl

theorem putChars_append (m : Cells) (buffer loc : Nat) (n : Int) (xs ys : List (BitVec 8)) :
    putChars m buffer loc n (xs ++ ys) = putChars (putChars m buffer loc n xs) buffer (loc + xs.length) n ys := by
  induction xs generalizing m loc with
  | nil => rfl
  | cons x xs ih => rw [List.cons_append, putChars, ih, putChars, List.length_cons, Nat.add_right_comm, Nat.add_assoc]

-- A place that the characters before did not get to is at the end of the buffer.
theorem putChars_capped (m : Cells) {pos : Nat} (inside : pos ≤ ioBufferSize) (xs ys : List (BitVec 8)) :
    putChars (putChars m 0 pos ioBufferSize xs) 0 (pos + min xs.length (ioBufferSize - pos)) ioBufferSize ys =
      putChars m 0 pos ioBufferSize (xs ++ ys) := by
  rw [putChars_append]
  rcases Nat.le_total xs.length (ioBufferSize - pos) with fits | long
  · rw [Nat.min_eq_left fits]
  · have full (loc : Nat) (far : ioBufferSize ≤ loc) :
        putChars (putChars m 0 pos ioBufferSize xs) 0 loc ioBufferSize ys = putChars m 0 pos ioBufferSize xs :=
      putChars_full (by omega) ys
    rw [full _ (by omega), full _ (by omega)]

theorem ioChar_prints (c : BitVec 8) : Prints (ioChar c) [c] := by
  intro pos m inside
  rw [ioChar, putChars, putChars, List.length_singleton]
  split
  · next full =>
    rw [if_neg (by omega)]
    exact Prod.ext (by simp only; omega) rfl
  · next room =>
    rw [if_pos (by omega), Nat.zero_add]
    exact Prod.ext (by simp only; omega) rfl

theorem ioString_eq (cs : List (BitVec 8)) (pos written : Nat) (m : Cells) (inside : pos + written ≤ ioBufferSize) :
    ioString cs pos written m = (written + min cs.length (ioBufferSize - (pos + written)),
      putChars m 0 (pos + written) ioBufferSize cs) := by
  induction cs generalizing written m with
  | nil => simp [ioString, putChars]
  | cons c cs ih =>
    have first := ioChar_prints c (pos + written) m inside
    have capped := putChars_capped m inside [c] cs
    rw [List.length_singleton] at first capped
    rw [List.singleton_append] at capped
    rw [ioString, first]
    simp only
    rw [ih _ _ (by omega), ← Nat.add_assoc pos, capped, List.length_cons]
    exact Prod.ext (by simp only; omega) rfl

theorem ioDigits_eq (base fuel val div pos written : Nat) (m : Cells) :
    ioDigits base fuel val div pos written m = ioString (uintDigits base fuel val div) pos written m := by
  induction fuel generalizing val div written m with
  | zero => rfl
  | succ fuel ih =>
    rw [ioDigits, uintDigits]
    split
    · rfl
    · simp only [ioString]
      exact ih ..

theorem ioString_prints (cs : List (BitVec 8)) : Prints (fun pos m => ioString cs pos 0 m) cs := by
  intro pos m inside
  have is := ioString_eq cs pos 0 m inside
  rwa [Nat.zero_add] at is

theorem ioUint_prints (val : BitVec 64) (base : Nat) : Prints (ioUint val base) (uintChars val base) := by
  intro pos m inside
  rw [ioUint, ioDigits_eq]
  exact ioString_prints (uintChars val base) pos m inside

theorem ioInt_prints (val : BitVec 64) : Prints (ioInt val 10) (intChars val 10) := by
  intro pos m inside
  rw [ioInt, intChars]
  split
  · simp only [if_true]
    rw [ioChar_prints 0x2d pos m inside]
    simp only [List.length_singleton]
    rw [ioUint_prints (-val) 10 _ _ (by omega)]
    have capped := putChars_capped m inside [0x2d] (uintChars (-val) 10)
    rw [List.length_singleton] at capped
    simp only [capped, List.length_append, List.length_singleton]
    exact Prod.ext (by simp only; omega) rfl
  · exact ioUint_prints val 10 pos m inside

theorem ioConvert_prints (isLong : Bool) (c : BitVec 8) (args : List (BitVec 64)) :
    Prints (fun size m => (ioConvert text isLong c args size m).1) (convert text isLong c args).1 ∧
      ∀ size m, (ioConvert text isLong c args size m).2 = (convert text isLong c args).2 := by
  by_cases isChar : c = 0x63
  · simp only [ioConvert, convert, if_pos isChar]
    exact ⟨ioChar_prints _, fun _ _ => trivial⟩
  by_cases isText : c = 0x73
  · have other : ¬ (c = 0x69 ∨ c = 0x64) := by
      rw [isText]
      decide
    simp only [ioConvert, convert, if_neg isChar, if_pos isText, if_neg other]
    exact ⟨ioString_prints _, fun _ _ => trivial⟩
  by_cases isInt : c = 0x69 ∨ c = 0x64
  · simp only [ioConvert, convert, if_neg isChar, if_neg isText, if_pos isInt]
    exact ⟨ioInt_prints _, fun _ _ => trivial⟩
  simp only [ioConvert, convert, if_neg isChar, if_neg isText, if_neg isInt]
  by_cases isUint : c = 0x75
  · simp only [if_pos isUint]
    exact ⟨ioUint_prints _ 10, fun _ _ => trivial⟩
  by_cases isHex : c = 0x78
  · simp only [if_neg isUint, if_pos isHex]
    exact ⟨ioUint_prints _ 16, fun _ _ => trivial⟩
  simp only [if_neg isUint, if_neg isHex]
  refine ⟨fun pos m inside => ?_, fun _ _ => trivial⟩
  rw [putChars, List.length_nil, Nat.zero_min]

/-- The rest of io_fmt, from a size on. -/
def Ends (rest : Nat → Cells → Nat × Cells) (chars : List (BitVec 8)) : Prop := ∀ size m, size ≤ ioBufferSize →
  rest size m = (size + min chars.length (ioBufferSize - size), putChars m 0 size ioBufferSize chars)

theorem Prints.ends {part rest : Nat → Cells → Nat × Cells} {chars chars' : List (BitVec 8)} (prints : Prints part chars)
    (ends : Ends rest chars') :
    Ends (fun size m => rest (size + (part size m).1) (part size m).2) (chars ++ chars') := by
  intro size m inside
  simp only [prints size m inside]
  rw [ends _ _ (by omega), putChars_capped m inside, List.length_append]
  exact Prod.ext (by simp only; omega) rfl

theorem ends_nil : Ends (fun size m => (size, m)) [] := by
  intro size m inside
  rw [putChars, List.length_nil, Nat.zero_min, Nat.add_zero]

theorem ioFmtLoop_ends (format : List (BitVec 8)) (args : List (BitVec 64)) :
    Ends (ioFmtLoop text format args) (formatChars text format args) := by
  intro size m inside
  induction format, args using formatChars.induct text generalizing size m with
  | case1 args => exact ends_nil size m inside
  | case2 c args nothing =>
    simp only [ioFmtLoop, formatChars, if_pos nothing]
    exact ends_nil size m inside
  | case3 c args plain =>
    simp only [ioFmtLoop, formatChars, if_neg plain]
    exact (ioChar_prints c).ends ends_nil size m inside
  | case4 d rest args =>
    cases rest <;> exact ends_nil size m inside
  | case5 c d rest args some_ plain ih =>
    cases rest <;> simp only [ioFmtLoop, formatChars, if_neg some_, if_pos plain] <;>
      exact (ioChar_prints c).ends ih size m inside
  | case6 c rest args some_ percent ih =>
    cases rest <;> simp only [ioFmtLoop, formatChars, if_neg some_, if_neg percent, if_true] <;>
      exact (ioChar_prints 0x25).ends ih size m inside
  | case7 c args some_ percent other =>
    simp only [ioFmtLoop, formatChars, if_neg some_, if_neg percent, if_neg other, if_true]
    exact ends_nil size m inside
  | case8 c args some_ percent e rest chars args' converted other ih =>
    obtain ⟨prints, left⟩ := ioConvert_prints text true e args
    simp only [ioFmtLoop, formatChars, if_neg some_, if_neg percent, if_neg other, if_true, left, converted]
    rw [converted] at prints
    exact prints.ends ih size m inside
  | case9 c d rest args some_ percent other short chars args' converted ih =>
    obtain ⟨prints, left⟩ := ioConvert_prints text false d args
    rw [converted] at prints left
    cases rest <;>
      simp only [ioFmtLoop, formatChars, if_neg some_, if_neg percent, if_neg other, if_neg short, left, converted] <;>
      exact prints.ends ih size m inside

/-- Whatever the format, and however long what it stands for: io_fmt prints as many of its characters as the buffer holds,
and leaves in the buffer what formatter leaves in one of that size. Nothing else is stored, and the result is one more than
what is printed. -/
theorem io_fmt_truncates (format : List (BitVec 8)) (args : List (BitVec 64)) (m : Cells) :
    let chars := formatChars text format args
    let out := ioFmt text format args m
    out.printed = chars.take ioBufferSize ∧ out.result = (chars.take ioBufferSize).length + 1 ∧
      out.buffer = (formatter m text 0 format args ioBufferSize).2 ∧
      out.buffer.stores = m.stores ++ List.range (chars.take ioBufferSize).length ∧
      ∀ pieces behind rest, format = List.flatMap Piece.format pieces ++ 0 :: behind →
        args = List.flatMap Piece.slots pieces ++ rest →
        out.printed = (pieces.flatMap (Piece.rendering text)).take ioBufferSize := by
  intro chars out
  have looped := ioFmtLoop_ends text format args 0 m (Nat.zero_le _)
  have put := putChars_eq m 0 0 ioBufferSize chars
  have size : ((ioBufferSize : Int) - (0 : Nat)).toNat = ioBufferSize := rfl
  rw [size] at put
  have is : out = ⟨(chars.take ioBufferSize).length + 1,
      (m.bytes.write 0 (chars.take ioBufferSize)).bytes 0 (chars.take ioBufferSize).length,
      m.memcpy 0 (chars.take ioBufferSize)⟩ := by
    show ioFmt text format args m = _
    rw [ioFmt, looped]
    simp only
    rw [put, Nat.zero_add, Nat.sub_zero, Nat.min_comm, ← List.length_take]
    rfl
  rw [is]
  have printed := Store.bytes_write m.bytes 0 (chars.take ioBufferSize)
  refine ⟨printed, rfl, put.symm, ?_, ?_⟩
  · rw [Cells.memcpy, List.range_eq_range']
  · rintro pieces behind rest rfl rfl
    exact printed.trans (congrArg (List.take ioBufferSize) (formatChars_pieces text pieces behind rest))

end Prints

end Anthill
