import Anthill.CString

set_option autoImplicit false

namespace Anthill

def isdigit (c : BitVec 8) : Bool := (c.toNat : Int) - 48 < 10

def isspace (c : BitVec 8) : Bool := c = 0x20 ∨ (c.toNat : Int) - 9 < 5

inductive StrtoxErrno where
  | einval
  | erange
deriving DecidableEq

/-- What a call returns, what it sets errno to, if it does, and what is at endptr behind it. -/
structure Strtox where
  value : BitVec 64
  errno : Option StrtoxErrno
  endptr : Option (List (BitVec 8))
deriving DecidableEq

-- A pointer into the string is what is in memory from there on, with the NUL. Reading behind it has no result.

def skipSpaces : List (BitVec 8) → Option (List (BitVec 8))
  | [] => none
  | c :: cs => if isspace c then skipSpaces cs else some (c :: cs)

def takeSign : List (BitVec 8) → BitVec 64 × List (BitVec 8)
  | [] => (1, [])
  | c :: cs => if c = 0x2d then (-1, cs) else if c = 0x2b then (1, cs) else (1, c :: cs)

-- The do loop, from its pointer on.
def scanDigits (res : BitVec 64) : List (BitVec 8) → Option (Except StrtoxErrno (BitVec 64 × List (BitVec 8)))
  | [] => none
  | c :: cs =>
    let next := res * 10 + BitVec.ofInt 64 (c.toNat - 48)
    if next < res then some (.error .erange)
    else match cs with
      | [] => none
      | d :: ds => if isdigit d then scanDigits next (d :: ds) else some (.ok (next, d :: ds))

def strtoxEnd (endptr : Option (List (BitVec 8))) (limit multiplier : BitVec 64) :
    Except StrtoxErrno (BitVec 64 × List (BitVec 8)) → Strtox
  | .error errno => ⟨0, some errno, endptr⟩
  | .ok (res, c) =>
    if limit < res then ⟨0, some .erange, endptr⟩ else ⟨res * multiplier, none, endptr.map fun _ => c⟩

def strtox (str : List (BitVec 8)) (endptr : Option (List (BitVec 8))) (base : BitVec 32) (limit : BitVec 64) :
    Option Strtox :=
  if ¬ (base = 0 ∨ base = 10) then some ⟨0, some .einval, endptr⟩
  else match skipSpaces str with
    | none => none
    | some c => match (takeSign c).2 with
      | [] => none
      | d :: ds =>
        if !isdigit d then some ⟨0, some .einval, endptr⟩
        else (scanDigits 0 (d :: ds)).map (strtoxEnd endptr limit (takeSign c).1)

def ulonglongMax : BitVec 64 := 0xffffffffffffffff

def llongMax : BitVec 64 := 0x7fffffffffffffff

def strtoull (str : List (BitVec 8)) (endptr : Option (List (BitVec 8))) (base : BitVec 32) : Option Strtox :=
  strtox str endptr base ulonglongMax

-- The value is a long long: its upper half stands for the negative numbers.
def strtoll (str : List (BitVec 8)) (endptr : Option (List (BitVec 8))) (base : BitVec 32) : Option Strtox :=
  strtox str endptr base llongMax

-- A long is a long long.
def strtol (str : List (BitVec 8)) (endptr : Option (List (BitVec 8))) (base : BitVec 32) : Option Strtox :=
  strtox str endptr base llongMax

def isWhite (c : BitVec 8) : Bool := c = 0x20 ∨ 9 ≤ c.toNat ∧ c.toNat ≤ 13

def isDecimal (c : BitVec 8) : Bool := 48 ≤ c.toNat ∧ c.toNat ≤ 57

/-- The number that digits stand for behind those of `v`. -/
def decimalFrom (v : Int) (cs : List (BitVec 8)) : Int := cs.foldl (fun v c => 10 * v + (c.toNat - 48)) v

/-- The residues modulo 2^64 of the numbers of the prefixes go down somewhere. -/
def Wraps (v : Int) (cs : List (BitVec 8)) : Prop :=
  ∃ k < cs.length, decimalFrom v (cs.take (k + 1)) % 18446744073709551616 < decimalFrom v (cs.take k) % 18446744073709551616

def unsign (s : List (BitVec 8)) : List (BitVec 8) :=
  if s.head? = some 0x2d ∨ s.head? = some 0x2b then s.tail else s

/-- A string by the grammar: white space, a sign, digits and the rest. -/
structure Numeral where
  negative : Bool
  digits : List (BitVec 8)
  rest : List (BitVec 8)

def numeral (s : List (BitVec 8)) : Numeral :=
  let t := s.dropWhile isWhite
  ⟨t.head? = some 0x2d, (unsign t).takeWhile isDecimal, (unsign t).dropWhile isDecimal⟩

def Numeral.value (n : Numeral) : Int := decimalFrom 0 n.digits

def negate (negative : Bool) (v : Int) : Int := if negative then -v else v

/-- A number that is not above the limit is read as it stands, a missing one is refused, and nothing is read behind
the NUL. -/
def Parses (s : CStr) (limit : BitVec 64) : Prop :=
  ∀ base : BitVec 32, base = 0 ∨ base = 10 → ∀ endptr, ∃ r, strtox (s.1 ++ [0]) endptr base limit = some r ∧
    ((numeral s.1).digits ≠ [] → (numeral s.1).value ≤ limit.toNat →
      r = ⟨BitVec.ofInt 64 (negate (numeral s.1).negative (numeral s.1).value), none,
        endptr.map fun _ => (numeral s.1).rest ++ [0]⟩) ∧
    ((numeral s.1).digits = [] → r.value = 0 ∧ r.errno = some .einval)

/-- What follows the number, or stands in its place, is above '9', or a number above the limit wraps before the end. -/
def Stops (s : CStr) (limit : BitVec 64) : Prop :=
  if (numeral s.1).digits = [] then (unsign (s.1.dropWhile isspace)).head?.any (fun c => !isdigit c) = true
  else if (numeral s.1).value ≤ limit.toNat then (numeral s.1).rest.head?.any (fun c => !isdigit c) = true
  else (∃ c ∈ (numeral s.1).rest, isdigit c = false) ∨ Wraps 0 ((numeral s.1).digits ++ (numeral s.1).rest ++ [0])

section Scan

theorem wraps_cons (v : Int) (c : BitVec 8) (cs : List (BitVec 8)) : Wraps v (c :: cs) ↔
    (10 * v + (c.toNat - 48)) % 18446744073709551616 < v % 18446744073709551616 ∨
      Wraps (10 * v + (c.toNat - 48)) cs := by
  constructor
  · rintro ⟨k, inside, down⟩
    cases k with
    | zero => exact .inl down
    | succ k => exact .inr ⟨k, Nat.lt_of_succ_lt_succ inside, down⟩
  · rintro (down | ⟨k, inside, down⟩)
    · exact ⟨0, Nat.succ_pos _, down⟩
    · exact ⟨k + 1, Nat.succ_lt_succ inside, down⟩

theorem not_wraps_nil (v : Int) : ¬ Wraps v [] := fun ⟨_, inside, _⟩ => absurd inside (Nat.not_lt_zero _)

/-- The step of the loop. -/
theorem scan_next (v : Int) (c : BitVec 8) : BitVec.ofInt 64 v * 10 + BitVec.ofInt 64 (c.toNat - 48) =
    BitVec.ofInt 64 (10 * v + (c.toNat - 48)) := by
  rw [BitVec.ofInt_add, BitVec.ofInt_mul, BitVec.mul_comm]
  rfl

theorem ofInt_lt (v w : Int) : BitVec.ofInt 64 v < BitVec.ofInt 64 w ↔
    v % 18446744073709551616 < w % 18446744073709551616 := by
  rw [BitVec.lt_def, BitVec.toNat_ofInt, BitVec.toNat_ofInt]
  omega

theorem scanDigits_down (v : Int) (c : BitVec 8) (cs : List (BitVec 8))
    (down : (10 * v + (c.toNat - 48)) % 18446744073709551616 < v % 18446744073709551616) :
    scanDigits (BitVec.ofInt 64 v) (c :: cs) = some (.error .erange) := by
  cases cs <;> rw [scanDigits, scan_next, if_pos ((ofInt_lt _ v).mpr down)]

theorem scanDigits_wraps (v : Int) (run rest : List (BitVec 8)) (digits : ∀ c ∈ run, isdigit c = true)
    (wraps : Wraps v run) : scanDigits (BitVec.ofInt 64 v) (run ++ rest) = some (.error .erange) := by
  induction run generalizing v with
  | nil => exact absurd wraps (not_wraps_nil v)
  | cons c cs ih =>
    by_cases down : (10 * v + (c.toNat - 48)) % 18446744073709551616 < v % 18446744073709551616
    · exact scanDigits_down v c (cs ++ rest) down
    · have later := ((wraps_cons v c cs).mp wraps).resolve_left down
      cases cs with
      | nil => exact absurd later (not_wraps_nil _)
      | cons d ds =>
        have digit : isdigit d = true := digits d (List.mem_cons_of_mem _ List.mem_cons_self)
        rw [List.cons_append, List.cons_append, scanDigits, scan_next, if_neg (mt (ofInt_lt _ v).mp down), if_pos digit]
        exact ih _ (fun e member => digits e (List.mem_cons_of_mem _ member)) later

theorem scanDigits_steady (v : Int) (run rest : List (BitVec 8)) (digits : ∀ c ∈ run, isdigit c = true)
    (some_ : run ≠ []) (stop : rest.head?.any isdigit = false) (steady : ¬ Wraps v run) :
    scanDigits (BitVec.ofInt 64 v) (run ++ rest) =
      if rest = [] then none else some (.ok (BitVec.ofInt 64 (decimalFrom v run), rest)) := by
  induction run generalizing v with
  | nil => exact absurd rfl some_
  | cons c cs ih =>
    obtain ⟨up, later⟩ := not_or.mp (mt (wraps_cons v c cs).mpr steady)
    cases cs with
    | nil =>
      cases rest with
      | nil => rw [List.append_nil, scanDigits, scan_next, if_neg (mt (ofInt_lt _ v).mp up), if_pos rfl]
      | cons d ds =>
        have other : ¬ isdigit d = true := Bool.eq_false_iff.mp stop
        rw [List.singleton_append, scanDigits, scan_next, if_neg (mt (ofInt_lt _ v).mp up), if_neg other,
          if_neg (List.cons_ne_nil _ _)]
        rfl
    | cons d ds =>
      have digit : isdigit d = true := digits d (List.mem_cons_of_mem _ List.mem_cons_self)
      rw [List.cons_append, List.cons_append, scanDigits, scan_next, if_neg (mt (ofInt_lt _ v).mp up), if_pos digit]
      exact ih _ (fun e member => digits e (List.mem_cons_of_mem _ member)) (List.cons_ne_nil _ _) later

theorem decimalFrom_grows (v : Int) (ds : List (BitVec 8)) (low : 0 ≤ v) (digits : ∀ c ∈ ds, isDecimal c = true) :
    v ≤ decimalFrom v ds := by
  induction ds generalizing v with
  | nil => exact Int.le_refl v
  | cons c cs ih =>
    have digit := of_decide_eq_true (digits c List.mem_cons_self)
    have grown := ih (10 * v + (c.toNat - 48)) (by omega) fun d member => digits d (List.mem_cons_of_mem _ member)
    have step : v ≤ 10 * v + (c.toNat - 48) := by omega
    exact Int.le_trans step grown

/-- Numbers below 2^64 do not wrap. -/
theorem decimal_steady (v : Int) (ds : List (BitVec 8)) (low : 0 ≤ v) (digits : ∀ c ∈ ds, isDecimal c = true)
    (small : decimalFrom v ds < 18446744073709551616) : ¬ Wraps v ds := by
  induction ds generalizing v with
  | nil => exact not_wraps_nil v
  | cons c cs ih =>
    have digit := of_decide_eq_true (digits c List.mem_cons_self)
    have others : ∀ d ∈ cs, isDecimal d = true := fun d member => digits d (List.mem_cons_of_mem _ member)
    have grown : 10 * v + (c.toNat - 48) ≤ decimalFrom v (c :: cs) :=
      decimalFrom_grows (10 * v + (c.toNat - 48)) cs (by omega) others
    rw [wraps_cons, Int.emod_eq_of_lt (by omega) (by omega), Int.emod_eq_of_lt low (by omega)]
    exact not_or.mpr ⟨by omega, ih _ (by omega) others small⟩

end Scan

section Grammar

theorem isdigit_of_isDecimal {c : BitVec 8} (decimal : isDecimal c = true) : isdigit c = true := by
  have digit := of_decide_eq_true decimal
  exact decide_eq_true (by omega)

theorem isspace_of_isDecimal {c : BitVec 8} (decimal : isDecimal c = true) : isspace c = false := by
  have digit := of_decide_eq_true decimal
  refine decide_eq_false fun space => ?_
  rcases space with blank | low
  · rw [blank] at digit
    revert digit
    decide
  · omega

theorem isspace_of_isWhite {c : BitVec 8} (white : isWhite c = true) : isspace c = true := by
  have space := of_decide_eq_true white
  exact decide_eq_true (space.imp_right fun inside => by omega)

theorem isDecimal_bare {c : BitVec 8} (decimal : isDecimal c = true) :
    ¬ isWhite c = true ∧ c ≠ 0x2d ∧ c ≠ 0x2b := by
  refine ⟨fun white => ?_, ?_, ?_⟩
  · cases (isspace_of_isDecimal decimal).symm.trans (isspace_of_isWhite white)
  · rintro rfl
    cases decimal
  · rintro rfl
    cases decimal

theorem skipSpaces_eq (s : List (BitVec 8)) : skipSpaces (s ++ [0]) =
    if s.dropWhile isspace = [] then none else some (s.dropWhile isspace ++ [0]) := by
  induction s with
  | nil => rfl
  | cons c cs ih =>
    rw [List.cons_append, skipSpaces, List.dropWhile_cons]
    by_cases space : isspace c = true
    · rw [if_pos space, if_pos space]
      exact ih
    · rw [if_neg space, if_neg space, if_neg (List.cons_ne_nil _ _)]
      rfl

theorem takeSign_eq (t : List (BitVec 8)) (some_ : t ≠ []) : takeSign (t ++ [0]) =
    (if t.head? = some 0x2d then -1 else 1, unsign t ++ [0]) := by
  cases t with
  | nil => exact absurd rfl some_
  | cons c cs =>
    by_cases minus : c = 0x2d
    · subst minus
      rfl
    · have other : ¬ (c :: cs).head? = some 0x2d := fun is => minus (Option.some.inj is)
      rw [List.cons_append, takeSign, if_neg minus, if_neg other]
      by_cases plus : c = 0x2b
      · subst plus
        rfl
      · have bare : ¬ ((c :: cs).head? = some 0x2d ∨ (c :: cs).head? = some 0x2b) :=
          fun is => is.elim other fun is => plus (Option.some.inj is)
        rw [if_neg plus, unsign, if_neg bare]
        rfl

theorem dropWhile_isspace (s : List (BitVec 8)) (stop : (s.dropWhile isWhite).head?.any isspace = false) :
    s.dropWhile isspace = s.dropWhile isWhite := by
  induction s with
  | nil => rfl
  | cons c cs ih =>
    by_cases white : isWhite c = true
    · rw [List.dropWhile_cons, if_pos white] at stop
      rw [List.dropWhile_cons, List.dropWhile_cons, if_pos white, if_pos (isspace_of_isWhite white)]
      exact ih stop
    · rw [List.dropWhile_cons, if_neg white] at stop
      have other : ¬ isspace c = true := Bool.eq_false_iff.mp stop
      rw [List.dropWhile_cons, List.dropWhile_cons, if_neg white, if_neg other]

theorem head_of_unsign (t : List (BitVec 8)) (digits : (unsign t).takeWhile isDecimal ≠ []) :
    t ≠ [] ∧ t.head?.any isspace = false ∧ ((unsign t).head?.any isdigit = true) := by
  have first : ∃ c cs, unsign t = c :: cs ∧ isDecimal c = true := by
    cases is : unsign t with
    | nil => exact absurd (by rw [is]; rfl) digits
    | cons c cs =>
      refine ⟨c, cs, rfl, ?_⟩
      by_contra other
      exact digits (by rw [is, List.takeWhile_cons, if_neg other])
  obtain ⟨c, cs, is, decimal⟩ := first
  refine ⟨fun none => ?_, ?_, by rw [is]; exact isdigit_of_isDecimal decimal⟩
  · subst none
    cases is
  · rw [unsign] at is
    split_ifs at is with sign
    · rcases sign with minus | plus
      · rw [minus]
        rfl
      · rw [plus]
        rfl
    · rw [is]
      exact isspace_of_isDecimal decimal

end Grammar

section Call

variable (s : List (BitVec 8)) (endptr : Option (List (BitVec 8))) {base : BitVec 32} (decimal : base = 0 ∨ base = 10)
  (limit : BitVec 64)

include decimal

theorem strtox_blank (blank : s.dropWhile isspace = []) : strtox (s ++ [0]) endptr base limit = none := by
  rw [strtox, if_neg (not_not_intro decimal), skipSpaces_eq, if_pos blank]

theorem strtox_other (other : (unsign (s.dropWhile isspace)).head?.any (fun c => !isdigit c) = true) :
    strtox (s ++ [0]) endptr base limit = some ⟨0, some .einval, endptr⟩ := by
  have some_ : s.dropWhile isspace ≠ [] := fun blank => by
    rw [blank] at other
    cases other
  rw [strtox, if_neg (not_not_intro decimal), skipSpaces_eq, if_neg some_]
  simp only [takeSign_eq _ some_]
  cases is : unsign (s.dropWhile isspace) with
  | nil =>
    rw [is] at other
    cases other
  | cons d ds =>
    rw [is] at other
    exact if_pos other

theorem strtox_scan (some_ : s.dropWhile isspace ≠ [])
    (digit : (unsign (s.dropWhile isspace)).head?.any (fun c => !isdigit c) = false) :
    strtox (s ++ [0]) endptr base limit = (scanDigits 0 (unsign (s.dropWhile isspace) ++ [0])).map
      (strtoxEnd endptr limit (if (s.dropWhile isspace).head? = some 0x2d then -1 else 1)) := by
  rw [strtox, if_neg (not_not_intro decimal), skipSpaces_eq, if_neg some_]
  simp only [takeSign_eq _ some_]
  cases is : unsign (s.dropWhile isspace) with
  | nil => rfl
  | cons d ds =>
    rw [is] at digit
    exact if_neg (Bool.eq_false_iff.mp digit)

theorem strtox_numeral (some_ : (numeral s).digits ≠ []) :
    strtox (s ++ [0]) endptr base limit = (scanDigits 0 ((numeral s).digits ++ ((numeral s).rest ++ [0]))).map
      (strtoxEnd endptr limit (if (numeral s).negative then -1 else 1)) := by
  obtain ⟨nonempty, solid, digit⟩ := head_of_unsign (s.dropWhile isWhite) some_
  have same := dropWhile_isspace s solid
  have parts : (numeral s).digits ++ (numeral s).rest = unsign (s.dropWhile isspace) := by
    rw [same]
    exact List.takeWhile_append_dropWhile
  have sign : (if (numeral s).negative then (-1 : BitVec 64) else 1) =
      if (s.dropWhile isspace).head? = some 0x2d then -1 else 1 := by
    rw [same]
    simp only [numeral, decide_eq_true_eq]
  rw [sign, ← List.append_assoc, parts]
  refine strtox_scan s endptr decimal limit (by rwa [same]) ?_
  rw [same]
  cases is : unsign (s.dropWhile isWhite) with
  | nil => rfl
  | cons d ds =>
    rw [is] at digit
    exact congrArg not digit

end Call

theorem scanDigits_error (res : BitVec 64) (cs : List (BitVec 8)) (errno : StrtoxErrno)
    (is : scanDigits res cs = some (.error errno)) : errno = .erange := by
  induction cs generalizing res with
  | nil => cases is
  | cons c cs ih =>
    cases cs with
    | nil =>
      rw [scanDigits] at is
      split_ifs at is
      cases is
      rfl
    | cons d ds =>
      rw [scanDigits] at is
      split_ifs at is
      · cases is
        rfl
      · exact ih _ is
      · cases is

theorem strtoxEnd_errno (endptr : Option (List (BitVec 8))) (limit multiplier res : BitVec 64) (cs : List (BitVec 8))
    (r : Strtox) (is : (scanDigits res cs).map (strtoxEnd endptr limit multiplier) = some r) :
    r.errno ≠ some .einval := by
  obtain ⟨scanned, there, rfl⟩ := Option.map_eq_some_iff.mp is
  cases scanned with
  | error errno =>
    rw [scanDigits_error res cs errno there]
    intro einval
    cases einval
  | ok found =>
    intro einval
    rw [strtoxEnd] at einval
    split_ifs at einval
    cases einval

section Digits

variable (s : List (BitVec 8))

theorem numeral_decimal (c : BitVec 8) (member : c ∈ (numeral s).digits) : isDecimal c = true :=
  List.mem_takeWhile_imp member

theorem numeral_digits (c : BitVec 8) (member : c ∈ (numeral s).digits) : isdigit c = true :=
  isdigit_of_isDecimal (numeral_decimal s c member)

theorem value_nonneg : 0 ≤ (numeral s).value :=
  decimalFrom_grows 0 _ (Int.le_refl 0) (numeral_decimal s)

theorem ofInt_limit (v : Int) (limit : BitVec 64) (low : 0 ≤ v) (small : v < 18446744073709551616) :
    limit < BitVec.ofInt 64 v ↔ (limit.toNat : Int) < v := by
  rw [BitVec.lt_def, BitVec.toNat_ofInt]
  omega

theorem ofInt_negate (v : Int) (negative : Bool) :
    BitVec.ofInt 64 v * (if negative then -1 else 1) = BitVec.ofInt 64 (negate negative v) := by
  cases negative
  · exact BitVec.mul_one _
  · have minus : (-1 : BitVec 64) = BitVec.ofInt 64 (-1) := rfl
    rw [if_pos rfl, minus, ← BitVec.ofInt_mul]
    exact congrArg _ (Int.mul_neg_one v)

end Digits

section Grammars

variable (s : CStr) (limit : BitVec 64)

theorem parses_missing (none : (numeral s.1).digits = []) :
    Parses s limit ↔ (unsign (s.1.dropWhile isspace)).head?.any (fun c => !isdigit c) = true := by
  constructor
  · intro parses
    obtain ⟨r, is, -, refused⟩ := parses 0 (.inl rfl) Option.none
    by_contra digit
    have errno := (refused none).2
    by_cases blank : s.1.dropWhile isspace = []
    · rw [strtox_blank s.1 _ (.inl rfl) limit blank] at is
      cases is
    · rw [strtox_scan s.1 _ (.inl rfl) limit blank (Bool.eq_false_iff.mpr digit)] at is
      exact strtoxEnd_errno _ _ _ _ _ r is errno
  · intro other base decimal endptr
    exact ⟨_, strtox_other s.1 endptr decimal limit other, fun some_ => absurd none some_, fun _ => ⟨rfl, rfl⟩⟩

theorem strtoxEnd_value (v : Int) (low : 0 ≤ v) (le : v ≤ limit.toNat) (negative : Bool)
    (endptr : Option (List (BitVec 8))) (c : List (BitVec 8)) :
    strtoxEnd endptr limit (if negative then -1 else 1) (.ok (BitVec.ofInt 64 v, c)) =
      ⟨BitVec.ofInt 64 (negate negative v), none, endptr.map fun _ => c⟩ := by
  have fits : ¬ limit < BitVec.ofInt 64 v := by
    have small := limit.isLt
    rw [ofInt_limit v limit low (by omega)]
    omega
  rw [strtoxEnd, if_neg fits, ofInt_negate]

theorem strtoxEnd_endptr (endptr : Option (List (BitVec 8))) (multiplier res : BitVec 64) (c : List (BitVec 8))
    (fine : (strtoxEnd endptr limit multiplier (.ok (res, c))).errno = none) :
    (strtoxEnd endptr limit multiplier (.ok (res, c))).endptr = endptr.map fun _ => c := by
  by_cases above : limit < res
  · rw [strtoxEnd, if_pos above] at fine
    cases fine
  · rw [strtoxEnd, if_neg above]

section Present

variable (some_ : (numeral s.1).digits ≠ [])

include some_

/-- Nothing above '9' follows: the scan takes in the NUL. -/
theorem strtox_open (digits : ∀ c ∈ (numeral s.1).rest, isdigit c = true) {base : BitVec 32}
    (decimal : base = 0 ∨ base = 10) (endptr : Option (List (BitVec 8))) :
    (Wraps 0 ((numeral s.1).digits ++ (numeral s.1).rest ++ [0]) →
      strtox (s.1 ++ [0]) endptr base limit = some ⟨0, some .erange, endptr⟩) ∧
    (¬ Wraps 0 ((numeral s.1).digits ++ (numeral s.1).rest ++ [0]) → strtox (s.1 ++ [0]) endptr base limit = none) := by
  have run : ∀ c ∈ (numeral s.1).digits ++ (numeral s.1).rest ++ [0], isdigit c = true := by
    intro c member
    rcases List.mem_append.mp member with text | nul
    · exact (List.mem_append.mp text).elim (numeral_digits s.1 c) (digits c)
    · rw [List.mem_singleton.mp nul]
      rfl
  have whole : (numeral s.1).digits ++ ((numeral s.1).rest ++ [0]) =
      (numeral s.1).digits ++ (numeral s.1).rest ++ [0] ++ [] := by
    rw [List.append_nil, List.append_assoc]
  rw [strtox_numeral s.1 endptr decimal limit some_, whole]
  constructor
  · intro wraps
    rw [show (0 : BitVec 64) = BitVec.ofInt 64 0 from rfl, scanDigits_wraps 0 _ [] run wraps]
    rfl
  · intro steady
    rw [show (0 : BitVec 64) = BitVec.ofInt 64 0 from rfl, scanDigits_steady 0 _ [] run (by simp) rfl steady]
    rfl

/-- Something above '9' follows: the scan stops at the first of it. -/
theorem strtox_closed (other : (numeral s.1).rest.dropWhile isdigit ≠ []) {base : BitVec 32}
    (decimal : base = 0 ∨ base = 10) (endptr : Option (List (BitVec 8))) :
    let run := (numeral s.1).digits ++ (numeral s.1).rest.takeWhile isdigit
    (Wraps 0 run → strtox (s.1 ++ [0]) endptr base limit = some ⟨0, some .erange, endptr⟩) ∧
    (¬ Wraps 0 run → strtox (s.1 ++ [0]) endptr base limit =
      some (strtoxEnd endptr limit (if (numeral s.1).negative then -1 else 1)
        (.ok (BitVec.ofInt 64 (decimalFrom 0 run), (numeral s.1).rest.dropWhile isdigit ++ [0])))) := by
  intro run
  have digits : ∀ c ∈ run, isdigit c = true := fun c member =>
    (List.mem_append.mp member).elim (numeral_digits s.1 c) List.mem_takeWhile_imp
  have whole : (numeral s.1).digits ++ ((numeral s.1).rest ++ [0]) =
      run ++ ((numeral s.1).rest.dropWhile isdigit ++ [0]) := by
    have parts := List.takeWhile_append_dropWhile (p := isdigit) (l := (numeral s.1).rest)
    rw [List.append_assoc, ← List.append_assoc (List.takeWhile _ _), parts]
  rw [strtox_numeral s.1 endptr decimal limit some_, whole]
  constructor
  · intro wraps
    rw [show (0 : BitVec 64) = BitVec.ofInt 64 0 from rfl, scanDigits_wraps 0 run _ digits wraps]
    rfl
  · intro steady
    have stop : ((numeral s.1).rest.dropWhile isdigit ++ [0]).head?.any isdigit = false := by
      have not := List.head?_dropWhile_not isdigit (numeral s.1).rest
      cases is : (numeral s.1).rest.dropWhile isdigit with
      | nil => exact absurd is other
      | cons c cs =>
        rw [is] at not
        simpa using not
    rw [show (0 : BitVec 64) = BitVec.ofInt 64 0 from rfl,
      scanDigits_steady 0 run _ digits (List.append_ne_nil_of_left_ne_nil some_ _) stop steady,
      if_neg (List.append_ne_nil_of_right_ne_nil _ (List.cons_ne_nil 0 []))]
    rfl

theorem parses_small (le : (numeral s.1).value ≤ limit.toNat) :
    Parses s limit ↔ (numeral s.1).rest.head?.any (fun c => !isdigit c) = true := by
  have small := limit.isLt
  constructor
  · intro parses
    obtain ⟨r, is, read, -⟩ := parses 0 (.inl rfl) (some [])
    have errno : r.errno = none := congrArg Strtox.errno (read some_ le)
    have ends : r.endptr = some ((numeral s.1).rest ++ [0]) := congrArg Strtox.endptr (read some_ le)
    by_cases other : (numeral s.1).rest.dropWhile isdigit = []
    · have digits := List.dropWhile_eq_nil_iff.mp other
      obtain ⟨wraps, steady⟩ := strtox_open s limit some_ digits (.inl rfl) (some [])
      by_cases w : Wraps 0 ((numeral s.1).digits ++ (numeral s.1).rest ++ [0])
      · obtain rfl := Option.some.inj ((wraps w).symm.trans is)
        cases errno
      · cases (steady w).symm.trans is
    · obtain ⟨wraps, steady⟩ := strtox_closed s limit some_ other (.inl rfl) (some [])
      by_cases w : Wraps 0 ((numeral s.1).digits ++ (numeral s.1).rest.takeWhile isdigit)
      · obtain rfl := Option.some.inj ((wraps w).symm.trans is)
        cases errno
      · -- The end pointer is behind the digits only where nothing more was scanned.
        obtain rfl := Option.some.inj ((steady w).symm.trans is)
        have same := List.append_cancel_right (Option.some.inj ((strtoxEnd_endptr limit _ _ _ _ errno).symm.trans ends))
        have not := List.head?_dropWhile_not isdigit (numeral s.1).rest
        rw [same] at not
        cases rest : (numeral s.1).rest with
        | nil => exact absurd (by rw [rest]; rfl) other
        | cons c cs =>
          rw [rest] at not
          simpa using not
  · intro other base decimal endptr
    cases rest : (numeral s.1).rest with
    | nil =>
      rw [rest] at other
      cases other
    | cons c cs =>
      rw [rest] at other
      have stop : ¬ isdigit c = true := by simpa using other
      have tail : (numeral s.1).rest.dropWhile isdigit = (numeral s.1).rest := by
        rw [rest, List.dropWhile_cons, if_neg stop]
      have none_ : (numeral s.1).rest.takeWhile isdigit = [] := by
        rw [rest, List.takeWhile_cons, if_neg stop]
      obtain ⟨-, steady⟩ := strtox_closed s limit some_ (by rw [tail, rest]; exact List.cons_ne_nil c cs) decimal endptr
      rw [none_, List.append_nil, tail] at steady
      have fits : decimalFrom 0 (numeral s.1).digits < 18446744073709551616 := by
        have le' : decimalFrom 0 (numeral s.1).digits ≤ limit.toNat := le
        omega
      have read := steady (decimal_steady 0 _ (Int.le_refl 0) (numeral_decimal s.1) fits)
      refine ⟨_, read, fun _ _ => ?_, fun missing => absurd missing some_⟩
      rw [← rest]
      exact strtoxEnd_value limit _ (value_nonneg s.1) le _ endptr _

theorem parses_large (above : ¬ (numeral s.1).value ≤ limit.toNat) : Parses s limit ↔
    (∃ c ∈ (numeral s.1).rest, isdigit c = false) ∨ Wraps 0 ((numeral s.1).digits ++ (numeral s.1).rest ++ [0]) := by
  by_cases other : (numeral s.1).rest.dropWhile isdigit = []
  · have digits := List.dropWhile_eq_nil_iff.mp other
    have no : ¬ ∃ c ∈ (numeral s.1).rest, isdigit c = false := by
      rintro ⟨c, member, not⟩
      rw [digits c member] at not
      cases not
    rw [or_iff_right no]
    constructor
    · intro parses
      obtain ⟨r, is, -⟩ := parses 0 (.inl rfl) none
      by_contra w
      rw [(strtox_open s limit some_ digits (.inl rfl) none).2 w] at is
      cases is
    · intro w base decimal endptr
      exact ⟨_, (strtox_open s limit some_ digits decimal endptr).1 w, fun _ le => absurd le above,
        fun missing => absurd missing some_⟩
  · have found : ∃ c ∈ (numeral s.1).rest, isdigit c = false := by
      by_contra none
      refine other (List.dropWhile_eq_nil_iff.mpr fun c member => ?_)
      by_contra not
      exact none ⟨c, member, Bool.eq_false_iff.mpr not⟩
    refine iff_of_true (fun base decimal endptr => ?_) (.inl found)
    obtain ⟨wraps, steady⟩ := strtox_closed s limit some_ other decimal endptr
    by_cases w : Wraps 0 ((numeral s.1).digits ++ (numeral s.1).rest.takeWhile isdigit)
    · exact ⟨_, wraps w, fun _ le => absurd le above, fun missing => absurd missing some_⟩
    · exact ⟨_, steady w, fun _ le => absurd le above, fun missing => absurd missing some_⟩

end Present

theorem strtox_parses_iff : Parses s limit ↔ Stops s limit := by
  rw [Stops]
  split_ifs with missing le
  · exact parses_missing s limit missing
  · exact parses_small s limit missing le
  · exact parses_large s limit missing le

end Grammars

theorem strtox_behind_nul : ¬ ∀ (s : CStr) (limit : BitVec 64), Parses s limit := by
  intro parses
  obtain ⟨r, is, -⟩ := parses ⟨[0x31, 0x32, 0x33], by decide⟩ ulonglongMax 0 (.inl rfl) none
  have behind : strtox [0x31, 0x32, 0x33, 0] none 0 ulonglongMax = none := by decide
  cases behind.symm.trans is

def isLetter (c : BitVec 8) : Bool := 65 ≤ c.toNat ∧ c.toNat ≤ 90 ∨ 97 ≤ c.toNat ∧ c.toNat ≤ 122

/-- A minus sign or none, decimal digits, a letter and whatever follows it. -/
structure LetteredNumber where
  negative : Bool
  digits : List (BitVec 8)
  some_ : digits ≠ []
  decimal : ∀ c ∈ digits, isDecimal c = true
  letter : BitVec 8
  isLetter : isLetter letter = true
  rest : CStr

/-- ERANGE exactly where the value does not fit, and the value elsewhere. -/
def Detects (call : Option Strtox) (fits : Prop) (read : BitVec 64 → Prop) : Prop :=
  ∃ r, call = some r ∧ (r.value = 0 ∧ r.errno = some .erange ↔ ¬ fits) ∧ (fits → read r.value)

namespace LetteredNumber

variable (n : LetteredNumber)

def text : List (BitVec 8) := (if n.negative then [0x2d] else []) ++ (n.digits ++ n.letter :: n.rest.1)

def value : Int := negate n.negative (decimalFrom 0 n.digits)

def FitsSigned : Prop := -9223372036854775808 ≤ n.value ∧ n.value ≤ 9223372036854775807

def DetectsOverflow : Prop := ∀ base : BitVec 32, base = 0 ∨ base = 10 → ∀ endptr,
  Detects (strtoull (n.text ++ [0]) endptr base) (n.value.natAbs ≤ 18446744073709551615)
    (fun value => (value.toNat : Int) = n.value % 18446744073709551616) ∧
  Detects (strtoll (n.text ++ [0]) endptr base) n.FitsSigned (fun value => value.toInt = n.value) ∧
  Detects (strtol (n.text ++ [0]) endptr base) n.FitsSigned (fun value => value.toInt = n.value)

theorem letter_high : 57 < n.letter.toNat := by
  have letter := of_decide_eq_true n.isLetter
  omega

theorem text_nonzero : 0 ∉ n.text := by
  have digit (c : BitVec 8) (member : c ∈ n.digits) : c ≠ 0 := by
    rintro rfl
    cases n.decimal 0 member
  have letter : n.letter ≠ 0 := by
    intro zero
    have high := n.letter_high
    rw [zero] at high
    cases high
  intro zero
  rcases List.mem_append.mp zero with sign | others
  · split_ifs at sign <;> simp at sign
  · rcases List.mem_append.mp others with among | behind
    · exact digit 0 among rfl
    · exact (List.mem_cons.mp behind).elim (fun is => letter is.symm) n.rest.2

def string : CStr := ⟨n.text, n.text_nonzero⟩

theorem numeral_text : numeral n.text = ⟨n.negative, n.digits, n.letter :: n.rest.1⟩ := by
  have letter : ¬ isDecimal n.letter = true := fun decimal => by
    have digit := of_decide_eq_true decimal
    have high := n.letter_high
    omega
  have split : (n.digits ++ n.letter :: n.rest.1).takeWhile isDecimal = n.digits ∧
      (n.digits ++ n.letter :: n.rest.1).dropWhile isDecimal = n.letter :: n.rest.1 := by
    rw [List.takeWhile_append_of_pos n.decimal, List.dropWhile_append_of_pos n.decimal, List.takeWhile_cons,
      List.dropWhile_cons, if_neg letter, if_neg letter, List.append_nil]
    exact ⟨rfl, rfl⟩
  have bare : n.text.dropWhile isWhite = n.text ∧ unsign n.text = n.digits ++ n.letter :: n.rest.1 ∧
      decide (n.text.head? = some 0x2d) = n.negative := by
    cases sign : n.negative
    · have text : n.text = n.digits ++ n.letter :: n.rest.1 := by
        rw [text, sign]
        rfl
      cases digits : n.digits with
      | nil => exact absurd digits n.some_
      | cons c cs =>
        obtain ⟨white, minus, plus⟩ := isDecimal_bare (n.decimal c (by rw [digits]; exact List.mem_cons_self))
        rw [text, digits, List.cons_append, List.dropWhile_cons, if_neg white]
        refine ⟨rfl, if_neg ?_, decide_eq_false fun is => minus (Option.some.inj is)⟩
        exact fun is => is.elim (fun is => minus (Option.some.inj is)) fun is => plus (Option.some.inj is)
    · have text : n.text = 0x2d :: (n.digits ++ n.letter :: n.rest.1) := by
        rw [text, sign]
        rfl
      rw [text]
      exact ⟨rfl, rfl, rfl⟩
  obtain ⟨skipped, unsigned, sign⟩ := bare
  simp only [numeral, skipped, unsigned, split.1, split.2, sign]

section Read

variable (limit : BitVec 64) {base : BitVec 32} (decimal : base = 0 ∨ base = 10) (endptr : Option (List (BitVec 8)))

include decimal

theorem strtox_eq : (Wraps 0 n.digits → strtox (n.text ++ [0]) endptr base limit = some ⟨0, some .erange, endptr⟩) ∧
    (¬ Wraps 0 n.digits → ∃ c, strtox (n.text ++ [0]) endptr base limit =
      some (strtoxEnd endptr limit (if n.negative then -1 else 1) (.ok (BitVec.ofInt 64 (decimalFrom 0 n.digits), c)))) := by
  have high : ¬ isdigit n.letter = true := fun low => by
    have digit := of_decide_eq_true low
    have letter := n.letter_high
    omega
  have is := n.numeral_text
  have some_ : (numeral n.string.1).digits ≠ [] := by
    rw [string, is]
    exact n.some_
  have closed := strtox_closed n.string limit some_
  simp only [string, is, List.dropWhile_cons, List.takeWhile_cons, if_neg high, List.append_nil] at closed
  obtain ⟨wraps, steady⟩ := closed (List.cons_ne_nil _ _) decimal endptr
  exact ⟨wraps, fun w => ⟨_, steady w⟩⟩

end Read

theorem digits_nonneg : 0 ≤ decimalFrom 0 n.digits := decimalFrom_grows 0 n.digits (Int.le_refl 0) n.decimal

theorem natAbs_value : (n.value.natAbs : Int) = decimalFrom 0 n.digits := by
  have low := n.digits_nonneg
  rw [value, negate]
  split_ifs <;> omega

/-- The digits are a number of 64 bits, or wrap on the way. -/
def Noticed : Prop := n.value.natAbs < 18446744073709551616 ∨ Wraps 0 n.digits

theorem steady_of_small (small : n.value.natAbs < 18446744073709551616) : ¬ Wraps 0 n.digits := by
  have same := n.natAbs_value
  exact decimal_steady 0 n.digits (Int.le_refl 0) n.decimal (by omega)

variable {base : BitVec 32} (decimal : base = 0 ∨ base = 10) (endptr : Option (List (BitVec 8)))

include decimal

theorem strtoull_detects_iff : Detects (strtoull (n.text ++ [0]) endptr base) (n.value.natAbs ≤ 18446744073709551615)
    (fun value => (value.toNat : Int) = n.value % 18446744073709551616) ↔ n.Noticed := by
  obtain ⟨wraps, steady⟩ := n.strtox_eq ulonglongMax decimal endptr
  have same := n.natAbs_value
  have low := n.digits_nonneg
  have max : ulonglongMax.toNat = 18446744073709551615 := rfl
  by_cases w : Wraps 0 n.digits
  · have large : ¬ n.value.natAbs ≤ 18446744073709551615 := fun small => n.steady_of_small (by omega) w
    exact iff_of_true ⟨_, wraps w, iff_of_true ⟨rfl, rfl⟩ large, fun fits => absurd fits large⟩ (.inr w)
  · obtain ⟨c, is⟩ := steady w
    rw [Noticed, or_iff_left w]
    constructor
    · rintro ⟨r, is', detects, -⟩
      obtain rfl := Option.some.inj (is.symm.trans is')
      by_contra large
      have errno := (detects.mpr (by omega)).2
      -- Nothing is above the limit.
      have fits : ¬ ulonglongMax < BitVec.ofInt 64 (decimalFrom 0 n.digits) := by
        have below := (BitVec.ofInt 64 (decimalFrom 0 n.digits)).isLt
        rw [BitVec.lt_def, max]
        omega
      rw [strtoxEnd, if_neg fits] at errno
      cases errno
    · intro small
      have le : decimalFrom 0 n.digits ≤ ulonglongMax.toNat := by
        rw [max]
        omega
      rw [strtoxEnd_value ulonglongMax _ low le] at is
      refine ⟨_, is, iff_of_false (fun erange => by cases erange.2) (by omega), fun _ => ?_⟩
      have nonneg := Int.emod_nonneg n.value (by decide : (18446744073709551616 : Int) ≠ 0)
      have read : ((BitVec.ofInt 64 n.value).toNat : Int) = n.value % 18446744073709551616 := by
        rw [BitVec.toNat_ofInt]
        exact Int.toNat_of_nonneg nonneg
      exact read

theorem strtoll_detects_iff (noticed : n.Noticed) : Detects (strtox (n.text ++ [0]) endptr base llongMax) n.FitsSigned
    (fun value => value.toInt = n.value) ↔ n.value ≠ -9223372036854775808 := by
  obtain ⟨wraps, steady⟩ := n.strtox_eq llongMax decimal endptr
  have same := n.natAbs_value
  have low := n.digits_nonneg
  have max : (llongMax.toNat : Int) = 9223372036854775807 := rfl
  by_cases w : Wraps 0 n.digits
  · have large : ¬ n.value.natAbs < 18446744073709551616 := fun small => n.steady_of_small small w
    have unfit : ¬ n.FitsSigned := fun fits => large (by have := fits.1; have := fits.2; omega)
    exact iff_of_true ⟨_, wraps w, iff_of_true ⟨rfl, rfl⟩ unfit, fun fits => absurd fits unfit⟩ (by omega)
  · have small := noticed.resolve_right w
    obtain ⟨c, is⟩ := steady w
    by_cases le : decimalFrom 0 n.digits ≤ llongMax.toNat
    · have fits : n.FitsSigned := ⟨by omega, by omega⟩
      rw [strtoxEnd_value llongMax _ low le] at is
      refine iff_of_true ⟨_, is, iff_of_false (fun erange => by cases erange.2) (not_not_intro fits), fun _ => ?_⟩ (by omega)
      have read : (BitVec.ofInt 64 n.value).toInt = n.value := by
        obtain ⟨lower, upper⟩ := fits
        rw [BitVec.toInt_ofInt]
        exact Int.bmod_eq_of_le lower (by omega)
      exact read
    · have above : llongMax < BitVec.ofInt 64 (decimalFrom 0 n.digits) := (ofInt_limit _ _ low (by omega)).mpr (by omega)
      rw [strtoxEnd, if_pos above] at is
      constructor
      · rintro ⟨r, is', detects, -⟩ least
        obtain rfl := Option.some.inj (is.symm.trans is')
        exact detects.mp ⟨rfl, rfl⟩ ⟨by omega, by omega⟩
      · intro other
        have unfit : ¬ n.FitsSigned := fun fits => by
          obtain ⟨lower, upper⟩ := fits
          omega
        exact ⟨_, is, iff_of_true ⟨rfl, rfl⟩ unfit, fun fits => absurd fits unfit⟩

omit decimal in
theorem detectsOverflow_iff : n.DetectsOverflow ↔ n.value ≠ -9223372036854775808 ∧ n.Noticed := by
  constructor
  · intro detects
    obtain ⟨unsigned, signed, -⟩ := detects 0 (.inl rfl) none
    have noticed := (n.strtoull_detects_iff (.inl rfl) none).mp unsigned
    exact ⟨(n.strtoll_detects_iff (.inl rfl) none noticed).mp signed, noticed⟩
  · rintro ⟨other, noticed⟩ base decimal endptr
    have signed := (n.strtoll_detects_iff decimal endptr noticed).mpr other
    exact ⟨(n.strtoull_detects_iff decimal endptr).mpr noticed, signed, signed⟩

end LetteredNumber

/-- 30000000000000000000, and an a. -/
def thirtyQuintillion : LetteredNumber where
  negative := false
  digits := 0x33 :: List.replicate 19 0x30
  some_ := List.cons_ne_nil _ _
  decimal := by decide
  letter := 0x61
  isLetter := by decide
  rest := ⟨[], by decide⟩

theorem overflow_missed : ¬ ∀ n : LetteredNumber, n.DetectsOverflow := by
  intro detects
  obtain ⟨⟨r, is, overflow, -⟩, -⟩ := detects thirtyQuintillion 0 (.inl rfl) none
  have read : strtoull (thirtyQuintillion.text ++ [0]) none 0 = some ⟨11553255926290448384, none, none⟩ := by decide
  obtain rfl := Option.some.inj (read.symm.trans is)
  have large : ¬ thirtyQuintillion.value.natAbs ≤ 18446744073709551615 := by decide
  cases (overflow.mpr large).2

end Anthill
