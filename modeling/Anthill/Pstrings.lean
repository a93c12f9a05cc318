import Anthill.FcallWire
import Anthill.PathSplit
import Anthill.RdStat
import Anthill.StringCopy

set_option autoImplicit false

namespace Anthill

open Bytes (Store split combine length_split combine_split)

def PstringAt (m : Store) (p : Nat) (s : List Byte) : Prop :=
  m.bytes p (shrtSize + s.length) = split (BitVec.ofNat 16 s.length) shrtSize ++ s

-- Regions that do not share a byte.
def Beside (a n b k : Nat) : Prop := a + n ≤ b ∨ b + k ≤ a

namespace Accessed

def short (t : Accessed) (a : Nat) (v : BitVec 16) : Accessed :=
  ⟨t.mem.write a (split v shrtSize), t.reads, t.writes ++ List.range' a shrtSize⟩

-- The loops over the characters. Their `i` is an unsigned short, so that there are less than 2^16 rounds.
def chars (bound : Store → Nat) (d s : Nat) : Nat → Nat → Accessed → Accessed
  | 0, _, t => t
  | rounds + 1, i, t => if i < bound t.mem then chars bound d s rounds (i + 1) (t.move (d + i) (s + i) 1) else t

variable (malloc : Nat → Nat)

-- The destination that is given, or memory for `size` bytes.
def target (dest size : Nat) : Nat := if dest ≠ 0 then dest else malloc size

def pstrconv (fuel : Nat) (t : Accessed) (dest src n : Nat) : Option (Nat × Accessed) :=
  (strlenAt t.mem fuel src).map fun len =>
    let size := len + shrtSize
    if shrtMax < len then (0, t)
    else if dest ≠ 0 ∧ n < size then (0, t)
    else
      let pstr := target malloc dest size
      if pstr = 0 then (0, t)
      else (pstr, chars (fun _ => len) (pstr + shrtSize) src (2 ^ 16) 0 (t.short pstr (BitVec.ofNat 16 len)))

def pstrdup (t : Accessed) (dest src n : Nat) : Nat × Accessed :=
  let size := pstrlen t.mem src
  if dest ≠ 0 ∧ n < size then (0, t)
  else
    let pstr := target malloc dest size
    if pstr = 0 then (0, t)
    else
      (pstr, chars (fun m => (getUshort m pstr).toNat) (pstr + shrtSize) (src + shrtSize) (2 ^ 16) 0
        (t.short pstr (getUshort t.mem src)))

def pstrtoz (t : Accessed) (dest src n : Nat) : Nat × Accessed :=
  if dest ≠ 0 ∧ n < (getUshort t.mem src).toNat then (0, t)
  else
    let str := target malloc dest ((getUshort t.mem src).toNat + 1)
    if str = 0 then (0, t)
    else
      let t := chars (fun m => (getUshort m src).toNat) str (src + shrtSize) (2 ^ 16) 0 t
      (str, t.put (str + (getUshort t.mem src).toNat) 0)

/-- A loop whose bound does not change moves the characters. -/
theorem chars_eq (bound : Store → Nat) (d s len : Nat) (t : Accessed) (apart : Beside d len s len) (rounds i : Nat)
    (steady : ∀ m : Store, (∀ x, x < d ∨ d + len ≤ x → m x = t.mem x) → bound m = len) (inside : i ≤ len)
    (enough : len - i < rounds) : chars bound d s rounds i t = t.move (d + i) (s + i) (len - i) := by
  induction rounds generalizing i t with
  | zero => omega
  | succ rounds ih =>
    rw [chars, steady t.mem fun _ _ => rfl]
    split_ifs with more
    · have others (x : Nat) (outside : x < d ∨ d + len ≤ x) : (t.move (d + i) (s + i) 1).mem x = t.mem x :=
        Store.write_outside _ _ _ _ (by rw [Store.length_bytes]; omega)
      have rest : len - i = 1 + (len - (i + 1)) := by omega
      rw [ih _ (i + 1) (fun m same => steady m fun x outside => (same x outside).trans (others x outside)) (by omega)
        (by omega), rest, ← Nat.add_assoc, ← Nat.add_assoc]
      exact t.move_move (by unfold Beside at apart; omega)
    · have whole : len - i = 0 := by omega
      rw [whole, move_zero]

section Strings

variable {t : Accessed} {s : List Byte} {dest src n p : Nat}

theorem headed (fits : Beside p (shrtSize + s.length) src s.length) (read : t.mem.bytes src s.length = s) :
    PstringAt ((t.short p (BitVec.ofNat 16 s.length)).move (p + shrtSize) src s.length).mem p s := by
  have header : (split (BitVec.ofNat 16 s.length) shrtSize).length = shrtSize := length_split _ _
  have same : (t.mem.write p (split (BitVec.ofNat 16 s.length) shrtSize)).bytes src s.length = s := by
    refine (Store.bytes_congr fun x low high => Store.write_outside _ _ _ _ ?_).trans read
    rw [header]
    unfold Beside at fits
    omega
  have written := t.mem.bytes_write p (split (BitVec.ofNat 16 s.length) shrtSize ++ s)
  rw [Store.write_append, List.length_append, header] at written
  rw [PstringAt, move, short, same]
  exact written

theorem terminated (read : t.mem.bytes src s.length = s) :
    StringAt ((t.move p src s.length).put (p + s.length) 0).mem p s := by
  have written := t.mem.bytes_write p (s ++ [0])
  rw [Store.write_append, List.length_append] at written
  rw [StringAt, put, move, read]
  exact written

end Strings

end Accessed

theorem PstringAt.len {m : Store} {p : Nat} {s : List Byte} (string : PstringAt m p s) (small : s.length ≤ shrtMax) :
    getUshort m p = BitVec.ofNat 16 s.length ∧ (getUshort m p).toNat = s.length := by
  have header : m.bytes p 2 = split (BitVec.ofNat 16 s.length) shrtSize := by
    have first := (Store.bytes_append string).1
    rwa [length_split] at first
  have value : getUshort m p = BitVec.ofNat 16 s.length := by
    rw [getUshort_eq, header]
    exact combine_split _ _ (BitVec.isLt _)
  have max : shrtMax = 32767 := rfl
  refine ⟨value, ?_⟩
  rw [value, BitVec.toNat_ofNat]
  omega

theorem PstringAt.chars {m : Store} {p : Nat} {s : List Byte} (string : PstringAt m p s) :
    m.bytes (p + shrtSize) s.length = s := by
  have rest := (Store.bytes_append string).2
  rwa [length_split] at rest

theorem StringAt.chars {m : Store} {p : Nat} {s : List Byte} (string : StringAt m p s) : m.bytes p s.length = s :=
  (Store.bytes_append string).1

namespace Accessed

section Calls

variable (malloc : Nat → Nat) {t : Accessed} {s : List Byte} {dest src n p : Nat} (small : s.length ≤ shrtMax)

include small

theorem pstrconv_null (nonzero : 0 ∉ s) (string : StringAt t.mem src s) {fuel : Nat} (enough : s.length < fuel)
    (fails : (dest ≠ 0 ∧ n < s.length + shrtSize) ∨ target malloc dest (s.length + shrtSize) = 0) :
    t.pstrconv malloc fuel dest src n = some (0, t) := by
  rw [pstrconv, strlenAt_eq nonzero string enough, Option.map_some, if_neg (Nat.not_lt.mpr small)]
  rcases fails with full | none
  · rw [if_pos full]
  · dsimp only
    rw [none, if_pos rfl, ite_self]

theorem pstrconv_eq (nonzero : 0 ∉ s) (string : StringAt t.mem src s) {fuel : Nat} (enough : s.length < fuel)
    (room : ¬ (dest ≠ 0 ∧ n < s.length + shrtSize)) (is : target malloc dest (s.length + shrtSize) = p) (some : p ≠ 0)
    (beside : Beside p (shrtSize + s.length) src s.length) : t.pstrconv malloc fuel dest src n =
      .some (p, (t.short p (BitVec.ofNat 16 s.length)).move (p + shrtSize) src s.length) := by
  have max : shrtMax = 32767 := rfl
  have apart : Beside (p + shrtSize) s.length src s.length := by
    unfold Beside at beside ⊢
    omega
  rw [pstrconv, strlenAt_eq nonzero string enough, Option.map_some, if_neg (Nat.not_lt.mpr small), if_neg room]
  dsimp only
  rw [is, if_neg some, chars_eq _ _ _ s.length _ apart _ 0 (fun _ _ => rfl) (Nat.zero_le _) (by omega)]
  rfl

/-- With a destination, what pstrconv puts there is the bytes that a stat is made with, and NULL where there are none. -/
theorem pstrconv_put (nonzero : 0 ∉ s) (string : StringAt t.mem src s) {fuel : Nat} (enough : s.length < fuel)
    (some_ : dest ≠ 0) (beside : Beside dest (shrtSize + s.length) src s.length) :
    (Anthill.pstrconv s n = none → t.pstrconv malloc fuel dest src n = some (0, t)) ∧
      ∀ bytes, Anthill.pstrconv s n = some bytes →
        ∃ t', t.pstrconv malloc fuel dest src n = some (dest, t') ∧ t'.mem.bytes dest bytes.length = bytes := by
  rw [Anthill.pstrconv, if_neg (Nat.not_lt.mpr small)]
  by_cases full : n < s.length + shrtSize
  · rw [if_pos full]
    exact ⟨fun _ => pstrconv_null malloc small nonzero string enough (.inl ⟨some_, full⟩),
      fun bytes is => absurd is.symm (Option.some_ne_none bytes)⟩
  · rw [if_neg full]
    have put := pstrconv_eq malloc small nonzero string enough (fun both => full both.2) (if_pos some_) some_ beside
    refine ⟨fun none_ => absurd none_ (Option.some_ne_none _), fun bytes is => ⟨_, put, ?_⟩⟩
    obtain rfl := Option.some.inj is
    rw [List.length_append, length_split]
    exact headed beside string.chars

theorem pstrdup_null (string : PstringAt t.mem src s)
    (fails : (dest ≠ 0 ∧ n < shrtSize + s.length) ∨ target malloc dest (shrtSize + s.length) = 0) :
    t.pstrdup malloc dest src n = (0, t) := by
  rw [pstrdup, pstrlen, (string.len small).2]
  dsimp only
  rcases fails with full | none
  · rw [if_pos full]
  · rw [none, if_pos rfl, ite_self]

theorem pstrdup_eq (string : PstringAt t.mem src s) (room : ¬ (dest ≠ 0 ∧ n < shrtSize + s.length))
    (is : target malloc dest (shrtSize + s.length) = p) (some : p ≠ 0)
    (beside : Beside p (shrtSize + s.length) src (shrtSize + s.length)) : t.pstrdup malloc dest src n =
      (p, (t.short p (BitVec.ofNat 16 s.length)).move (p + shrtSize) (src + shrtSize) s.length) := by
  have max : shrtMax = 32767 := rfl
  obtain ⟨value, len⟩ := string.len small
  have apart : Beside (p + shrtSize) s.length (src + shrtSize) s.length := by
    unfold Beside at beside ⊢
    omega
  have header : getUshort (t.short p (BitVec.ofNat 16 s.length)).mem p = BitVec.ofNat 16 s.length := by
    have written := t.mem.bytes_write p (split (BitVec.ofNat 16 s.length) shrtSize)
    rw [length_split] at written
    rw [getUshort_eq]
    exact (congrArg (combine 16) written).trans (combine_split _ _ (BitVec.isLt _))
  rw [pstrdup, pstrlen, len]
  dsimp only
  rw [if_neg room, is, if_neg some, value]
  refine congrArg (Prod.mk p) ((chars_eq _ _ _ s.length _ apart _ 0 (fun m same => ?_) (Nat.zero_le _) (by omega)).trans rfl)
  have kept : getUshort m p = BitVec.ofNat 16 s.length := by
    rw [← header, getUshort, getUshort, same p (.inl (by rw [shrtSize]; omega)), same (p + 1) (.inl (by rw [shrtSize]; omega))]
  rw [kept, ← value, len]

theorem pstrtoz_null (string : PstringAt t.mem src s)
    (fails : (dest ≠ 0 ∧ n < s.length) ∨ target malloc dest (s.length + 1) = 0) :
    t.pstrtoz malloc dest src n = (0, t) := by
  rw [pstrtoz, (string.len small).2]
  dsimp only
  rcases fails with full | none
  · rw [if_pos full]
  · rw [none, if_pos rfl, ite_self]

theorem pstrtoz_eq (string : PstringAt t.mem src s) (room : ¬ (dest ≠ 0 ∧ n < s.length))
    (is : target malloc dest (s.length + 1) = p) (some : p ≠ 0) (beside : Beside p s.length src (shrtSize + s.length)) :
    t.pstrtoz malloc dest src n = (p, (t.move p (src + shrtSize) s.length).put (p + s.length) 0) := by
  have max : shrtMax = 32767 := rfl
  obtain ⟨value, len⟩ := string.len small
  have apart : Beside p s.length (src + shrtSize) s.length := by
    unfold Beside at beside ⊢
    omega
  have steady (m : Store) (same : ∀ x, x < p ∨ p + s.length ≤ x → m x = t.mem x) :
      (getUshort m src).toNat = s.length := by
    have size : shrtSize = 2 := rfl
    unfold Beside at beside
    rw [← len, getUshort, getUshort, same src (by omega), same (src + 1) (by omega)]
  have moved : (t.move p (src + shrtSize) s.length).mem = t.mem.write p (t.mem.bytes (src + shrtSize) s.length) := rfl
  have looped := chars_eq _ p _ s.length t apart (2 ^ 16) 0 steady (Nat.zero_le _) (by omega)
  rw [Nat.add_zero, Nat.add_zero, Nat.sub_zero] at looped
  rw [pstrtoz, len]
  dsimp only
  rw [if_neg room, is, if_neg some, looped, steady _ fun x outside => ?_]
  rw [moved]
  exact Store.write_outside _ _ _ _ (by rwa [Store.length_bytes])

theorem pstrconv_some (nonzero : 0 ∉ s) (string : StringAt t.mem src s) {fuel : Nat} (enough : s.length < fuel)
    {t' : Accessed} (is : t.pstrconv malloc fuel dest src n = .some (p, t')) (some : p ≠ 0) :
    ¬ (dest ≠ 0 ∧ n < s.length + shrtSize) ∧ target malloc dest (s.length + shrtSize) = p := by
  rw [pstrconv, strlenAt_eq nonzero string enough, Option.map_some, if_neg (Nat.not_lt.mpr small)] at is
  dsimp only at is
  split_ifs at is with full none
  · exact absurd (Prod.mk.inj (Option.some.inj is)).1.symm some
  · exact absurd (Prod.mk.inj (Option.some.inj is)).1.symm some
  · exact ⟨full, (Prod.mk.inj (Option.some.inj is)).1⟩

theorem pstrdup_some (string : PstringAt t.mem src s) {t' : Accessed} (is : t.pstrdup malloc dest src n = (p, t'))
    (some : p ≠ 0) : ¬ (dest ≠ 0 ∧ n < shrtSize + s.length) ∧ target malloc dest (shrtSize + s.length) = p := by
  rw [pstrdup, pstrlen, (string.len small).2] at is
  dsimp only at is
  split_ifs at is with full none
  · exact absurd (Prod.mk.inj is).1.symm some
  · exact absurd (Prod.mk.inj is).1.symm some
  · exact ⟨full, (Prod.mk.inj is).1⟩

theorem pstrtoz_some (string : PstringAt t.mem src s) {t' : Accessed} (is : t.pstrtoz malloc dest src n = (p, t'))
    (some : p ≠ 0) : ¬ (dest ≠ 0 ∧ n < s.length) ∧ target malloc dest (s.length + 1) = p := by
  rw [pstrtoz, (string.len small).2] at is
  dsimp only at is
  split_ifs at is with full none
  · exact absurd (Prod.mk.inj is).1.symm some
  · exact absurd (Prod.mk.inj is).1.symm some
  · exact ⟨full, (Prod.mk.inj is).1⟩

end Calls

end Accessed

def Accessed.Inside (t : Accessed) (dest n : Nat) : Prop := ∀ a, a ∈ t.writes → dest ≤ a ∧ a < dest + n

/-- With room for `n` bytes at the destination nothing is written outside of them, and what comes out of the three
functions, wherever their results lie, is the string. -/
structure PstrKeeps (s : List Byte) (n : Nat) : Prop where
  conv : ∀ malloc m dest src, dest ≠ 0 → StringAt m src s → Beside dest n src (s.length + 1) →
    ∃ done, (∀ fuel, s.length < fuel → Accessed.pstrconv malloc fuel ⟨m, [], []⟩ dest src n = some done) ∧
      done.2.Inside dest n
  dup : ∀ malloc m dest src, dest ≠ 0 → PstringAt m src s → Beside dest n src (shrtSize + s.length) →
    (Accessed.pstrdup malloc ⟨m, [], []⟩ dest src n).2.Inside dest n
  toz : ∀ malloc m dest src, dest ≠ 0 → PstringAt m src s → Beside dest n src (shrtSize + s.length) →
    (Accessed.pstrtoz malloc ⟨m, [], []⟩ dest src n).2.Inside dest n
  back : ∀ malloc₁ malloc₂ malloc₃ (t : Accessed) dest₁ dest₂ dest₃ n₁ n₂ n₃ src fuel, StringAt t.mem src s →
    s.length < fuel → ∀ pstr t₁, t.pstrconv malloc₁ fuel dest₁ src n₁ = some (pstr, t₁) → pstr ≠ 0 →
      Beside pstr (shrtSize + s.length) src (s.length + 1) → ∀ copy t₂, t₁.pstrdup malloc₂ dest₂ pstr n₂ = (copy, t₂) →
        copy ≠ 0 → Beside copy (shrtSize + s.length) pstr (shrtSize + s.length) → ∀ str t₃,
          t₂.pstrtoz malloc₃ dest₃ copy n₃ = (str, t₃) → str ≠ 0 → Beside str (s.length + 1) copy (shrtSize + s.length) →
            StringAt t₃.mem str s ∧ pstrlen t₁.mem pstr = s.length + 2 ∧ pstrlen t₂.mem copy = s.length + 2

section Keeps

variable {s : List Byte} (small : s.length ≤ shrtMax)

include small

theorem pstr_back (nonzero : 0 ∉ s) {malloc₁ malloc₂ malloc₃ : Nat → Nat} {t t₁ t₂ t₃ : Accessed}
    {dest₁ dest₂ dest₃ n₁ n₂ n₃ src fuel pstr copy str : Nat} (string : StringAt t.mem src s) (enough : s.length < fuel)
    (conv : t.pstrconv malloc₁ fuel dest₁ src n₁ = some (pstr, t₁)) (somePstr : pstr ≠ 0)
    (besidePstr : Beside pstr (shrtSize + s.length) src (s.length + 1))
    (dup : t₁.pstrdup malloc₂ dest₂ pstr n₂ = (copy, t₂)) (someCopy : copy ≠ 0)
    (besideCopy : Beside copy (shrtSize + s.length) pstr (shrtSize + s.length))
    (toz : t₂.pstrtoz malloc₃ dest₃ copy n₃ = (str, t₃)) (someStr : str ≠ 0)
    (besideStr : Beside str (s.length + 1) copy (shrtSize + s.length)) :
    StringAt t₃.mem str s ∧ pstrlen t₁.mem pstr = s.length + 2 ∧ pstrlen t₂.mem copy = s.length + 2 := by
  have beside₁ : Beside pstr (shrtSize + s.length) src s.length := by
    unfold Beside at besidePstr ⊢
    omega
  obtain ⟨room₁, is₁⟩ := t.pstrconv_some malloc₁ small nonzero string enough conv somePstr
  rw [t.pstrconv_eq malloc₁ small nonzero string enough room₁ is₁ somePstr beside₁] at conv
  obtain ⟨-, rfl⟩ := Prod.mk.inj (Option.some.inj conv)
  have first := t.headed beside₁ string.chars
  obtain ⟨room₂, is₂⟩ := Accessed.pstrdup_some malloc₂ small first dup someCopy
  rw [Accessed.pstrdup_eq malloc₂ small first room₂ is₂ someCopy besideCopy] at dup
  obtain ⟨-, rfl⟩ := Prod.mk.inj dup
  have beside₂ : Beside copy (shrtSize + s.length) (pstr + shrtSize) s.length := by
    unfold Beside at besideCopy ⊢
    omega
  have beside₃ : Beside str s.length copy (shrtSize + s.length) := by
    unfold Beside at besideStr ⊢
    omega
  have second := Accessed.headed beside₂ first.chars
  obtain ⟨room₃, is₃⟩ := Accessed.pstrtoz_some malloc₃ small second toz someStr
  rw [Accessed.pstrtoz_eq malloc₃ small second room₃ is₃ someStr beside₃] at toz
  obtain ⟨-, rfl⟩ := Prod.mk.inj toz
  refine ⟨?_, ?_, ?_⟩
  · exact Accessed.terminated second.chars
  · rw [pstrlen, (first.len small).2, shrtSize, Nat.add_comm]
  · rw [pstrlen, (second.len small).2, shrtSize, Nat.add_comm]

theorem pstr_keeps (nonzero : 0 ∉ s) {n : Nat} (other : n ≠ s.length) : PstrKeeps s n where
  conv malloc m dest src some string beside := by
    have is : Accessed.target malloc dest (s.length + shrtSize) = dest := if_pos some
    by_cases room : n < s.length + shrtSize
    · refine ⟨(0, ⟨m, [], []⟩), fun fuel enough => ?_, fun a none => absurd none List.not_mem_nil⟩
      exact Accessed.pstrconv_null malloc small nonzero string enough (.inl ⟨some, room⟩)
    · have fits : Beside dest (shrtSize + s.length) src s.length := by
        unfold Beside at beside ⊢
        omega
      refine ⟨_, fun fuel enough => Accessed.pstrconv_eq malloc small nonzero string enough (fun full => room full.2) is some
        fits, fun a member => ?_⟩
      simp only [Accessed.move, Accessed.short, List.nil_append, List.mem_append, List.mem_range'_1] at member
      omega
  dup malloc m dest src some string beside := by
    have is : Accessed.target malloc dest (shrtSize + s.length) = dest := if_pos some
    by_cases room : n < shrtSize + s.length
    · rw [Accessed.pstrdup_null malloc small string (.inl ⟨some, room⟩)]
      exact fun a none => absurd none List.not_mem_nil
    · have fits : Beside dest (shrtSize + s.length) src (shrtSize + s.length) := by
        unfold Beside at beside ⊢
        omega
      rw [Accessed.pstrdup_eq malloc small string (fun full => room full.2) is some fits]
      intro a member
      simp only [Accessed.move, Accessed.short, List.nil_append, List.mem_append, List.mem_range'_1] at member
      omega
  toz malloc m dest src some string beside := by
    have is : Accessed.target malloc dest (s.length + 1) = dest := if_pos some
    by_cases room : n < s.length
    · rw [Accessed.pstrtoz_null malloc small string (.inl ⟨some, room⟩)]
      exact fun a none => absurd none List.not_mem_nil
    · have fits : Beside dest s.length src (shrtSize + s.length) := by
        unfold Beside at beside ⊢
        omega
      rw [Accessed.pstrtoz_eq malloc small string (fun full => room full.2) is some fits]
      intro a member
      simp only [Accessed.move, Accessed.put, List.nil_append, List.mem_append, List.mem_range'_1, List.mem_singleton]
        at member
      omega
  back malloc₁ malloc₂ malloc₃ t dest₁ dest₂ dest₃ n₁ n₂ n₃ src fuel string enough pstr t₁ conv somePstr besidePstr copy
      t₂ dup someCopy besideCopy str t₃ toz someStr besideStr :=
    pstr_back small nonzero string enough conv somePstr besidePstr dup someCopy besideCopy toz someStr besideStr

/-- With room for the characters only, pstrtoz puts the NUL behind the destination. -/
theorem pstrtoz_full : ¬ ∀ malloc m dest src, dest ≠ 0 → PstringAt m src s →
    Beside dest s.length src (shrtSize + s.length) →
      (Accessed.pstrtoz malloc ⟨m, [], []⟩ dest src s.length).2.Inside dest s.length := by
  intro all
  let m : Store := Store.write (fun _ => 0) 0 (split (BitVec.ofNat 16 s.length) shrtSize ++ s)
  have string : PstringAt m 0 s := by
    have written := Store.bytes_write (fun _ => 0) 0 (split (BitVec.ofNat 16 s.length) shrtSize ++ s)
    rwa [List.length_append, length_split] at written
  have some : shrtSize + s.length ≠ 0 := by
    rw [shrtSize]
    omega
  have beside : Beside (shrtSize + s.length) s.length 0 (shrtSize + s.length) := .inr (Nat.zero_add _).le
  have inside := all (fun _ => 0) m (shrtSize + s.length) 0 some string beside
  rw [Accessed.pstrtoz_eq _ small string (fun full => Nat.lt_irrefl _ full.2) (if_pos some) some beside] at inside
  have last := inside (shrtSize + s.length + s.length) (List.mem_append_right _ (List.mem_singleton_self _))
  omega

end Keeps

theorem pstr_keeps_iff (s : CStr) (small : s.1.length ≤ shrtMax) (n : Nat) : PstrKeeps s.1 n ↔ n ≠ s.1.length := by
  constructor
  · rintro keeps rfl
    exact pstrtoz_full small keeps.toz
  · exact pstr_keeps small s.2

-- A destination of 16 bytes for the name "vfs".
theorem pstr_keeps_vfs : PstrKeeps [118, 102, 115] 16 :=
  (pstr_keeps_iff ⟨[118, 102, 115], by decide⟩ (by decide) 16).mpr (by decide)

-- For "a" and its NUL pstrtoz is content with one byte.
theorem pstrtoz_one_byte : ¬ ∀ (s : CStr) (n : Nat), s.1.length ≤ shrtMax → PstrKeeps s.1 n := by
  intro all
  have keeps := all ⟨[97], by decide⟩ 1 (show [(97 : Byte)].length ≤ shrtMax by decide)
  exact pstrtoz_full (show [(97 : Byte)].length ≤ shrtMax by decide) keeps.toz

end Anthill
