import Anthill.Bytes

set_option autoImplicit false

namespace Anthill

open Bytes (Store)

/-- Memory, with the addresses that bytes have been copied from and written to, in their order. -/
structure Accessed where
  mem : Store
  reads : List Nat
  writes : List Nat

-- An assignment of `n` bytes.
def Accessed.move (t : Accessed) (d s n : Nat) : Accessed :=
  ⟨t.mem.write d (t.mem.bytes s n), t.reads ++ List.range' s n, t.writes ++ List.range' d n⟩

/-- The pointers that a copy has come to. -/
structure Copying where
  d : Nat
  s : Nat
  trace : Accessed

namespace Copying

-- sizeof(long)
def longBytes : Nat := 8

-- *d++ = *s++
def byte (c : Copying) : Copying := ⟨c.d + 1, c.s + 1, c.trace.move c.d c.s 1⟩

def word (c : Copying) : Copying := ⟨c.d + longBytes, c.s + longBytes, c.trace.move c.d c.s longBytes⟩

def bytes : Nat → Copying → Copying
  | 0, c => c
  | n + 1, c => bytes n c.byte

def switchCases : List (BitVec 64) := [0, 7, 6, 5, 4, 3, 2, 1]

-- Each case of the switch falls through to the next one.
def switch (c : Copying) (r : BitVec 64) : Copying := (switchCases.dropWhile (· ≠ r)).foldl (fun c _ => c.byte) c

-- The loop `while (--i)`.
def words : Nat → BitVec 64 → Copying → Option Copying
  | 0, _, _ => none
  | fuel + 1, i, c => if i - 1 = 0 then some c else words fuel (i - 1) c.word

end Copying

namespace Accessed

-- memcpy of the kernel, with the pointer that it returns.
def kernelMemcpy (t : Accessed) (dest src n : Nat) : Nat × Accessed := (dest, (Copying.bytes n ⟨dest, src, t⟩).trace)

-- memcpy of the library, for a loop of at most `fuel` rounds.
def memcpy (fuel : Nat) (t : Accessed) (s1 s2 : Nat) (n : BitVec 64) : Option (Nat × Accessed) :=
  if n = 0 then some (s1, t)
  else
    let i := (n + 8 - 1) / 8
    (Copying.words fuel i (Copying.switch ⟨s1, s2, t⟩ (n % 8))).map fun c => (s1, c.trace)

-- The loop of memmove from the end of the regions.
def moveBack (d s : Nat) : Nat → Accessed → Accessed
  | 0, t => t
  | n + 1, t => moveBack d s n (t.move (d + n) (s + n) 1)

def memmove (t : Accessed) (s1 s2 n : Nat) : Nat × Accessed :=
  if s2 = s1 then (s1, t)
  else if s1 < s2 then
    let c := Copying.bytes n ⟨s1, s2, t⟩
    (c.d, c.trace)
  else (s1, moveBack s1 s2 n t)

/-- The bytes are moved, no other changes, and the result is where they are. -/
structure Moves (t : Accessed) (s1 s2 n : Nat) (done : Nat × Accessed) : Prop where
  moved : done.2.mem.bytes s1 n = t.mem.bytes s2 n
  others : ∀ x, x < s1 ∨ s1 + n ≤ x → done.2.mem x = t.mem x
  result : done.1 = s1

theorem move_zero (t : Accessed) (d s : Nat) : t.move d s 0 = t := by
  simp [move, Store.bytes, Store.write]

/-- Two moves are one if the first does not write to what the second reads. -/
theorem move_move (t : Accessed) {d s a b : Nat} (apart : d ≤ s ∨ s + a + b ≤ d) :
    (t.move d s a).move (d + a) (s + a) b = t.move d s (a + b) := by
  have same : (t.mem.write d (t.mem.bytes s a)).bytes (s + a) b = t.mem.bytes (s + a) b := by
    refine Store.bytes_congr fun x low high => Store.write_outside _ _ _ _ ?_
    rw [Store.length_bytes]
    omega
  have whole : (t.mem.write d (t.mem.bytes s a)).write (d + a) (t.mem.bytes (s + a) b) =
      t.mem.write d (t.mem.bytes s (a + b)) := by
    rw [Store.bytes_add, Store.write_append, Store.length_bytes]
  rw [move, move, move, same, whole, List.append_assoc, List.append_assoc, List.range'_append_1, List.range'_append_1]

theorem moves_move (t : Accessed) (d s n : Nat) : Moves t d s n (d, t.move d s n) where
  moved := by
    have written := t.mem.bytes_write d (t.mem.bytes s n)
    rwa [Store.length_bytes] at written
  others x outside := by
    refine Store.write_outside _ _ _ _ ?_
    rwa [Store.length_bytes]
  result := rfl

end Accessed

namespace Copying

variable {d s : Nat} (t : Accessed)

/-- Copying from the front is a move unless a byte is written before it is read. -/
theorem bytes_eq (n : Nat) (apart : d ≤ s ∨ s + n ≤ d) : bytes n ⟨d, s, t⟩ = ⟨d + n, s + n, t.move d s n⟩ := by
  induction n generalizing d s t with
  | zero => rw [bytes, Accessed.move_zero, Nat.add_zero, Nat.add_zero]
  | succ n ih =>
    rw [bytes, byte]
    dsimp only
    rw [ih _ (by omega), t.move_move (by omega), Nat.add_assoc, Nat.add_assoc, Nat.add_comm 1 n]

theorem foldl_byte {A : Type} (l : List A) (c : Copying) : l.foldl (fun c _ => c.byte) c = bytes l.length c := by
  induction l generalizing c with
  | nil => rfl
  | cons a l ih => exact ih c.byte

-- The bytes that the switch copies.
def switched (n : Nat) : Nat := if n % 8 = 0 then 8 else n % 8

theorem length_cases (r : BitVec 64) (small : r.toNat < 8) :
    (switchCases.dropWhile (· ≠ r)).length = if r.toNat = 0 then 8 else r.toNat := by
  have all : ∀ k : Fin 8, (switchCases.dropWhile (· ≠ BitVec.ofNat 64 k.val)).length = if k.val = 0 then 8 else k.val := by
    decide
  have is : r = BitVec.ofNat 64 r.toNat := by rw [BitVec.ofNat_toNat, BitVec.setWidth_eq]
  rw [is]
  refine (all ⟨r.toNat, small⟩).trans ?_
  rw [← is]

theorem switch_eq (n : BitVec 64) (apart : d ≤ s ∨ s + switched n.toNat ≤ d) : switch ⟨d, s, t⟩ (n % 8) =
    ⟨d + switched n.toNat, s + switched n.toNat, t.move d s (switched n.toNat)⟩ := by
  have rest : (n % 8).toNat = n.toNat % 8 := BitVec.toNat_umod
  rw [switch, foldl_byte, length_cases _ (by omega), rest]
  exact bytes_eq t _ apart

theorem words_eq (fuel : Nat) (i : BitVec 64) (positive : 0 < i.toNat) (enough : i.toNat ≤ fuel)
    (apart : d ≤ s ∨ s + longBytes * (i.toNat - 1) ≤ d) : words fuel i ⟨d, s, t⟩ =
      some ⟨d + longBytes * (i.toNat - 1), s + longBytes * (i.toNat - 1), t.move d s (longBytes * (i.toNat - 1))⟩ := by
  induction fuel generalizing i d s t with
  | zero => omega
  | succ fuel ih =>
    have one : (1 : BitVec 64).toNat = 1 := rfl
    have less : (i - 1).toNat = i.toNat - 1 := by
      rw [BitVec.toNat_sub, one]
      omega
    rw [words]
    split_ifs with last
    · have none : i.toNat - 1 = 0 := less ▸ congrArg BitVec.toNat last
      rw [none, Nat.mul_zero, Nat.add_zero, Nat.add_zero, t.move_zero]
    · have more : i.toNat - 1 ≠ 0 := fun none => last (BitVec.eq_of_toNat_eq (less.trans none))
      have split : longBytes * (i.toNat - 1) = longBytes + longBytes * (i.toNat - 1 - 1) := by
        rw [longBytes]
        omega
      rw [word]
      dsimp only
      rw [ih _ (i - 1) (by omega) (by omega) (by rw [less]; omega), less, t.move_move (by omega), split, Nat.add_assoc,
        Nat.add_assoc]

end Copying

namespace Accessed

theorem switched_rest (n : Nat) (some : 0 < n) :
    Copying.switched n + Copying.longBytes * ((n + 8 - 1) / 8 - 1) = n := by
  rw [Copying.switched, Copying.longBytes]
  split_ifs <;> omega

/-- Both copy the whole region, byte for byte. -/
theorem memcpy_eq (t : Accessed) {s1 s2 : Nat} {n : BitVec 64} (apart : s1 + n.toNat ≤ s2 ∨ s2 + n.toNat ≤ s1)
    (space : s1 + n.toNat ≤ 2 ^ 64 ∧ s2 + n.toNat ≤ 2 ^ 64) (fuel : Nat) (enough : n.toNat / 8 < fuel) :
    t.memcpy fuel s1 s2 n = some (s1, t.move s1 s2 n.toNat) := by
  rw [memcpy]
  split_ifs with none
  · rw [none]
    exact congrArg some (Prod.ext rfl (t.move_zero s1 s2).symm)
  · have positive : 0 < n.toNat := Nat.pos_of_ne_zero fun zero => none (BitVec.eq_of_toNat_eq zero)
    have rounds : ((n + 8 - 1) / 8).toNat = (n.toNat + 8 - 1) / 8 := by
      have one : (1 : BitVec 64).toNat = 1 := rfl
      have eight : (8 : BitVec 64).toNat = 8 := rfl
      rw [BitVec.toNat_udiv, BitVec.toNat_sub, BitVec.toNat_add, one, eight]
      omega
    have whole := switched_rest n.toNat positive
    dsimp only
    rw [Copying.switch_eq t n (by omega), Copying.words_eq _ fuel _ (by omega) (by omega) (by rw [rounds]; omega), rounds,
      t.move_move (by omega), whole]
    rfl

theorem kernelMemcpy_eq (t : Accessed) {dest src n : Nat} (apart : dest + n ≤ src ∨ src + n ≤ dest) :
    t.kernelMemcpy dest src n = (dest, t.move dest src n) := by
  rw [kernelMemcpy, Copying.bytes_eq t n (by omega)]

/-- memcpy of the library does what the byte loop of the kernel does. -/
theorem memcpy_kernelMemcpy (t : Accessed) (s1 s2 : Nat) (n : BitVec 64)
    (apart : s1 + n.toNat ≤ s2 ∨ s2 + n.toNat ≤ s1) (space : s1 + n.toNat ≤ 2 ^ 64 ∧ s2 + n.toNat ≤ 2 ^ 64) :
    ∃ done, (∀ fuel, n.toNat / 8 < fuel → t.memcpy fuel s1 s2 n = some done) ∧
      t.kernelMemcpy s1 s2 n.toNat = done ∧ t.Moves s1 s2 n.toNat done ∧
      done.2.reads = t.reads ++ List.range' s2 n.toNat ∧ done.2.writes = t.writes ++ List.range' s1 n.toNat :=
  ⟨_, t.memcpy_eq apart space, t.kernelMemcpy_eq apart, t.moves_move s1 s2 n.toNat, rfl, rfl⟩

theorem moveBack_apply (d s n : Nat) (t : Accessed) (behind : s ≤ d) (x : Nat) :
    (moveBack d s n t).mem x = if d ≤ x ∧ x < d + n then t.mem (s + (x - d)) else t.mem x := by
  induction n generalizing t with
  | zero => rw [moveBack, if_neg (by omega)]
  | succ n ih =>
    have first (y : Nat) : (t.move (d + n) (s + n) 1).mem y = if y = d + n then t.mem (s + n) else t.mem y := rfl
    rw [moveBack, ih, first, first]
    by_cases inside : d ≤ x ∧ x < d + n
    · rw [if_pos inside, if_neg (by omega), if_pos (by omega)]
    · rw [if_neg inside]
      by_cases last : x = d + n
      · have place : s + (x - d) = s + n := by omega
        rw [if_pos last, if_pos (by omega), place]
      · rw [if_neg last, if_neg (by omega)]

theorem moves_back (t : Accessed) {d s : Nat} (n : Nat) (behind : s ≤ d) : t.Moves d s n (d, moveBack d s n t) where
  moved := by
    refine List.ext_getElem? fun i => ?_
    by_cases inside : i < n
    · have place : s + (d + i - d) = s + i := by omega
      rw [Store.bytes_get _ _ _ _ inside, Store.bytes_get _ _ _ _ inside, moveBack_apply d s n t behind,
        if_pos (by omega), place]
    · rw [List.getElem?_eq_none (by rw [Store.length_bytes]; omega), List.getElem?_eq_none (by rw [Store.length_bytes]; omega)]
  others x outside := by
    dsimp only
    rw [moveBack_apply d s n t behind, if_neg (by omega)]
  result := rfl

/-- memmove moves the bytes in every case, but returns the pointer that it has counted up. -/
theorem memmove_moves_iff (t : Accessed) (s1 s2 n : Nat) : t.Moves s1 s2 n (t.memmove s1 s2 n) ↔ s2 ≤ s1 ∨ n = 0 := by
  rw [memmove]
  split_ifs with same before
  · subst same
    exact ⟨fun _ => .inl (Nat.le_refl _), fun _ => ⟨rfl, fun _ _ => rfl, rfl⟩⟩
  · dsimp only
    rw [Copying.bytes_eq t n (.inl before.le)]
    constructor
    · intro moves
      have result : s1 + n = s1 := moves.result
      omega
    · rintro (behind | rfl)
      · omega
      · exact t.moves_move s1 s2 0
  · have behind : s2 ≤ s1 := by omega
    exact ⟨fun _ => .inl behind, fun _ => t.moves_back n behind⟩

end Accessed

def nothingTouched : Accessed := ⟨fun a => BitVec.ofNat 8 a, [], []⟩

-- Nine bytes: one by the switch, and a word.
theorem memcpy_kernelMemcpy_nine : ∃ done, (∀ fuel, 9 / 8 < fuel → nothingTouched.memcpy fuel 100 200 9 = some done) ∧
    nothingTouched.kernelMemcpy 100 200 9 = done ∧ nothingTouched.Moves 100 200 9 done ∧
    done.2.reads = nothingTouched.reads ++ List.range' 200 9 ∧ done.2.writes = nothingTouched.writes ++ List.range' 100 9 :=
  nothingTouched.memcpy_kernelMemcpy 100 200 9 (by decide) (by decide)

theorem memmove_forward : ¬ ∀ (t : Accessed) (s1 s2 n : Nat), t.Moves s1 s2 n (t.memmove s1 s2 n) := by
  intro all
  have result : (101 : Nat) = 100 := (all nothingTouched 100 101 1).result
  omega

end Anthill
