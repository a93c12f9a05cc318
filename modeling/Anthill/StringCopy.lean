import Anthill.CString
import Anthill.Copying
import Anthill.Msgbuf

set_option autoImplicit false

namespace Anthill

open Bytes (Store)

def StringAt (m : Store) (a : Nat) (s : List (BitVec 8)) : Prop := m.bytes a (s.length + 1) = s ++ [0]

-- strlen of a string of less than `fuel` characters.
def strlenAt (m : Store) : Nat → Nat → Option Nat
  | 0, _ => none
  | fuel + 1, s => if m s = 0 then some 0 else (strlenAt m fuel (s + 1)).map (· + 1)

-- The loop `while (size-- && *s)`.
def Copying.string : Nat → Copying → Copying
  | 0, c => c
  | size + 1, c => if c.trace.mem c.s = 0 then c else Copying.string size c.byte

def Accessed.put (t : Accessed) (a : Nat) (b : BitVec 8) : Accessed := ⟨t.mem.set a b, t.reads, t.writes ++ [a]⟩

def Accessed.strlcpy (fuel : Nat) (t : Accessed) (dst src size : Nat) : Option (Nat × Accessed) :=
  let c := Copying.string size ⟨dst, src, t⟩
  let t := c.trace.put c.d 0
  (strlenAt t.mem fuel src).map fun len => (len, t)

-- The last lines of _msgbuf_alloc, for the message buffer at `slot`, whose name is its first field.
def Accessed.nameSlot (fuel : Nat) (t : Accessed) (slot name : Nat) : Option (KernErr × Accessed) :=
  (t.strlcpy fuel slot name msbNameMax).map fun done =>
    if msbNameMax < done.1 then (.msbNam, done.2.put slot 0) else (.ok, done.2)

/-- All that has been written is in the `size` bytes from `dst` on, which hold as much of the string as fits, and its
NUL, and the result is the length of the string. -/
structure StrlcpyKeeps (s : List (BitVec 8)) (dst size : Nat) (done : Nat × Accessed) : Prop where
  inside : ∀ a, a ∈ done.2.writes → dst ≤ a ∧ a < dst + size
  string : StringAt done.2.mem dst (s.take (size - 1))
  result : done.1 = s.length

theorem strlenAt_eq {m : Store} {fuel a : Nat} {s : List (BitVec 8)} (nonzero : 0 ∉ s) (string : StringAt m a s)
    (enough : s.length < fuel) : strlenAt m fuel a = some s.length := by
  induction s generalizing fuel a with
  | nil =>
    obtain ⟨fuel, rfl⟩ := Nat.exists_eq_succ_of_ne_zero (Nat.ne_of_gt enough)
    have first : m a = 0 := (List.cons.inj string).1
    rw [strlenAt, if_pos first]
    rfl
  | cons b s ih =>
    rw [List.length_cons] at enough
    obtain ⟨fuel, rfl⟩ := Nat.exists_eq_succ_of_ne_zero (Nat.ne_of_gt (Nat.zero_lt_of_lt enough))
    obtain ⟨other, nonzero⟩ := List.ne_and_not_mem_of_not_mem_cons nonzero
    obtain ⟨first, string⟩ := List.cons.inj string
    rw [strlenAt, if_neg (first ▸ other.symm), ih nonzero string (by omega)]
    rfl

theorem StringAt.congr {m m' : Store} {a : Nat} {s : List (BitVec 8)} (string : StringAt m a s)
    (same : ∀ x, a ≤ x → x ≤ a + s.length → m' x = m x) : StringAt m' a s :=
  (Store.bytes_congr fun x low high => same x low (by omega)).trans string

/-- The loop copies the string as far as `size` goes. -/
theorem Copying.string_eq {s : List (BitVec 8)} (nonzero : 0 ∉ s) (size : Nat) {dst src : Nat} (t : Accessed)
    (string : StringAt t.mem src s) (apart : dst + size ≤ src ∨ src + s.length < dst) :
    ∃ reads, Copying.string size ⟨dst, src, t⟩ = ⟨dst + min size s.length, src + min size s.length,
      ⟨t.mem.write dst (s.take size), reads, t.writes ++ List.range' dst (min size s.length)⟩⟩ := by
  induction size generalizing s dst src t with
  | zero => exact ⟨t.reads, by simp [Copying.string, Store.write]⟩
  | succ size ih =>
    cases s with
    | nil =>
      have first : t.mem src = 0 := (List.cons.inj string).1
      refine ⟨t.reads, ?_⟩
      rw [Copying.string]
      dsimp only
      rw [if_pos first]
      simp [Store.write]
    | cons b s =>
      obtain ⟨other, nonzero⟩ := List.ne_and_not_mem_of_not_mem_cons nonzero
      obtain ⟨first, string⟩ : t.mem src = b ∧ StringAt t.mem (src + 1) s := List.cons.inj string
      rw [List.length_cons] at apart
      rw [Copying.string]
      dsimp only
      rw [if_neg (first ▸ other.symm), Copying.byte]
      dsimp only
      have moved : (t.mem.write dst (t.mem.bytes src 1)) = t.mem.set dst b := by
        rw [Store.bytes, Store.bytes, Store.write, Store.write, first]
      have still : StringAt (t.move dst src 1).mem (src + 1) s := string.congr fun x low high =>
        Store.write_outside _ _ _ _ (by rw [Store.length_bytes]; omega)
      obtain ⟨reads, is⟩ := @ih s nonzero (dst + 1) (src + 1) (t.move dst src 1) still (by omega)
      refine ⟨reads, is.trans ?_⟩
      have least : min (size + 1) (s.length + 1) = min size s.length + 1 := by omega
      rw [List.length_cons, least, Accessed.move]
      dsimp only
      have next (a : Nat) : a + 1 + min size s.length = a + (min size s.length + 1) := by omega
      rw [moved, List.append_assoc, List.take_succ_cons, Store.write, next, next, List.range'_succ]
      rfl

section Strlcpy

variable (m : Store) {s : List (BitVec 8)} {src dst size : Nat} (nonzero : 0 ∉ s) (string : StringAt m src s)
  (apart : dst + size ≤ src ∨ src + s.length < dst)

include nonzero string apart

/-- What strlcpy has written when it comes to the call of strlen. -/
theorem strlcpy_written : ∃ reads, ∀ fuel, Accessed.strlcpy fuel ⟨m, [], []⟩ dst src size =
    (strlenAt (m.write dst (s.take size ++ [0])) fuel src).map fun len =>
      (len, ⟨m.write dst (s.take size ++ [0]), reads, List.range' dst (min size s.length + 1)⟩) := by
  obtain ⟨reads, copied⟩ := Copying.string_eq nonzero size ⟨m, [], []⟩ string apart
  have last : (m.write dst (s.take size)).set (dst + min size s.length) 0 = m.write dst (s.take size ++ [0]) := by
    rw [Store.write_append, List.length_take]
    rfl
  refine ⟨reads, fun fuel => ?_⟩
  rw [Accessed.strlcpy, copied]
  simp only [Accessed.put, last, List.nil_append, List.range'_concat, Nat.one_mul]

/-- A string that fills the `size` bytes has its NUL behind them. -/
theorem strlcpy_keeps (some : 1 ≤ size) : (∃ done, (∀ fuel, s.length < fuel →
      Accessed.strlcpy fuel ⟨m, [], []⟩ dst src size = .some done) ∧ StrlcpyKeeps s dst size done) ↔ s.length < size := by
  obtain ⟨reads, written⟩ := strlcpy_written m nonzero string apart
  constructor
  · rintro ⟨done, returns, keeps⟩
    have is := returns (s.length + 1) (Nat.lt_succ_self _)
    rw [written, Option.map_eq_some_iff] at is
    obtain ⟨len, -, rfl⟩ := is
    have last := keeps.inside (dst + min size s.length) (List.mem_range'_1.mpr (by omega))
    omega
  · intro short
    have whole : s.take size = s := List.take_of_length_le short.le
    have rest : s.take (size - 1) = s := List.take_of_length_le (by omega)
    refine ⟨(s.length, ⟨m.write dst (s.take size ++ [0]), reads, List.range' dst (min size s.length + 1)⟩),
      fun fuel enough => ?_, ⟨fun a member => ?_, ?_, rfl⟩⟩
    · rw [written, strlenAt_eq nonzero (string.congr fun x low high => Store.write_outside _ _ _ _ ?_) enough]
      · rfl
      · rw [whole, List.length_append, List.length_singleton]
        omega
    · have inside := List.mem_range'_1.mp member
      omega
    · dsimp only
      rw [rest, whole, StringAt, ← List.length_singleton, ← List.length_append]
      exact Store.bytes_write _ _ _

end Strlcpy

/-- The slot of an accepted name that is not of the maximal length. -/
theorem nameSlot_keeps (m : Store) {s : List (BitVec 8)} {name slot : Nat} (nonzero : 0 ∉ s) (string : StringAt m name s)
    (apart : slot + msbNameMax ≤ name ∨ name + s.length < slot) : (∃ done, (∀ fuel, s.length < fuel →
      Accessed.nameSlot fuel ⟨m, [], []⟩ slot name = some done) ∧
        ∀ a, a ∈ done.2.writes → slot ≤ a ∧ a < slot + msbNameMax) ↔ s.length < msbNameMax := by
  constructor
  · rintro ⟨done, returns, inside⟩
    obtain ⟨reads, written⟩ := strlcpy_written m nonzero string apart
    have is := returns (s.length + 1) (Nat.lt_succ_self _)
    rw [Accessed.nameSlot, written, Option.map_map, Option.map_eq_some_iff] at is
    obtain ⟨len, -, rfl⟩ := is
    have first : slot + min msbNameMax s.length ∈ List.range' slot (min msbNameMax s.length + 1) :=
      List.mem_range'_1.mpr (by omega)
    have last := inside (slot + min msbNameMax s.length) (by
      dsimp only [Function.comp]
      split_ifs
      · exact List.mem_append_left _ first
      · exact first)
    omega
  · intro short
    obtain ⟨done, returns, keeps⟩ := (strlcpy_keeps m nonzero string apart (by decide)).mpr short
    refine ⟨(.ok, done.2), fun fuel enough => ?_, keeps.inside⟩
    rw [Accessed.nameSlot, returns fuel enough, Option.map_some, keeps.result, if_neg (Nat.not_lt.mpr short.le)]

theorem combine_zero_low (bs : List (BitVec 8)) (b : BitVec 8) :
    Bytes.combine 64 (0 :: bs) = Bytes.combine 64 (b :: bs) &&& ~~~(0xff : BitVec 64) := by
  have mask : ~~~(0xff : BitVec 64) = BitVec.allOnes 64 <<< 8 := by decide
  apply BitVec.eq_of_getLsbD_eq
  intro i small
  rw [mask]
  simp only [Bytes.combine, BitVec.getLsbD_and, BitVec.getLsbD_or, BitVec.getLsbD_setWidth, BitVec.getLsbD_shiftLeft,
    BitVec.getLsbD_allOnes, small]
  by_cases low : i < 8
  · simp [low]
  · have none : b.getLsbD i = false := BitVec.getLsbD_of_ge b i (by omega)
    have below : i - 8 < 64 := by omega
    simp [low, none, below]

/-- What strlcpy leaves in a slot is the message buffer with the name copied, of which `addr` comes next. -/
theorem copyName_bytes (m : Store) (msgbuf : Msgbuf) (name : List CChar) (slot : Nat)
    (accepted : name.length ≤ msbNameMax) (addr : Bytes.combine 64 (m.bytes (slot + msbNameMax) 8) = msgbuf.addr) :
    let m' := m.write slot ((name.map Subtype.val).take msbNameMax ++ [0])
    m'.bytes slot name.length = (msgbuf.copyName name).name.map Subtype.val ∧
      Bytes.combine 64 (m'.bytes (slot + msbNameMax) 8) = (msgbuf.copyName name).addr := by
  have whole : (name.map Subtype.val).take msbNameMax = name.map Subtype.val :=
    List.take_of_length_le (by rwa [List.length_map])
  have long : (name.map Subtype.val).length = name.length := List.length_map _
  dsimp only
  rw [whole, Msgbuf.copyName]
  dsimp only
  rw [List.take_of_length_le accepted]
  have written := Store.bytes_write m slot (name.map Subtype.val ++ [0])
  rw [List.length_append, long] at written
  obtain ⟨chars, nul⟩ := Store.bytes_append written
  rw [long] at chars nul
  have others (a n : Nat) (behind : slot + name.length + 1 ≤ a) :
      (m.write slot (name.map Subtype.val ++ [0])).bytes a n = m.bytes a n := by
    refine Store.bytes_congr fun x low high => Store.write_outside _ _ _ _ ?_
    rw [List.length_append, long, List.length_singleton]
    omega
  refine ⟨chars, ?_⟩
  split_ifs with fills
  · have full : name.length = msbNameMax := Nat.le_antisymm accepted fills
    rw [full] at nul others
    have first : (m.write slot (name.map Subtype.val ++ [0])) (slot + msbNameMax) = 0 := (List.cons.inj nul).1
    rw [← addr, Store.bytes, first, others _ 7 (by omega), Store.bytes]
    exact combine_zero_low _ _
  · rw [others _ 8 (by omega), addr]

/-- strlcpy keeps to the bytes that it has been given, and _msgbuf_alloc to the name, just when the string is shorter. -/
theorem strlcpy_keeps_iff (m : Store) (s : CStr) : (∀ dst src size : Nat, 1 ≤ size → StringAt m src s.1 →
      dst + size ≤ src ∨ src + s.1.length < dst → ((∃ done, (∀ fuel, s.1.length < fuel →
        Accessed.strlcpy fuel ⟨m, [], []⟩ dst src size = some done) ∧ StrlcpyKeeps s.1 dst size done) ↔
          s.1.length < size)) ∧
    ∀ slot name : Nat, 1 ≤ s.1.length → s.1.length ≤ msbNameMax → StringAt m name s.1 →
      slot + msbNameMax ≤ name ∨ name + s.1.length < slot → ((∃ done, (∀ fuel, s.1.length < fuel →
        Accessed.nameSlot fuel ⟨m, [], []⟩ slot name = some done) ∧
          ∀ a, a ∈ done.2.writes → slot ≤ a ∧ a < slot + msbNameMax) ↔ s.1.length < msbNameMax) :=
  ⟨fun _ _ _ some string apart => strlcpy_keeps m s.2 string apart some,
    fun _ _ _ _ string apart => nameSlot_keeps m s.2 string apart⟩

-- The string "a" at 0.
def letterA : Store := fun a => if a = 0 then 97 else 0

theorem letterA_string : StringAt letterA 0 [97] := rfl

theorem strlcpy_keeps_a :
    (∃ done, (∀ fuel, 1 < fuel → Accessed.strlcpy fuel ⟨letterA, [], []⟩ 2 0 2 = some done) ∧ StrlcpyKeeps [97] 2 2 done) ∧
    ∃ done, (∀ fuel, 1 < fuel → Accessed.nameSlot fuel ⟨letterA, [], []⟩ 2 0 = some done) ∧
      ∀ a, a ∈ done.2.writes → 2 ≤ a ∧ a < 2 + msbNameMax :=
  ⟨((strlcpy_keeps_iff letterA ⟨[97], by decide⟩).1 2 0 2 (by decide) letterA_string (by decide)).mpr (by decide),
    ((strlcpy_keeps_iff letterA ⟨[97], by decide⟩).2 2 0 (by decide) (by decide) letterA_string (by decide)).mpr
      (by decide)⟩

/-- In a buffer of one byte there is room for the NUL only. -/
theorem strlcpy_fills : ¬ ∀ (m : Store) (s : CStr) (dst src size : Nat), 1 ≤ size → StringAt m src s.1 →
    dst + size ≤ src ∨ src + s.1.length < dst → ∃ done, (∀ fuel, s.1.length < fuel →
      Accessed.strlcpy fuel ⟨m, [], []⟩ dst src size = some done) ∧ StrlcpyKeeps s.1 dst size done := by
  intro all
  have kept := all letterA ⟨[97], by decide⟩ 2 0 1 (by decide) letterA_string (by decide)
  have short := (strlcpy_keeps letterA (by decide) letterA_string (by decide) (by decide)).mp kept
  exact absurd short (by decide)

end Anthill
