import Anthill.Rendering

set_option autoImplicit false

namespace Anthill

open Bytes (Store)

def vsnprintf (m : Cells) (text : BitVec 64 → List (BitVec 8)) (s n : Nat) (format : List (BitVec 8))
    (args : List (BitVec 64)) : Option (Int × Cells) :=
  (formatterInt m text s format args n).map fun r => (r.1, r.2.store (s + r.1.toNat) 0)

section Bounds

variable (text : BitVec 64 → List (BitVec 8)) (format : List (BitVec 8)) (args : List (BitVec 64)) (n : Nat)

/-- Whatever is in memory: no store is outside the buffer, which has the longest prefix of the output that fits in
front of a NUL, and the length of the output comes back. -/
def StaysInBounds : Prop :=
  let output := formatChars text format args
  ∀ (bytes : Store) (s : Nat), ∃ m', vsnprintf ⟨bytes, []⟩ text s n format args = some ((output.length : Int), m') ∧
    (∀ a ∈ m'.stores, s ≤ a ∧ a < s + n) ∧
    (0 < n → m'.bytes.bytes s ((output.take (n - 1)).length + 1) = output.take (n - 1) ++ [0])

theorem vsnprintf_eq (bytes : Store) (s : Nat) (few : (formatChars text format args).length < 2147483648) :
    vsnprintf ⟨bytes, []⟩ text s n format args = some (((formatChars text format args).length : Int),
      (Cells.memcpy ⟨bytes, []⟩ s ((formatChars text format args).take ((n : Int).bmod intModulus).toNat)).store
        (s + (formatChars text format args).length) 0) := by
  have put := putCharsInt_fits ⟨bytes, []⟩ s 0 ((n : Int).bmod intModulus) (formatChars text format args) (by omega)
  rw [putChars_eq, Nat.zero_add, Nat.add_zero, Nat.cast_zero, Int.sub_zero] at put
  rw [vsnprintf, formatterInt, put]
  rfl

theorem vsnprintf_overflows (bytes : Store) (s : Nat) (long : ¬ (formatChars text format args).length < 2147483648) :
    vsnprintf ⟨bytes, []⟩ text s n format args = none := by
  rw [vsnprintf, formatterInt]
  have none := putCharsInt_overflows ⟨bytes, []⟩ s 0 ((n : Int).bmod intModulus) (formatChars text format args)
    (by decide) (by omega)
  exact congrArg (Option.map _) none

theorem stored_kept (bytes : Store) (s : Nat) (cs : List (BitVec 8)) (p x : Nat) (behind : s + cs.length ≤ x)
    (apart : x ≠ p) : ((Cells.memcpy ⟨bytes, []⟩ s cs).store p 0).bytes x = bytes x :=
  (show _ = (Cells.memcpy ⟨bytes, []⟩ s cs).bytes x from if_neg apart).trans
    (Store.write_outside bytes s cs x (.inr behind))

theorem vsnprintf_in_bounds_iff : StaysInBounds text format args n ↔
    (formatChars text format args).length < n ∧
      ((formatChars text format args).length : Int) ≤ max 0 ((n : Int).bmod intModulus) := by
  constructor
  · intro stays
    have few : (formatChars text format args).length < 2147483648 := by
      by_contra long
      obtain ⟨m', is, -⟩ := stays (fun _ => 0) 0
      rw [vsnprintf_overflows text format args n _ 0 long] at is
      cases is
    have inside : (formatChars text format args).length < n := by
      obtain ⟨m', is, within, -⟩ := stays (fun _ => 0) 0
      rw [vsnprintf_eq text format args n _ 0 few] at is
      obtain rfl := congrArg Prod.snd (Option.some.inj is)
      have nul := within _ (List.mem_append_right _ List.mem_cons_self)
      omega
    refine ⟨inside, ?_⟩
    by_contra cut
    -- The last character is not stored: the byte there may be another one.
    have some_ : formatChars text format args ≠ [] := fun none => by
      rw [none] at cut
      exact cut (le_max_left _ _)
    obtain ⟨m', is, -, holds⟩ := stays (fun _ => (formatChars text format args).getLast some_ + 1) 0
    rw [vsnprintf_eq text format args n _ 0 few] at is
    obtain rfl := congrArg Prod.snd (Option.some.inj is)
    have last := congrArg (fun cs => cs[(formatChars text format args).length - 1]?) (holds (by omega))
    have long := List.length_pos_iff.mpr some_
    rw [List.take_of_length_le (by omega : (formatChars text format args).length ≤ n - 1)] at last
    dsimp only at last
    rw [Store.bytes_get _ _ _ _ (by omega), List.getElem?_append_left (by omega), ← List.getLast?_eq_getElem?,
      List.getLast?_eq_some_getLast some_] at last
    have kept := stored_kept (fun _ => (formatChars text format args).getLast some_ + 1) 0
      ((formatChars text format args).take ((n : Int).bmod intModulus).toNat) (0 + (formatChars text format args).length)
      (0 + ((formatChars text format args).length - 1)) (by rw [List.length_take]; omega) (by omega)
    have other (c : BitVec 8) : c + 1 ≠ c := by
      intro same
      have zero := BitVec.add_right_eq_self.mp same
      cases zero
    exact other _ (kept.symm.trans (Option.some.inj last))
  · rintro ⟨inside, whole⟩
    have few : (formatChars text format args).length < 2147483648 := by
      have below := Int.bmod_lt (x := (n : Int)) (m := intModulus) (by decide)
      have half : ((intModulus : Int) + 1) / 2 = 2147483648 := by decide
      omega
    intro bytes s
    have all : (formatChars text format args).take ((n : Int).bmod intModulus).toNat = formatChars text format args :=
      List.take_of_length_le (by omega)
    refine ⟨_, vsnprintf_eq text format args n bytes s few, ?_, fun _ => ?_⟩
    · rw [all]
      intro a member
      rcases List.mem_append.mp member with copied | nul
      · have there := List.mem_range'_1.mp copied
        omega
      · rw [List.mem_singleton.mp nul]
        omega
    · have copied : ((bytes.write s (formatChars text format args)).set (s + (formatChars text format args).length) 0).bytes s
          (formatChars text format args).length = formatChars text format args := by
        refine Eq.trans (Store.bytes_congr fun x _ high => if_neg (by omega)) (Store.bytes_write bytes s _)
      have nul : ((bytes.write s (formatChars text format args)).set (s + (formatChars text format args).length) 0).bytes
          (s + (formatChars text format args).length) 1 = [0] := by
        rw [Store.bytes, Store.bytes, Store.set, if_pos rfl]
      rw [all, List.take_of_length_le (by omega : (formatChars text format args).length ≤ n - 1), Store.bytes_add]
      exact congrArg₂ _ copied nul

end Bounds

-- "abc" for a buffer of two bytes.
theorem vsnprintf_out_of_bounds : ¬ ∀ (text : BitVec 64 → List (BitVec 8)) (format : List (BitVec 8))
    (args : List (BitVec 64)) (n : Nat), StaysInBounds text format args n := by
  intro stays
  obtain ⟨m', is, within, -⟩ := stays (fun _ => []) [0x61, 0x62, 0x63, 0] [] 2 (fun _ => 0) 0
  rw [vsnprintf_eq _ _ _ 2 _ 0 (by decide)] at is
  obtain rfl := congrArg Prod.snd (Option.some.inj is)
  have nul := within _ (List.mem_append_right _ List.mem_cons_self)
  revert nul
  decide

end Anthill
