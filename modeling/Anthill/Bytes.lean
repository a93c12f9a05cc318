import Mathlib.Data.List.Basic
import Mathlib.Tactic.Ring

set_option autoImplicit false

namespace Bytes

abbrev Store := Nat → BitVec 8

def Store.bytes (m : Store) (a : Nat) : Nat → List (BitVec 8)
  | 0 => []
  | n + 1 => m a :: m.bytes (a + 1) n

def Store.set (m : Store) (a : Nat) (b : BitVec 8) : Store := fun x => if x = a then b else m x

def Store.write (m : Store) (a : Nat) : List (BitVec 8) → Store
  | [] => m
  | b :: bs => (m.set a b).write (a + 1) bs

@[simp] theorem Store.length_bytes (m : Store) (a n : Nat) : (m.bytes a n).length = n := by
  induction n generalizing a with
  | zero => rfl
  | succ n ih => rw [bytes, List.length_cons, ih]

theorem Store.bytes_add (m : Store) (a n k : Nat) : m.bytes a (n + k) = m.bytes a n ++ m.bytes (a + n) k := by
  induction n generalizing a with
  | zero => simp [bytes]
  | succ n ih => rw [Nat.succ_add, bytes, bytes, ih, List.cons_append, Nat.succ_add_eq_add_succ]

theorem Store.take_bytes (m : Store) (a n k : Nat) : (m.bytes a n).take k = m.bytes a (min k n) := by
  induction n generalizing a k with
  | zero => rw [Nat.min_zero, bytes, List.take_nil]
  | succ n ih =>
    cases k with
    | zero => rw [Nat.zero_min, List.take_zero, bytes]
    | succ k => rw [bytes, List.take_succ_cons, ih, Nat.succ_min_succ, bytes]

theorem Store.bytes_congr {m m' : Store} {a n : Nat} (same : ∀ x, a ≤ x → x < a + n → m x = m' x) :
    m.bytes a n = m'.bytes a n := by
  induction n generalizing a with
  | zero => rfl
  | succ n ih =>
    rw [bytes, bytes, same a (by omega) (by omega), ih fun x low high => same x (by omega) (by omega)]

theorem Store.bytes_append {m : Store} {a n : Nat} {xs ys : List (BitVec 8)} (is : m.bytes a n = xs ++ ys) :
    m.bytes a xs.length = xs ∧ m.bytes (a + xs.length) ys.length = ys := by
  have long := congrArg List.length is
  rw [length_bytes, List.length_append] at long
  rw [long, bytes_add] at is
  exact List.append_inj is (m.length_bytes a xs.length)

theorem Store.write_append (m : Store) (a : Nat) (xs ys : List (BitVec 8)) :
    m.write a (xs ++ ys) = (m.write a xs).write (a + xs.length) ys := by
  induction xs generalizing m a with
  | nil => rfl
  | cons b xs ih =>
    rw [List.cons_append, write, write, ih, List.length_cons, Nat.add_right_comm, Nat.add_assoc]

theorem Store.write_outside (m : Store) (a : Nat) (bs : List (BitVec 8)) (x : Nat)
    (outside : x < a ∨ a + bs.length ≤ x) : m.write a bs x = m x := by
  induction bs generalizing m a with
  | nil => rfl
  | cons b bs ih =>
    rw [List.length_cons] at outside
    rw [write, ih (m.set a b) (a + 1) (by omega), set, if_neg (by omega)]

theorem Store.bytes_write (m : Store) (a : Nat) (bs : List (BitVec 8)) : (m.write a bs).bytes a bs.length = bs := by
  induction bs generalizing m a with
  | nil => rfl
  | cons b bs ih =>
    rw [List.length_cons, bytes, write, ih, write_outside _ _ _ _ (.inl (Nat.lt_succ_self a)), set, if_pos rfl]

theorem Store.bytes_get (m : Store) (a n j : Nat) (inside : j < n) : (m.bytes a n)[j]? = some (m (a + j)) := by
  induction n generalizing a j with
  | zero => omega
  | succ n ih =>
    cases j with
    | zero => rfl
    | succ j => rw [bytes, List.getElem?_cons_succ, ih (a + 1) j (by omega), Nat.add_right_comm, Nat.add_assoc]

-- Stores one after the other.
def Store.writeAll (m : Store) (stores : List (Nat × List (BitVec 8))) : Store :=
  stores.foldl (fun m store => m.write store.1 store.2) m

theorem Store.writeAll_outside (stores : List (Nat × List (BitVec 8))) (m : Store) (x : Nat)
    (outside : ∀ t, t ∈ stores → x < t.1 ∨ t.1 + t.2.length ≤ x) : m.writeAll stores x = m x := by
  induction stores generalizing m with
  | nil => rfl
  | cons t later ih =>
    refine (ih (m.write t.1 t.2) fun u listed => outside u (List.mem_cons_of_mem t listed)).trans ?_
    exact m.write_outside t.1 t.2 x (outside t List.mem_cons_self)

/-- Of stores that do not overlap each one stays. -/
theorem Store.bytes_writeAll (stores : List (Nat × List (BitVec 8)))
    (apart : stores.Pairwise fun s t => s.1 + s.2.length ≤ t.1 ∨ t.1 + t.2.length ≤ s.1) :
    ∀ (m : Store) (store : Nat × List (BitVec 8)), store ∈ stores →
      (m.writeAll stores).bytes store.1 store.2.length = store.2 := by
  induction stores with
  | nil =>
    intro m store listed
    cases listed
  | cons first later ih =>
    rw [List.pairwise_cons] at apart
    intro m store listed
    rcases List.mem_cons.mp listed with rfl | listed
    · refine (bytes_congr fun x low high => ?_).trans (m.bytes_write store.1 store.2)
      refine writeAll_outside later _ x fun t listed => ?_
      have away := apart.1 t listed
      omega
    · exact ih apart.2 (m.write first.1 first.2) store listed

theorem Store.write_bytes (m : Store) (a n : Nat) : m.write a (m.bytes a n) = m := by
  induction n generalizing a with
  | zero => rfl
  | succ n ih =>
    have same : m.set a (m a) = m := by
      funext x
      rw [set]
      split
      · next is => rw [is]
      · rfl
    rw [bytes, write, same, ih]

-- Integers, least significant byte first.

def split {w : Nat} (v : BitVec w) : Nat → List (BitVec 8)
  | 0 => []
  | n + 1 => v.setWidth 8 :: split (v >>> 8) n

def combine (w : Nat) : List (BitVec 8) → BitVec w
  | [] => 0#w
  | b :: bs => b.setWidth w ||| combine w bs <<< 8

@[simp] theorem length_split {w : Nat} (v : BitVec w) (n : Nat) : (split v n).length = n := by
  induction n generalizing v with
  | zero => rfl
  | succ n ih => rw [split, List.length_cons, ih]

theorem setWidth_or_shift {w : Nat} (v : BitVec w) : (v.setWidth 8).setWidth w ||| (v >>> 8) <<< 8 = v := by
  apply BitVec.eq_of_getLsbD_eq
  intro i small
  simp only [BitVec.getLsbD_or, BitVec.getLsbD_setWidth, BitVec.getLsbD_shiftLeft, BitVec.getLsbD_ushiftRight]
  rcases Nat.lt_or_ge i 8 with low | high
  · simp [small, low]
  · have back : 8 + (i - 8) = i := by omega
    simp [small, back, Nat.not_lt.mpr high]

theorem combine_split {w : Nat} (v : BitVec w) (n : Nat) (fits : v.toNat < 2 ^ (8 * n)) :
    combine w (split v n) = v := by
  induction n generalizing v with
  | zero =>
    rw [split, combine]
    exact (BitVec.eq_of_toNat_eq (by simpa using fits)).symm
  | succ n ih =>
    have rest : (v >>> 8).toNat < 2 ^ (8 * n) := by
      rw [BitVec.toNat_ushiftRight, Nat.shiftRight_eq_div_pow]
      rw [Nat.mul_succ, Nat.pow_add] at fits
      exact Nat.div_lt_of_lt_mul (by rwa [Nat.mul_comm] at fits)
    rw [split, combine, ih (v >>> 8) rest, setWidth_or_shift]

theorem combine_high {w : Nat} (bs : List (BitVec 8)) (i : Nat) (high : 8 * bs.length ≤ i) :
    (combine w bs).getLsbD i = false := by
  induction bs generalizing i with
  | nil => exact BitVec.getLsbD_zero
  | cons b bs ih =>
    rw [List.length_cons] at high
    have above : b.getLsbD i = false := BitVec.getLsbD_of_ge b i (by omega)
    simp only [combine, BitVec.getLsbD_or, BitVec.getLsbD_setWidth, BitVec.getLsbD_shiftLeft, above,
      ih (i - 8) (by omega), Bool.and_false, Bool.or_false]

theorem split_combine {w : Nat} (bs : List (BitVec 8)) (fits : 8 * bs.length ≤ w) :
    split (combine w bs) bs.length = bs := by
  induction bs with
  | nil => rfl
  | cons b bs ih =>
    rw [List.length_cons] at fits
    have low : (combine w (b :: bs)).setWidth 8 = b := by
      apply BitVec.eq_of_getLsbD_eq
      intro i small
      have inside : i < w := by omega
      simp only [combine, BitVec.getLsbD_setWidth, BitVec.getLsbD_or, BitVec.getLsbD_shiftLeft]
      simp [small, inside]
    have rest : combine w (b :: bs) >>> 8 = combine w bs := by
      apply BitVec.eq_of_getLsbD_eq
      intro i small
      have above : b.getLsbD (8 + i) = false := BitVec.getLsbD_of_ge b (8 + i) (by omega)
      simp only [combine, BitVec.getLsbD_ushiftRight, BitVec.getLsbD_or, BitVec.getLsbD_setWidth,
        BitVec.getLsbD_shiftLeft, above]
      rcases Nat.lt_or_ge (8 + i) w with inside | outside
      · simp [inside]
      · simp [Nat.not_lt.mpr outside, combine_high bs i (by omega)]
    rw [List.length_cons, split, low, rest, ih (by omega)]

theorem combine_append {w : Nat} (xs ys : List (BitVec 8)) :
    combine w (xs ++ ys) = combine w xs ||| combine w ys <<< (8 * xs.length) := by
  induction xs with
  | nil => simp [combine]
  | cons b xs ih =>
    rw [List.cons_append, combine, ih, BitVec.shiftLeft_or_distrib, ← BitVec.shiftLeft_add, ← BitVec.or_assoc,
      List.length_cons, Nat.mul_succ, combine]

theorem combine_setWidth {w : Nat} (v : Nat) (bs : List (BitVec 8)) (fits : 8 * bs.length ≤ w) :
    (combine w bs).setWidth v = combine v bs := by
  apply BitVec.eq_of_getLsbD_eq
  intro i small
  rw [BitVec.getLsbD_setWidth]
  simp only [small, decide_true, Bool.true_and]
  induction bs generalizing i with
  | nil => simp [combine]
  | cons b bs ih =>
    rw [List.length_cons] at fits
    have rest := ih (by omega) (i - 8) (by omega)
    simp only [combine, BitVec.getLsbD_or, BitVec.getLsbD_setWidth, BitVec.getLsbD_shiftLeft, rest, small]
    rcases Nat.lt_or_ge i w with inside | outside
    · simp [inside]
    · have high := combine_high (w := v) bs (i - 8) (by omega)
      have above : b.getLsbD i = false := BitVec.getLsbD_of_ge b i (by omega)
      simp [high, above]

-- A format in which the end of a value can be told from its bytes.
def Delimited {α β : Type} (wire : α → List β) : Prop :=
  ∀ a b r s, wire a ++ r = wire b ++ s → a = b ∧ r = s

theorem Delimited.map {α β γ : Type} {wire : α → List β} (delimited : Delimited wire) {f : γ → α}
    (injective : ∀ x y, f x = f y → x = y) : Delimited fun x => wire (f x) := by
  intro x y r s same
  obtain ⟨values, rest⟩ := delimited _ _ r s same
  exact ⟨injective x y values, rest⟩

theorem Delimited.append {α β γ : Type} {f : α → List γ} {g : β → List γ} (first : Delimited f)
    (second : Delimited g) : Delimited fun x : α × β => f x.1 ++ g x.2 := by
  intro x y r s same
  rw [List.append_assoc, List.append_assoc] at same
  obtain ⟨left, same⟩ := first _ _ _ _ same
  obtain ⟨right, rest⟩ := second _ _ _ _ same
  exact ⟨Prod.ext left right, rest⟩

theorem Delimited.flatMap {α β : Type} {wire : α → List β} (delimited : Delimited wire) (xs ys : List α)
    (long : xs.length = ys.length) (r s : List β) (same : xs.flatMap wire ++ r = ys.flatMap wire ++ s) :
    xs = ys ∧ r = s := by
  induction xs generalizing ys with
  | nil =>
    obtain rfl := List.length_eq_zero_iff.mp long.symm
    exact ⟨rfl, same⟩
  | cons x xs ih =>
    cases ys with
    | nil => cases long
    | cons y ys =>
      rw [List.flatMap_cons, List.flatMap_cons, List.append_assoc, List.append_assoc] at same
      obtain ⟨head, same⟩ := delimited _ _ _ _ same
      obtain ⟨tail, rest⟩ := ih ys (Nat.succ.inj long) same
      exact ⟨congrArg₂ List.cons head tail, rest⟩

theorem split_delimited {w : Nat} (n : Nat) (fits : w ≤ 8 * n) : Delimited fun v : BitVec w => split v n := by
  intro u v r s same
  obtain ⟨bytes, rest⟩ : split u n = split v n ∧ r = s := List.append_inj same (by simp only [length_split])
  have small (x : BitVec w) : x.toNat < 2 ^ (8 * n) := x.isLt.trans_le (Nat.pow_le_pow_right (by decide) fits)
  rw [← combine_split u n (small u), bytes, combine_split v n (small v)]
  exact ⟨rfl, rest⟩

-- Lists whose length an integer of w bits can hold.
abbrev Counted (w : Nat) (α : Type) := { xs : List α // xs.length < 2 ^ w }

-- The length in n bytes, then the elements.
def Counted.wire {w : Nat} {α : Type} (n : Nat) (elem : α → List (BitVec 8)) (xs : Counted w α) : List (BitVec 8) :=
  split (BitVec.ofNat w xs.1.length) n ++ xs.1.flatMap elem

theorem Counted.delimited {w : Nat} {α : Type} (n : Nat) (fits : w ≤ 8 * n) {elem : α → List (BitVec 8)}
    (delimited : Delimited elem) : Delimited (Counted.wire (w := w) n elem) := by
  intro xs ys r s same
  rw [wire, wire, List.append_assoc, List.append_assoc] at same
  obtain ⟨count, same⟩ := split_delimited n fits _ _ _ _ same
  have long := congrArg BitVec.toNat count
  rw [BitVec.toNat_ofNat, BitVec.toNat_ofNat, Nat.mod_eq_of_lt xs.2, Nat.mod_eq_of_lt ys.2] at long
  obtain ⟨elems, rest⟩ := delimited.flatMap _ _ long r s same
  exact ⟨Subtype.ext elems, rest⟩

theorem singleton_delimited {α : Type} : Delimited fun x : α => [x] := by
  intro x y r s same
  obtain ⟨head, tail⟩ := List.cons.inj same
  exact ⟨head, tail⟩

end Bytes
