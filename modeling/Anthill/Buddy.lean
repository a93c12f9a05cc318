import Mathlib.Data.Nat.Bitwise
import Mathlib.Data.Set.Insert

set_option autoImplicit false

namespace Buddy

/-- The base of the aligned block of size 2 ^ k that `x` is in. -/
def floor (k x : Nat) : Nat := x / 2 ^ k * 2 ^ k

theorem dvd_floor (k x : Nat) : 2 ^ k ∣ floor k x := Nat.dvd_mul_left ..

theorem floor_le (k x : Nat) : floor k x ≤ x := Nat.div_mul_le_self ..

theorem lt_floor (k x : Nat) : x < floor k x + 2 ^ k := Nat.lt_div_mul_add (Nat.two_pow_pos k)

theorem floor_eq_iff {k x a : Nat} (aligned : 2 ^ k ∣ a) : floor k x = a ↔ a ≤ x ∧ x < a + 2 ^ k := by
  constructor
  · rintro rfl
    exact ⟨floor_le k x, lt_floor k x⟩
  · rintro ⟨low, high⟩
    obtain ⟨q, rfl⟩ := aligned
    rw [← Nat.mul_succ] at high
    rw [floor, Nat.div_eq_of_lt_le (by rwa [Nat.mul_comm]) (by rwa [Nat.mul_comm]), Nat.mul_comm]

theorem floor_self {k a : Nat} (aligned : 2 ^ k ∣ a) : floor k a = a := Nat.div_mul_cancel aligned

theorem floor_floor {j k : Nat} (le : j ≤ k) (x : Nat) : floor k (floor j x) = floor k x := by
  obtain ⟨d, rfl⟩ := Nat.exists_eq_add_of_le le
  rw [floor, floor, floor, Nat.pow_add, ← Nat.div_div_eq_div_mul, Nat.mul_div_cancel _ (Nat.two_pow_pos j),
    Nat.div_div_eq_div_mul]

theorem dvd_of_le {j k a : Nat} (le : j ≤ k) (aligned : 2 ^ k ∣ a) : 2 ^ j ∣ a :=
  Nat.dvd_trans (Nat.pow_dvd_pow 2 le) aligned

-- A block consists of two halves.
theorem floor_succ {j a : Nat} (aligned : 2 ^ (j + 1) ∣ a) (x : Nat) :
    floor (j + 1) x = a ↔ floor j x = a ∨ floor j x = a + 2 ^ j := by
  have lower := dvd_of_le (Nat.le_succ j) aligned
  rw [floor_eq_iff aligned, floor_eq_iff lower, floor_eq_iff ((Nat.dvd_add_right lower).mpr (Nat.dvd_refl _)),
    Nat.pow_succ]
  omega

theorem floor_half {j k a : Nat} (aligned : 2 ^ (j + 1) ∣ a) (lt : j < k) : floor k (a + 2 ^ j) = floor k a := by
  have lower := dvd_of_le (Nat.le_succ j) aligned
  have half : floor (j + 1) (a + 2 ^ j) = a := by
    rw [floor_succ aligned, floor_self ((Nat.dvd_add_right lower).mpr (Nat.dvd_refl _))]
    exact .inr rfl
  rw [← floor_floor lt, half]

/-- The other half of the block of twice the size. -/
def buddy (k a : Nat) : Nat := a ^^^ 2 ^ k

theorem buddy_cases {k a : Nat} (aligned : 2 ^ k ∣ a) :
    (2 ^ (k + 1) ∣ a ∧ buddy k a = a + 2 ^ k) ∨ (2 ^ (k + 1) ∣ buddy k a ∧ a = buddy k a + 2 ^ k) := by
  obtain ⟨q, rfl⟩ := aligned
  have halves : buddy k (2 ^ k * q) = 2 ^ k * (q ^^^ 1) := by
    rw [buddy, Nat.mul_comm, ← Nat.shiftLeft_eq, ← Nat.one_shiftLeft, ← Nat.shiftLeft_xor_distrib, Nat.shiftLeft_eq,
      Nat.one_shiftLeft, Nat.mul_comm]
  rcases Nat.even_or_odd' q with ⟨n, rfl | rfl⟩
  · left
    rw [halves, Nat.xor_one_of_even ⟨n, Nat.two_mul n⟩, Nat.mul_add, Nat.mul_one]
    exact ⟨⟨n, by rw [Nat.pow_succ, Nat.mul_assoc]⟩, rfl⟩
  · right
    rw [halves, Nat.xor_one_of_odd ⟨n, rfl⟩, Nat.add_sub_cancel, Nat.mul_add, Nat.mul_one]
    exact ⟨⟨n, by rw [Nat.pow_succ, Nat.mul_assoc]⟩, rfl⟩

theorem dvd_buddy {k a : Nat} (aligned : 2 ^ k ∣ a) : 2 ^ k ∣ buddy k a := by
  rcases buddy_cases aligned with ⟨-, is⟩ | ⟨higher, -⟩
  · rw [is]
    exact (Nat.dvd_add_right aligned).mpr (Nat.dvd_refl _)
  · exact dvd_of_le (Nat.le_succ k) higher

theorem floor_buddy {j k a : Nat} (aligned : 2 ^ k ∣ a) (lt : k < j) : floor j (buddy k a) = floor j a := by
  have succ : floor (k + 1) (buddy k a) = floor (k + 1) a := by
    rcases buddy_cases aligned with ⟨higher, is⟩ | ⟨higher, is⟩
    · rw [floor_self higher, floor_succ higher, floor_self (dvd_buddy aligned)]
      exact .inr is
    · rw [floor_self higher, eq_comm, floor_succ higher, floor_self aligned]
      exact .inr is
  rw [← floor_floor lt, succ, floor_floor lt]

/-- Blocks of orders from `lo` to `top` that fill the regions of size 2 ^ top and do not overlap. -/
structure Tiled (lo top : Nat) (regions blocks : Set Nat) (order : Nat → Nat) : Prop where
  region : ∀ r, r ∈ regions → 2 ^ top ∣ r
  bounds : ∀ a, a ∈ blocks → lo ≤ order a ∧ order a ≤ top
  aligned : ∀ a, a ∈ blocks → 2 ^ order a ∣ a
  inside : ∀ a, a ∈ blocks → floor top a ∈ regions
  cover : ∀ x, floor top x ∈ regions → ∃ a, a ∈ blocks ∧ floor (order a) x = a
  apart : ∀ a b, a ∈ blocks → b ∈ blocks → floor (order b) a = b → a = b

namespace Tiled

variable {lo top : Nat} {regions blocks : Set Nat} {order order' : Nat → Nat}

theorem empty : Tiled lo top ∅ ∅ order where
  region _ member := member.elim
  bounds _ member := member.elim
  aligned _ member := member.elim
  inside _ member := member.elim
  cover _ member := member.elim
  apart _ _ member := member.elim

variable (tiled : Tiled lo top regions blocks order)

include tiled

/-- A place is in one block. -/
theorem unique {a b x : Nat} (ha : a ∈ blocks) (hb : b ∈ blocks) (inA : floor (order a) x = a)
    (inB : floor (order b) x = b) : a = b := by
  rcases Nat.le_total (order a) (order b) with le | le
  · exact tiled.apart a b ha hb (by rw [← inA, floor_floor le, inB])
  · exact (tiled.apart b a hb ha (by rw [← inB, floor_floor le, inA])).symm

theorem disjoint {a b : Nat} (ha : a ∈ blocks) (hb : b ∈ blocks) (ne : a ≠ b) :
    a + 2 ^ order a ≤ b ∨ b + 2 ^ order b ≤ a := by
  by_contra overlap
  rw [not_or, Nat.not_le, Nat.not_le] at overlap
  rcases Nat.le_total a b with le | le
  · exact ne (tiled.apart b a hb ha ((floor_eq_iff (tiled.aligned a ha)).mpr ⟨le, overlap.1⟩)).symm
  · exact ne (tiled.apart a b ha hb ((floor_eq_iff (tiled.aligned b hb)).mpr ⟨le, overlap.2⟩))

theorem extent {a : Nat} (ha : a ∈ blocks) : a + 2 ^ order a ≤ floor top a + 2 ^ top := by
  have le := (tiled.bounds a ha).2
  have inside : 2 ^ order a ∣ floor top a + 2 ^ top :=
    (Nat.dvd_add_right (dvd_of_le le (dvd_floor top a))).mpr (Nat.pow_dvd_pow 2 le)
  have lt := lt_floor top a
  have gap : 2 ^ order a ≤ floor top a + 2 ^ top - a :=
    Nat.le_of_dvd (Nat.sub_pos_of_lt lt) (Nat.dvd_sub inside (tiled.aligned a ha))
  omega

theorem base {r : Nat} (hr : r ∈ regions) : r ∈ blocks := by
  have self := floor_self (tiled.region r hr)
  obtain ⟨a, ha, is⟩ := tiled.cover r (self.symm ▸ hr)
  have same : floor top a = r := by rw [← is, floor_floor (tiled.bounds a ha).2, self]
  have below := floor_le (order a) r
  have above := floor_le top a
  rw [is] at below
  rw [same] at above
  exact Nat.le_antisymm below above ▸ ha

/-- The buddy of a block below the top is a block, of this order at most. -/
theorem buddy_mem {a : Nat} (ha : a ∈ blocks) (lt : order a < top) :
    buddy (order a) a ∈ blocks ∧ order (buddy (order a) a) ≤ order a := by
  have aligned := tiled.aligned a ha
  obtain ⟨c, hc, is⟩ := tiled.cover (buddy (order a) a) (by
    rw [floor_buddy aligned lt]
    exact tiled.inside a ha)
  rcases Nat.lt_or_ge (order a) (order c) with higher | le
  · rw [floor_buddy aligned higher] at is
    rw [tiled.apart a c ha hc is] at higher
    exact absurd higher (Nat.lt_irrefl _)
  · rw [floor_self (dvd_of_le le (dvd_buddy aligned))] at is
    rw [is]
    exact ⟨hc, le⟩

/-- The block to the right, in the same region. -/
theorem right_mem {a : Nat} (ha : a ∈ blocks) (same : floor top (a + 2 ^ order a) = floor top a) :
    a + 2 ^ order a ∈ blocks := by
  obtain ⟨c, hc, is⟩ := tiled.cover (a + 2 ^ order a) (same ▸ tiled.inside a ha)
  have around := (floor_eq_iff (tiled.aligned c hc)).mp is
  have size := Nat.two_pow_pos (order a)
  have ne : a ≠ c := by
    rintro rfl
    omega
  rcases tiled.disjoint ha hc ne with before | after
  · rw [Nat.le_antisymm before around.1]
    exact hc
  · omega

theorem congr (same : ∀ a, a ∈ blocks → order' a = order a) : Tiled lo top regions blocks order' where
  region := tiled.region
  bounds a ha := same a ha ▸ tiled.bounds a ha
  aligned a ha := same a ha ▸ tiled.aligned a ha
  inside := tiled.inside
  cover x hx := by
    obtain ⟨a, ha, is⟩ := tiled.cover x hx
    exact ⟨a, ha, by rwa [same a ha]⟩
  apart a b ha hb is := tiled.apart a b ha hb (same b hb ▸ is)

/-- The upper half of a block is no block. -/
theorem half_notMem {a j : Nat} (ha : a ∈ blocks) (was : order a = j + 1) : a + 2 ^ j ∉ blocks := by
  intro member
  have aligned := was ▸ tiled.aligned a ha
  have is := tiled.apart _ a member ha (by rw [was, floor_half aligned (Nat.lt_succ_self j), floor_self aligned])
  have size := Nat.two_pow_pos j
  omega

/-- A block becomes its two halves. -/
theorem split {a j : Nat} (ha : a ∈ blocks) (was : order a = j + 1) (room : lo ≤ j) (left : order' a = j)
    (right : order' (a + 2 ^ j) = j) (same : ∀ b, b ∈ blocks → b ≠ a → order' b = order b) :
    Tiled lo top regions (insert (a + 2 ^ j) blocks) order' := by
  have aligned : 2 ^ (j + 1) ∣ a := was ▸ tiled.aligned a ha
  have lower : 2 ^ j ∣ a := dvd_of_le (Nat.le_succ j) aligned
  have upper : 2 ^ j ∣ a + 2 ^ j := (Nat.dvd_add_right lower).mpr (Nat.dvd_refl _)
  have bound := (tiled.bounds a ha).2
  have size := Nat.two_pow_pos j
  have whole : floor (order a) (a + 2 ^ j) = a := by
    rw [was, floor_half aligned (Nat.lt_succ_self j), floor_self aligned]
  refine ⟨tiled.region, ?_, ?_, ?_, ?_, ?_⟩
  · rintro b (rfl | hb)
    · rw [right]
      omega
    · by_cases here : b = a
      · subst here
        rw [left]
        omega
      · rw [same b hb here]
        exact tiled.bounds b hb
  · rintro b (rfl | hb)
    · rwa [right]
    · by_cases here : b = a
      · subst here
        rwa [left]
      · rw [same b hb here]
        exact tiled.aligned b hb
  · rintro b (rfl | hb)
    · rw [← floor_floor bound, whole]
      exact tiled.inside a ha
    · exact tiled.inside b hb
  · intro x hx
    obtain ⟨b, hb, is⟩ := tiled.cover x hx
    by_cases here : b = a
    · subst here
      rw [was, floor_succ aligned] at is
      rcases is with is | is
      · exact ⟨b, .inr hb, by rwa [left]⟩
      · exact ⟨b + 2 ^ j, .inl rfl, by rwa [right]⟩
    · exact ⟨b, .inr hb, by rwa [same b hb here]⟩
  · intro x y hx hy is
    rcases hy with rfl | hy
    · rw [right] at is
      rcases hx with rfl | hx
      · rfl
      · have inA : floor (order a) x = a := by
          rw [was, floor_succ aligned]
          exact .inr is
        rw [tiled.apart x a hx ha inA, floor_self lower] at is
        omega
    · by_cases here : y = a
      · subst here
        rw [left] at is
        rcases hx with rfl | hx
        · rw [floor_self upper] at is
          omega
        · refine tiled.apart x y hx ha ?_
          rw [was, floor_succ aligned]
          exact .inl is
      · rw [same y hy here] at is
        rcases hx with rfl | hx
        · exact absurd (tiled.unique hy ha is whole) here
        · exact tiled.apart x y hx hy is

/-- Two halves become a block. -/
theorem merge {a j : Nat} (ha : a ∈ blocks) (hu : a + 2 ^ j ∈ blocks) (left : order a = j)
    (right : order (a + 2 ^ j) = j) (aligned : 2 ^ (j + 1) ∣ a) (room : j < top) (now : order' a = j + 1)
    (same : ∀ b, b ∈ blocks → b ≠ a → b ≠ a + 2 ^ j → order' b = order b) :
    Tiled lo top regions (blocks \ {a + 2 ^ j}) order' := by
  have size := Nat.two_pow_pos j
  refine ⟨tiled.region, ?_, ?_, fun b hb => tiled.inside b hb.1, ?_, ?_⟩
  · intro b hb
    by_cases here : b = a
    · have bounds := (tiled.bounds a ha).1
      subst here
      rw [now]
      omega
    · rw [same b hb.1 here hb.2]
      exact tiled.bounds b hb.1
  · intro b hb
    by_cases here : b = a
    · subst here
      rwa [now]
    · rw [same b hb.1 here hb.2]
      exact tiled.aligned b hb.1
  · intro x hx
    obtain ⟨b, hb, is⟩ := tiled.cover x hx
    by_cases half : floor (j + 1) x = a
    · exact ⟨a, ⟨ha, fun same => by
        rw [Set.mem_singleton_iff] at same
        omega⟩, by rwa [now]⟩
    · rw [floor_succ aligned, not_or] at half
      have notA : b ≠ a := by
        rintro rfl
        exact half.1 (left ▸ is)
      have notU : b ≠ a + 2 ^ j := by
        rintro rfl
        rw [right] at is
        exact half.2 is
      exact ⟨b, ⟨hb, notU⟩, by rwa [same b hb notA notU]⟩
  · intro x y hx hy is
    by_cases here : y = a
    · subst here
      rw [now, floor_succ aligned] at is
      rcases is with is | is
      · exact tiled.apart x y hx.1 ha (left.symm ▸ is)
      · exact absurd (tiled.apart x (y + 2 ^ j) hx.1 hu (by rwa [right])) hx.2
    · rw [same y hy.1 here hy.2] at is
      exact tiled.apart x y hx.1 hy.1 is

/-- One more region, which is one block. -/
theorem grow {r : Nat} (aligned : 2 ^ top ∣ r) (new : r ∉ regions) (room : lo ≤ top) (now : order' r = top)
    (same : ∀ b, b ∈ blocks → order' b = order b) :
    Tiled lo top (insert r regions) (insert r blocks) order' := by
  have self := floor_self aligned
  have away (b : Nat) (hb : b ∈ blocks) : floor top b ≠ r := fun is => new (is ▸ tiled.inside b hb)
  refine ⟨?_, ?_, ?_, ?_, ?_, ?_⟩
  · rintro s (rfl | hs)
    · exact aligned
    · exact tiled.region s hs
  · rintro b (rfl | hb)
    · rw [now]
      exact ⟨room, Nat.le_refl _⟩
    · rw [same b hb]
      exact tiled.bounds b hb
  · rintro b (rfl | hb)
    · rwa [now]
    · rw [same b hb]
      exact tiled.aligned b hb
  · rintro b (rfl | hb)
    · exact .inl self
    · exact .inr (tiled.inside b hb)
  · rintro x (hx | hx)
    · exact ⟨r, .inl rfl, by rwa [now]⟩
    · obtain ⟨b, hb, is⟩ := tiled.cover x hx
      exact ⟨b, .inr hb, by rwa [same b hb]⟩
  · rintro x y hx (rfl | hy) is
    · rw [now] at is
      rcases hx with rfl | hx
      · rfl
      · exact absurd is (away x hx)
    · rw [same y hy] at is
      rcases hx with rfl | hx
      · refine absurd ?_ (away y hy)
        rw [← is, floor_floor (tiled.bounds y hy).2, self]
      · exact tiled.apart x y hx hy is

/-- A region that is one block goes. -/
theorem drop {r : Nat} (hr : r ∈ blocks) (whole : order r = top) :
    Tiled lo top (regions \ {r}) (blocks \ {r}) order := by
  have self : floor top r = r := floor_self (whole ▸ tiled.aligned r hr)
  refine ⟨fun s hs => tiled.region s hs.1, fun b hb => tiled.bounds b hb.1, fun b hb => tiled.aligned b hb.1, ?_, ?_,
    fun x y hx hy => tiled.apart x y hx.1 hy.1⟩
  · intro b hb
    exact ⟨tiled.inside b hb.1, fun is => hb.2 (tiled.apart b r hb.1 hr (whole.symm ▸ is))⟩
  · intro x hx
    obtain ⟨b, hb, is⟩ := tiled.cover x hx.1
    refine ⟨b, ⟨hb, ?_⟩, is⟩
    rintro rfl
    exact hx.2 (whole ▸ is)

end Tiled

end Buddy
