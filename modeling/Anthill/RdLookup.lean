import Anthill.Scan
import Anthill.Ustar

set_option autoImplicit false

namespace Anthill

open Bytes (Store)

/-- Memory around the kernel's ramdisk. Places are counted from its start, so that those before it are negative. -/
abbrev Image := Int → Byte

namespace Image

def view (m : Image) (a : Int) : Store := fun i => m (a + i)

-- The comparison of n + 1 characters, of the names as they stand in memory.
def strncmpFrom (l r : Nat → Byte) : Nat → Int
  | 0 => (l 0).toNat - (r 0).toNat
  | n + 1 =>
    if l 0 ≠ 0 ∧ r 0 ≠ 0 ∧ l 0 = r 0 then strncmpFrom (fun i => l (i + 1)) (fun i => r (i + 1)) n
    else (l 0).toNat - (r 0).toNat

-- The size n is not 0.
def strncmp (l r : Nat → Byte) (n : Nat) : Int := strncmpFrom l r (n - 1)

-- A header is given by its number. The kernel's memcmp answers as that of the C library.
def magic (m : Image) (header : Int) : Bool :=
  memcmp (m.view (header * 512 + 257)) (fun i => ustar.getD i 0) 6 = 0

def getSize (m : Image) (header : Int) : Int := sizeLoop (m.view (header * 512 + 124)) headerSizeSize 0 0

def named (m : Image) (filename : Nat → Byte) (header : Int) : Bool :=
  strncmp (m.view (header * 512)) filename headerNameSize = 0

-- The division of a negative number truncates.
def blocks (m : Image) (header : Int) : Int := (m.getSize header + 511).tdiv 512 + 1

/-- The loop of rd_lookup from a header on: what is returned, if not NULL, and the headers that have been looked at. -/
def lookup (m : Image) (filename : Nat → Byte) : Nat → Int → Option (Option Int × List Int)
  | 0, _ => none
  | fuel + 1, header =>
    if m.magic header then
      if m.named filename header then some (some (header + 1), [header])
      else (lookup m filename fuel (header + m.blocks header)).map fun r => (r.1, header :: r.2)
    else some (none, [header])

end Image

def rdLookup (m : Image) (filename : Nat → Byte) (fuel : Nat) : Option (Option Int × List Int) := m.lookup filename fuel 0

/-- The headers that rd_lookup comes to from another one that has not the name. -/
def Image.step (m : Image) (filename : Nat → Byte) (header : Int) : Option Int :=
  if m.magic header = true ∧ m.named filename header = false then some (header + m.blocks header) else none

/-- rd_lookup ends, and the headers that it has looked at come one behind the other from the start of the ramdisk on. -/
def RdScans (m : Image) (filename : Nat → Byte) : Prop :=
  ∃ fuel r visited, rdLookup m filename fuel = some (r, visited) ∧ visited.Pairwise (· < ·) ∧ ∀ h, h ∈ visited → 0 ≤ h

theorem Image.lookup_visits (m : Image) (filename : Nat → Byte) (fuel : Nat) (header : Int) :
    (m.lookup filename fuel header).map Prod.snd = Scan.visits (m.step filename) fuel header := by
  induction fuel generalizing header with
  | zero => rfl
  | succ fuel ih =>
    rw [lookup, Scan.visits, step]
    cases found : m.magic header with
    | false => simp
    | true =>
      cases same : m.named filename header with
      | true => simp
      | false =>
        simp only [if_true, and_self, Bool.false_eq_true, if_false, Option.map_map]
        rw [← ih, Option.map_map]
        rfl

theorem Image.blocks_pos_iff (m : Image) (header : Int) : 0 < m.blocks header ↔ -1022 ≤ m.getSize header := by
  rw [blocks]
  rcases Int.le_total 0 (m.getSize header + 511) with low | high
  · rw [Int.tdiv_eq_ediv_of_nonneg low]
    omega
  · obtain ⟨k, is⟩ := Int.exists_eq_neg_ofNat high
    rw [is, Int.neg_tdiv, Int.tdiv_eq_ediv_of_nonneg (Int.natCast_nonneg k)]
    omega

theorem rdScans_iff_ascends (m : Image) (filename : Nat → Byte) (last : Int)
    (ends : ∀ h, last ≤ h → m.magic h = false) : RdScans m filename ↔
      ∀ h, Scan.Reach (m.step filename) 0 h → ∀ c, m.step filename h = some c → h < c := by
  have above : (∃ fuel path, Scan.visits (m.step filename) fuel 0 = some path ∧ path.Pairwise (· < ·)) ↔
      RdScans m filename := by
    constructor
    · rintro ⟨fuel, path, run, increasing⟩
      obtain ⟨rest, rfl⟩ := Scan.visits_head run
      rw [← Image.lookup_visits] at run
      obtain ⟨⟨r, visited⟩, looked, rfl⟩ := Option.map_eq_some_iff.mp run
      refine ⟨fuel, r, _, looked, increasing, fun h member => ?_⟩
      rcases List.mem_cons.mp member with rfl | member
      · exact Int.le_refl _
      · exact Int.le_of_lt (List.rel_of_pairwise_cons increasing member)
    · rintro ⟨fuel, r, visited, looked, increasing, -⟩
      refine ⟨fuel, visited, ?_, increasing⟩
      rw [← Image.lookup_visits]
      exact congrArg (Option.map Prod.snd) looked
  rw [← above]
  refine Scan.visits_increasing_iff (fun h => (last - h).toNat) (fun h c taken up => ?_) 0
  rw [Image.step] at taken
  split_ifs at taken with passed
  have inside : h < last := by
    by_contra outside
    rw [ends h (Int.not_lt.mp outside)] at passed
    cases passed.1
  omega

/-- rd_lookup ends exactly if each header that it comes to and passes has a size above -1023. -/
theorem rdLookup_scans_iff (m : Image) (filename : Nat → Byte) (last : Int)
    (ends : ∀ h, last ≤ h → m.magic h = false) : RdScans m filename ↔
      ∀ h, Scan.Reach (m.step filename) 0 h → m.magic h = true → m.named filename h = false → -1022 ≤ m.getSize h := by
  rw [rdScans_iff_ascends m filename last ends]
  refine forall_congr' fun h => forall_congr' fun _ => ?_
  constructor
  · intro up found other
    have next := up _ (if_pos ⟨found, other⟩)
    rw [← m.blocks_pos_iff]
    omega
  · intro large c taken
    rw [Image.step] at taken
    split_ifs at taken with passed
    obtain rfl := Option.some.inj taken
    have positive := (m.blocks_pos_iff h).mpr (large passed.1 passed.2)
    omega

-- A ramdisk of one header without a name, its size field filled with one character.
def fieldImage (c : Byte) : Image := fun a =>
  if 124 ≤ a ∧ a < 136 then c else if 257 ≤ a ∧ a < 263 then ustar.getD (a - 257).toNat 0 else 0

theorem fieldImage_ends (c : Byte) (h : Int) (behind : 1 ≤ h) : (fieldImage c).magic h = false := by
  rw [Image.magic, decide_eq_false_iff_not, memcmp_eq_zero]
  intro same
  have first := same 0 (by decide)
  rw [Image.view, fieldImage, if_neg (by omega), if_neg (by omega)] at first
  revert first
  decide

theorem rdLookup_scans_zeros : RdScans (fieldImage 0x30) fun _ => 0x78 := by
  refine (rdLookup_scans_iff _ _ 1 (fieldImage_ends 0x30)).mpr fun h reach found _ => ?_
  have first : h = 0 ∨ 1 ≤ h := by
    induction reach with
    | refl => exact .inl rfl
    | tail _ taken ih =>
      rw [Image.step] at taken
      split_ifs at taken with passed
      obtain rfl := Option.some.inj taken
      rcases ih passed.1 passed.2 with rfl | behind
      · exact .inr (by decide +kernel)
      · rw [fieldImage_ends 0x30 _ behind] at passed
        cases passed.1
  rcases first with rfl | behind
  · decide +kernel
  · rw [fieldImage_ends 0x30 h behind] at found
    cases found

/-- A size field of blanks leads back. -/
theorem rdLookup_blanks : ¬ ∀ (m : Image) (filename : Nat → Byte) (last : Int),
    (∀ h, last ≤ h → m.magic h = false) → RdScans m filename := by
  intro claim
  have scans := claim (fieldImage 0x20) (fun _ => 0x78) 1 (fieldImage_ends 0x20)
  have ascends := (rdScans_iff_ascends _ _ 1 (fieldImage_ends 0x20)).mp scans
  have next := ascends 0 .refl _ (if_pos (by decide +kernel))
  exact absurd next (by decide +kernel)

end Anthill
