import Anthill.Descriptor
import Mathlib.Tactic.NormNum

set_option autoImplicit false

namespace Anthill

abbrev MemoryMap := Nat → Word

def bitsOf : Nat := 64
def totalPages : Nat := (memHigh.toNat - memLow.toNat) / pageSize.toNat
def memMapSize : Nat := totalPages / bitsOf - 1

def oneShl (offset : Nat) : Word := (1 : Word) <<< offset

-- Pages that pmm_get can return: the last words of the range are not scanned.
def managed : Nat := memMapSize * bitsOf

def pmmPage (addr : Word) : Nat := ((addr - memLow) / pageSize).toNat

def pmmFree (map : MemoryMap) (addr : Word) : MemoryMap :=
  let page := pmmPage addr
  let index := page / bitsOf
  let offset := page % bitsOf
  fun i => if i = index then map i &&& ~~~oneShl offset else map i

def pmmMark (map : MemoryMap) (addr : Word) : MemoryMap :=
  let page := pmmPage addr
  let index := page / bitsOf
  let offset := page % bitsOf
  fun i => if i = index then map i ||| oneShl offset else map i

def poolPage (n : Nat) : Word := memLow + BitVec.ofNat 64 n * pageSize

def freeBit (word : Word) : Option Nat :=
  (List.range bitsOf).find? fun off => word &&& oneShl off == 0

def pmmFind (map : MemoryMap) : Option (Nat × Nat) :=
  (List.range memMapSize).findSome? fun i =>
    if map i = BitVec.allOnes 64 then none else (freeBit (map i)).map fun off => (i, off)

def pmmGet (map : MemoryMap) : Option (Word × MemoryMap) :=
  (pmmFind map).map fun found =>
    (poolPage (found.1 * bitsOf + found.2),
      fun i => if i = found.1 then map i ||| oneShl found.2 else map i)

def marked (map : MemoryMap) (n : Nat) : Bool := (map (n / bitsOf)).getLsbD (n % bitsOf)

theorem managed_eq : managed = 253760 := by decide

theorem poolPage_toNat (n : Nat) (inside : n < managed) :
    (poolPage n).toNat = 0x80000 + n * 4096 := by
  rw [managed_eq] at inside
  unfold poolPage memLow pageSize
  bv_omega

theorem pmmPage_poolPage (n : Nat) (inside : n < managed) : pmmPage (poolPage n) = n := by
  have value := poolPage_toNat n inside
  rw [managed_eq] at inside
  unfold pmmPage memLow pageSize
  rw [BitVec.toNat_udiv, BitVec.toNat_sub, value]
  have low : (0x80000 : Word).toNat = 0x80000 := by decide
  have size : (0x1000 : Word).toNat = 0x1000 := by decide
  rw [low, size]
  omega

theorem poolPage_inj (m n : Nat) (insideM : m < managed) (insideN : n < managed)
    (same : poolPage m = poolPage n) : m = n := by
  rw [← pmmPage_poolPage m insideM, same, pmmPage_poolPage n insideN]

theorem oneBit (k j : Nat) (inside : k < bitsOf) :
    (oneShl k).getLsbD j = decide (k = j) := by
  have bit := BitVec.getLsbD_twoPow (w := 64) k j
  rw [decide_eq_true (show k < 64 from inside), Bool.true_and] at bit
  exact bit

theorem mod_bitsOf_lt (n : Nat) : n % bitsOf < bitsOf := Nat.mod_lt n (by decide)

theorem same_bit (m n : Nat) (word : n / bitsOf = m / bitsOf) (bit : m % bitsOf = n % bitsOf) :
    n = m := by
  rw [← Nat.div_add_mod n bitsOf, ← Nat.div_add_mod m bitsOf, word, bit]

theorem marked_pmmMark (map : MemoryMap) (addr : Word) (n : Nat) :
    marked (pmmMark map addr) n = (decide (n = pmmPage addr) || marked map n) := by
  unfold marked pmmMark
  by_cases same : n = pmmPage addr
  · subst same
    simp [BitVec.getLsbD_or, oneBit _ _ (mod_bitsOf_lt _)]
  · by_cases word : n / bitsOf = pmmPage addr / bitsOf
    · have bit : ¬ pmmPage addr % bitsOf = n % bitsOf := fun bit => same (same_bit _ _ word bit)
      simp [word, same, BitVec.getLsbD_or, oneBit _ _ (mod_bitsOf_lt _), bit]
    · simp [word, same]

theorem marked_pmmFree (map : MemoryMap) (addr : Word) (n : Nat) :
    marked (pmmFree map addr) n = (marked map n && !decide (n = pmmPage addr)) := by
  unfold marked pmmFree
  by_cases same : n = pmmPage addr
  · subst same
    simp [BitVec.getLsbD_and, BitVec.getLsbD_not, oneBit _ _ (mod_bitsOf_lt _)]
  · by_cases word : n / bitsOf = pmmPage addr / bitsOf
    · have bit : ¬ pmmPage addr % bitsOf = n % bitsOf := fun bit => same (same_bit _ _ word bit)
      have low : n % bitsOf < 64 := mod_bitsOf_lt n
      simp only [word, same, if_true, BitVec.getLsbD_and, BitVec.getLsbD_not,
        oneBit _ _ (mod_bitsOf_lt _), bit, low, decide_true, decide_false, Bool.not_false,
        Bool.and_true]
    · simp [word, same]

-- Taking a page and giving it back leaves the bitmap as it was.
theorem pmmFree_pmmMark (map : MemoryMap) (addr : Word) (clear : marked map (pmmPage addr) = false) :
    pmmFree (pmmMark map addr) addr = map := by
  funext i
  unfold pmmFree pmmMark
  by_cases word : i = pmmPage addr / bitsOf
  · subst word
    unfold marked at clear
    apply BitVec.eq_of_getLsbD_eq
    intro j inside
    simp only [if_true, BitVec.getLsbD_and, BitVec.getLsbD_or, BitVec.getLsbD_not,
      oneBit _ _ (mod_bitsOf_lt _)]
    by_cases here : pmmPage addr % bitsOf = j
    · subst here
      simp [clear]
    · simp [here, inside]
  · simp [word]

theorem freeBit_some (word : Word) (off : Nat) (found : freeBit word = some off) :
    off < bitsOf ∧ word.getLsbD off = false ∧ ∀ k, k < off → word.getLsbD k = true := by
  have clear (k : Nat) (inside : k < bitsOf) :
      (word &&& oneShl k == 0) = !word.getLsbD k := by
    rw [Bool.eq_iff_iff, beq_iff_eq]
    constructor
    · intro zero
      have bit := congrArg (fun w : Word => w.getLsbD k) zero
      simpa [BitVec.getLsbD_and, oneBit k k inside] using bit
    · intro bit
      apply BitVec.eq_of_getLsbD_eq
      intro j small
      rw [BitVec.getLsbD_and, oneBit k j inside]
      by_cases here : k = j
      · subst here
        simpa using bit
      · simp [here]
  unfold freeBit at found
  rw [List.find?_range_eq_some] at found
  obtain ⟨zero, inside, earlier⟩ := found
  rw [List.mem_range] at inside
  refine ⟨inside, ?_, ?_⟩
  · rw [clear off inside] at zero
    simpa using zero
  · intro k before
    have set := earlier k before
    rw [clear k (by omega)] at set
    simpa using set

theorem freeBit_none (word : Word) (none : freeBit word = none) (off : Nat) (inside : off < bitsOf) :
    word.getLsbD off = true := by
  unfold freeBit at none
  rw [List.find?_range_eq_none] at none
  have set := none off inside
  by_contra clear
  have zero : word &&& oneShl off = 0 := by
    apply BitVec.eq_of_getLsbD_eq
    intro j _
    rw [BitVec.getLsbD_and, oneBit off j inside]
    by_cases here : off = j
    · subst here
      simpa using clear
    · simp [here]
  simp [zero] at set

theorem marked_at (map : MemoryMap) (i off : Nat) (inside : off < bitsOf) :
    marked map (i * bitsOf + off) = (map i).getLsbD off := by
  have word : (i * bitsOf + off) / bitsOf = i := by
    unfold bitsOf at inside ⊢
    omega
  have bit : (i * bitsOf + off) % bitsOf = off := by
    unfold bitsOf at inside ⊢
    omega
  rw [marked, word, bit]

theorem pmmFind_some (map : MemoryMap) (i off : Nat) (found : pmmFind map = some (i, off)) :
    i < memMapSize ∧ freeBit (map i) = some off := by
  obtain ⟨j, member, here⟩ := List.exists_of_findSome?_eq_some found
  split_ifs at here
  rw [Option.map_eq_some_iff] at here
  obtain ⟨k, bit, same⟩ := here
  obtain ⟨rfl, rfl⟩ := Prod.mk.injEq _ _ _ _ ▸ same
  exact ⟨List.mem_range.mp member, bit⟩

/-- A page that pmm_get returns was unmarked, and is the only page it marks. -/
theorem pmmGet_some (map map' : MemoryMap) (addr : Word) (found : pmmGet map = some (addr, map')) :
    ∃ n, n < managed ∧ addr = poolPage n ∧ marked map n = false ∧ map' = pmmMark map addr := by
  unfold pmmGet at found
  rw [Option.map_eq_some_iff] at found
  obtain ⟨⟨i, off⟩, position, result⟩ := found
  obtain ⟨inside, bit⟩ := pmmFind_some map i off position
  obtain ⟨small, clear, _⟩ := freeBit_some _ _ bit
  have range : i * bitsOf + off < managed := by
    unfold managed
    have step : (i + 1) * bitsOf ≤ memMapSize * bitsOf := Nat.mul_le_mul_right _ inside
    rw [Nat.add_mul] at step
    omega
  rw [Prod.mk.injEq] at result
  obtain ⟨rfl, rfl⟩ := result
  refine ⟨i * bitsOf + off, range, rfl, (marked_at map i off small).trans clear, ?_⟩
  funext j
  have word : (i * bitsOf + off) / bitsOf = i := by
    unfold bitsOf at small ⊢
    omega
  have rest : (i * bitsOf + off) % bitsOf = off := by
    unfold bitsOf at small ⊢
    omega
  simp only [pmmMark, pmmPage_poolPage _ range, word, rest]

theorem pmmGet_none (map : MemoryMap) (empty : pmmGet map = none) (n : Nat) (inside : n < managed) :
    marked map n = true := by
  unfold pmmGet pmmFind at empty
  rw [Option.map_eq_none_iff, List.findSome?_eq_none_iff] at empty
  have word : n / bitsOf < memMapSize := Nat.div_lt_of_lt_mul (by rwa [Nat.mul_comm])
  have full := empty (n / bitsOf) (List.mem_range.mpr word)
  unfold marked
  split_ifs at full with ones
  · rw [ones, BitVec.getLsbD_allOnes]
    exact decide_eq_true (mod_bitsOf_lt n)
  · rw [Option.map_eq_none_iff] at full
    exact freeBit_none _ full _ (mod_bitsOf_lt n)

-- The scan runs over thousands of words: it is used through the lemmas above.
attribute [irreducible] pmmGet

end Anthill
