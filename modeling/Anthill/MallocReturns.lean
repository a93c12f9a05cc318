import Anthill.HeapRuns
import Anthill.HeapSearch

set_option autoImplicit false

namespace Anthill

open Buddy LinkedList

variable {other : Nat → Bool}

inductive MallocErrno where
  | einval
  | enomem
deriving DecidableEq, Repr

namespace Arena

/-- malloc with what it leaves in errno, where it sets it. -/
def mallocErrno (other : Nat → Bool) (fuel : Nat) (replies : List (Option Nat)) (size : BitVec 64) (h : Arena) :
    HeapResult (Nat × Option MallocErrno) :=
  if size = 0 then .ok (0, some .einval) h
  else
    let actualSize := size + BitVec.ofNat 64 blockSize
    if mallocBlockSize < actualSize.toNat then .ok (0, some .enomem) h
    else
      let j := actualSize.toNat.size
      (blockFind other j fuel replies h.firstBlock 0 h).bind fun availableBlock h =>
        if availableBlock = 0 then .ok (0, some .enomem) h else .ok (availableBlock + blockSize, none) h

/-- The pointer `p` is served from a heap with `live` in use: it has a block of its own with room for the size, and
no block of the heap is smaller than a header. -/
structure Serves (other : Nat → Bool) (live : List (Nat × Nat)) (size p : Nat) (h : Arena) (blocks : Set Nat) : Prop where
  sound : h.Sound True other blocks ((p, size) :: live)
  block : ∃ b, b ∈ blocks ∧ p = b + blockSize ∧ h.available b = false ∧ size + blockSize ≤ 2 ^ h.order b
  headers : ∀ b, b ∈ blocks → blockSize ≤ 2 ^ h.order b

section Sound

variable {h h' : Arena} {blocks blocks' : Set Nat} {live : List (Nat × Nat)}

theorem mallocErrno_malloc (fuel : Nat) (replies : List (Option Nat)) (size : BitVec 64) :
    ((h.mallocErrno other fuel replies size).bind fun r h => .ok r.1 h) = h.malloc other fuel replies size := by
  unfold mallocErrno Arena.malloc
  dsimp only
  split_ifs
  · rfl
  · rfl
  · cases blockFind other (size + BitVec.ofNat 64 blockSize).toNat.size fuel replies h.firstBlock 0 h with
    | ok b h' =>
      by_cases none : b = 0
      · simp only [HeapResult.bind, if_pos none]
      · simp only [HeapResult.bind, if_neg none]
    | fault => rfl
    | overread => rfl
    | unfinished => rfl

/-- A block that block_find has taken for a size. -/
theorem Takes.serves {a size : Nat} (takes : Takes True other (size + blockSize).size a live h h' blocks blocks') :
    Serves other live size (a + blockSize) h' blocks' := by
  have enough : size + blockSize ≤ 2 ^ h'.order a := by
    rw [takes.order]
    exact Nat.le_of_lt (Nat.lt_size_self _)
  refine ⟨takes.sound.give takes.member takes.used enough takes.away, ⟨a, takes.member, rfl, takes.used, enough⟩,
    fun b hb => ?_⟩
  have least := Nat.pow_le_pow_right (by decide : 0 < 2) (takes.sound.tiled.bounds b hb).1
  exact Nat.le_trans (by decide) least

section Request

variable {size : BitVec 64} {reply : Option Nat} {l : List Nat}

/-- A request that fits: malloc returns, with the block that block_find takes. -/
theorem Sound.mallocErrno_takes (sound : h.Sound True other blocks live) (some : size ≠ 0)
    (room : size.toNat + blockSize < mallocBlockSize) (chunk : ∀ c, reply = .some c → Chunk other c ∧ c ∉ h.chunks)
    (path : Path h.next 0 h.firstBlock l) {a : Nat}
    (fit : h.firstFit (size.toNat + blockSize).size reply l = .some a) :
    ∃ h' blocks', Takes True other (size.toNat + blockSize).size a live h h' blocks blocks' ∧ ∃ n, ∀ fuel replies,
      n ≤ fuel → h.mallocErrno other fuel (reply :: replies) size = .ok (a + blockSize, none) h' := by
  have top : (size.toNat + blockSize).size ≤ mallocMaxOrder := Nat.size_le.mpr room
  obtain ⟨h', blocks', takes, n, found⟩ := sound.blockFind_first (sizeOrder_large some) top chunk path fit
  refine ⟨h', blocks', takes, n, fun fuel replies enough => ?_⟩
  have fits : size.toNat + blockSize < 2 ^ 64 := Nat.lt_trans room (by decide)
  rw [mallocErrno, if_neg some]
  simp only [toNat_actualSize fits, if_neg (Nat.not_lt.mpr (Nat.le_of_lt room)), found fuel replies enough]
  exact if_neg (takes.sound.ne_zero takes.member)

theorem Sound.malloc_takes (sound : h.Sound True other blocks live) (some : size ≠ 0)
    (room : size.toNat + blockSize < mallocBlockSize) (chunk : ∀ c, reply = .some c → Chunk other c ∧ c ∉ h.chunks)
    (path : Path h.next 0 h.firstBlock l) {a : Nat}
    (fit : h.firstFit (size.toNat + blockSize).size reply l = .some a) :
    ∃ h' blocks', Takes True other (size.toNat + blockSize).size a live h h' blocks blocks' ∧ ∃ n, ∀ fuel replies,
      n ≤ fuel → h.malloc other fuel (reply :: replies) size = .ok (a + blockSize) h' := by
  obtain ⟨h', blocks', takes, n, found⟩ := sound.mallocErrno_takes some room chunk path fit
  refine ⟨h', blocks', takes, n, fun fuel replies enough => ?_⟩
  rw [← mallocErrno_malloc, found fuel replies enough]
  rfl

/-- A request for which mmap has no chunk. -/
theorem Sound.malloc_fails (sound : h.Sound True other blocks live) (top : other (2 ^ 64) = false) (some : size ≠ 0)
    (room : size.toNat + blockSize < mallocBlockSize) (path : Path h.next 0 h.firstBlock l)
    (fit : h.firstFit (size.toNat + blockSize).size reply l = none) :
    ∃ n, ∀ fuel replies, n ≤ fuel → h.malloc other fuel (reply :: replies) size = .fault := by
  obtain ⟨missed, rfl⟩ := Option.or_eq_none_iff.mp fit
  obtain ⟨n, fails⟩ := sound.blockFind_fails top path fun b hb => Bool.not_eq_true _ ▸ List.find?_eq_none.mp missed b hb
  refine ⟨n, fun fuel replies enough => ?_⟩
  have fits : size.toNat + blockSize < 2 ^ 64 := Nat.lt_trans room (by decide)
  rw [Arena.malloc, if_neg some]
  simp only [toNat_actualSize fits, if_neg (Nat.not_lt.mpr (Nat.le_of_lt room)), fails fuel replies enough]
  rfl

/-- A request that has the size of the largest block with its header: block_find looks for a block of twice that
size, and asks for chunks without an end. -/
theorem Sound.malloc_unfinished (sound : h.Sound True other blocks live) (top : other (2 ^ 64) = false)
    (whole : size.toNat + blockSize = mallocBlockSize) (replies : List (Option Nat))
    (supplies : Supplies other h replies) :
    ∃ n, ∀ fuel, n ≤ fuel → ∀ p h', h.malloc other fuel replies size ≠ .ok p h' := by
  have fits : size.toNat + blockSize < 2 ^ 64 := whole ▸ by decide
  have some : size ≠ 0 := by
    rintro rfl
    exact absurd whole (by decide)
  have high : (size.toNat + blockSize).size = mallocMaxOrder + 1 := by
    rw [whole, mallocBlockSize, Nat.size_pow]
  obtain ⟨n, stuck⟩ := sound.blockFind_high top (Nat.lt_succ_self mallocMaxOrder) replies supplies
  refine ⟨n, fun fuel enough p h' returned => ?_⟩
  rw [Arena.malloc, if_neg some] at returned
  simp only [toNat_actualSize fits, if_neg (Nat.not_lt.mpr (Nat.le_of_eq whole)), high] at returned
  cases is : Arena.blockFind other (mallocMaxOrder + 1) fuel replies h.firstBlock 0 h with
  | ok b h₁ => exact stuck fuel enough b h₁ is
  | fault => simp [is, HeapResult.bind] at returned
  | overread => simp [is, HeapResult.bind] at returned
  | unfinished => simp [is, HeapResult.bind] at returned

end Request

theorem mallocErrno_refuses {size : BitVec 64} (fits : size.toNat + blockSize < 2 ^ 64)
    (large : mallocBlockSize < size.toNat + blockSize) (fuel : Nat) (replies : List (Option Nat)) :
    h.mallocErrno other fuel replies size = .ok (0, some .enomem) h := by
  have some : size ≠ 0 := by
    rintro rfl
    exact absurd large (by decide)
  rw [mallocErrno, if_neg some]
  simp only [toNat_actualSize fits, if_pos large]

theorem ensures_any {α : Type} (result : HeapResult α) : result.Ensures True (fun _ => True) fun _ _ => True := by
  cases result <;> trivial

theorem expand_gives (h : Arena) (block : Nat) (reply : Option Nat) (nonnull : reply ≠ .some 0) :
    (h.expand other block reply).Ensures True (fun _ => True) fun failed _ => failed = 0 := by
  have some : (h.mmap reply).1 ≠ 0 := by
    cases reply with
    | none => exact (by decide : 2 ^ 64 - 1 ≠ 0)
    | some c => exact fun none => nonnull (congrArg Option.some none)
  unfold Arena.expand
  dsimp only
  rw [if_neg some]
  refine (ensures_any _).bind fun _ h' _ => ?_
  split_ifs
  · exact (ensures_any _).bind fun _ _ _ => rfl
  · rfl

/-- What block_find returns is a block that has the order, as mmap does not give address 0. -/
theorem blockFind_gives (other : Nat → Bool) (j fuel : Nat) (replies : List (Option Nat)) (current last : Nat) (h : Arena)
    (nonnull : .some 0 ∉ replies) :
    (blockFind other j fuel replies current last h).Ensures True (fun _ => True) fun b h' => b ≠ 0 ∧ h'.order b = j := by
  induction fuel generalizing replies current last h with
  | zero => trivial
  | succ fuel ih =>
    unfold blockFind
    split
    next some =>
      refine (ensures_any _).bind fun _ h _ => ?_
      split_ifs with skip larger
      · exact ih replies _ _ h nonnull
      · exact (ensures_any _).bind fun _ h _ => ih replies _ _ _ nonnull
      · refine ⟨some, ?_⟩
        have least := (not_or.mp skip).2
        rw [Arena.order, header_put, ← Arena.order]
        omega
    next =>
      cases replies with
      | nil => trivial
      | cons reply replies =>
        obtain ⟨this, rest⟩ := List.ne_and_not_mem_of_not_mem_cons nonnull
        refine (expand_gives h last reply this.symm).bind ?_
        rintro _ h' rfl
        exact ih replies _ _ h' rest

/-- A request for which the size overflows gets a block of at most 32 bytes. -/
theorem malloc_overflows {size : BitVec 64} (wraps : 2 ^ 64 ≤ size.toNat + blockSize) {fuel : Nat}
    {replies : List (Option Nat)} (nonnull : .some 0 ∉ replies) {r : Nat}
    (is : h.malloc other fuel replies size = .ok r h') :
    ∃ a, r = a + blockSize ∧ 2 ^ h'.order a ≤ 32 := by
  have bound := size.isLt
  have some : size ≠ 0 := by
    rintro rfl
    exact absurd wraps (by decide)
  have small : (size + BitVec.ofNat 64 blockSize).toNat < 2 ^ 5 := by
    rw [BitVec.toNat_add, BitVec.toNat_ofNat]
    rw [blockSize] at *
    omega
  have low : (size + BitVec.ofNat 64 blockSize).toNat.size ≤ 5 := Nat.size_le.mpr small
  have refused : ¬mallocBlockSize < (size + BitVec.ofNat 64 blockSize).toNat :=
    Nat.not_lt.mpr (Nat.le_trans (Nat.le_of_lt small) (by decide))
  rw [Arena.malloc, if_neg some] at is
  simp only [if_neg refused] at is
  have gives := blockFind_gives other (size + BitVec.ofNat 64 blockSize).toNat.size fuel replies h.firstBlock 0 h
    nonnull
  generalize blockFind other (size + BitVec.ofNat 64 blockSize).toNat.size fuel replies h.firstBlock 0 h = result at is gives
  cases result with
  | ok a h₁ =>
    simp only [HeapResult.bind, if_neg gives.1, HeapResult.ok.injEq] at is
    obtain ⟨rfl, rfl⟩ := is
    refine ⟨a, rfl, ?_⟩
    rw [gives.2]
    exact Nat.pow_le_pow_right (by decide : 0 < 2) low
  | fault => simp [HeapResult.bind] at is
  | overread => simp [HeapResult.bind] at is
  | unfinished => simp [HeapResult.bind] at is

end Sound

end Arena

section Returns

variable {h : Arena} {blocks : Set Nat} {live : List (Nat × Nat)}

/-- Calls of malloc with sizes that are 0, that fit below the largest block, and that do not fit. One chunk of mmap
is enough, as the replies may be but one. -/
theorem malloc_returns (sound : h.Sound True other blocks live) (size : BitVec 64) (replies : List (Option Nat))
    (fresh : h.Fresh other replies) (some : replies ≠ []) :
    (size = 0 → ∀ fuel, h.mallocErrno other fuel replies size = .ok (0, .some .einval) h) ∧
    (size ≠ 0 → size.toNat + blockSize < mallocBlockSize → ∃ p h' blocks', Arena.Serves other live size.toNat p h' blocks' ∧
      ∃ n, ∀ fuel, n ≤ fuel → h.mallocErrno other fuel replies size = .ok (p, none) h') ∧
    (mallocBlockSize < size.toNat + blockSize → size.toNat + blockSize < 2 ^ 64 → ∀ fuel,
      h.mallocErrno other fuel replies size = .ok (0, .some .enomem) h) := by
  refine ⟨fun empty fuel => ?_, fun nonzero room => ?_, fun large fits fuel => ?_⟩
  · rw [Arena.mallocErrno, if_pos empty]
  · obtain ⟨reply, replies, rfl⟩ := List.exists_cons_of_ne_nil some
    obtain ⟨c, rfl, chunk, new⟩ := fresh.2 _ (List.mem_cons_self ..)
    obtain ⟨⟨l, path, -⟩, -, -⟩ := sound.listed trivial
    have fit : h.firstFit (size.toNat + blockSize).size (.some c) l = .some _ := Option.or_some
    obtain ⟨h', blocks', takes, n, found⟩ := sound.mallocErrno_takes nonzero room
      (fun _ is => Option.some.inj is ▸ ⟨chunk, new⟩) path fit
    exact ⟨_, h', blocks', takes.serves, n, fun fuel enough => found fuel replies enough⟩
  · exact Arena.mallocErrno_refuses fits large fuel replies

theorem malloc_returns_first : ∃ p h' blocks', Arena.Serves noOther [] 8 p h' blocks' ∧ ∃ n, ∀ fuel, n ≤ fuel →
    (noHeap fun _ => 0).1.mallocErrno noOther fuel [some firstChunk] 8 = .ok (p, none) h' :=
  (malloc_returns (noHeap_sound fun _ => 0) 8 [some firstChunk] (firstChunk_fresh _) (by decide)).2.1 (by decide) (by decide)

/-- No block for a request of no bytes. -/
theorem malloc_zero : (0 : BitVec 64).toNat + blockSize ≤ mallocBlockSize ∧ ∀ fuel,
    (noHeap fun _ => 0).1.mallocErrno noOther fuel [some firstChunk] 0 =
      .ok (0, some .einval) (noHeap fun _ => 0).1 := by
  refine ⟨by decide, fun fuel => ?_⟩
  rw [Arena.mallocErrno, if_pos rfl]

end Returns

end Anthill
