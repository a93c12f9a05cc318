import Anthill.MallocReturns

set_option autoImplicit false

namespace Anthill

open Buddy LinkedList
open Bytes (Store)

variable {linked : Prop} {other : Nat → Bool}

namespace Arena

-- The bytes of a block.
def InBlock (h : Arena) (b y : Nat) : Prop := b ≤ y ∧ y < b + 2 ^ h.order b

/-- The call of memcpy in realloc, if it comes to it, reads and writes the blocks of `p` and of the result only. -/
def CopiesInside (other : Nat → Bool) (fuel : Nat) (replies : List (Option Nat)) (p : Nat) (size : BitVec 64) (h : Arena) :
    Prop :=
  ∀ n h₁ r h₂, h.blockGetSize other fuel p = .ok n h₁ → h₁.malloc other fuel replies size = .ok r h₂ → r ≠ 0 →
    ∀ i, i < min n size.toNat → ∀ y, y = p + i ∨ y = r + i →
      h.InBlock (p - blockSize) y ∨ h₂.InBlock (r - blockSize) y

/-- What a realloc of `p` that succeeds leaves. -/
structure Reallocated (other : Nat → Bool) (live : List (Nat × Nat)) (p size : Nat) (h : Arena) (r : Nat) (h' : Arena) :
    Prop where
  copied : ∀ i, i < min (2 ^ h.order (p - blockSize) - blockSize) size → h'.mem (r + i) = h.mem (p + i)
  others : ∀ x, x ∈ live → x.1 ≠ p → ∀ i, i < 2 ^ h.order (x.1 - blockSize) - blockSize →
    h'.mem (x.1 + i) = h.mem (x.1 + i)
  released : h'.available (p - blockSize) = true
  sound : ∃ blocks, h'.Sound True other blocks ((r, size) :: live.filter fun x => x.1 ≠ p)

/-- What a realloc of `p` that fails leaves. -/
structure Refused (other : Nat → Bool) (live : List (Nat × Nat)) (p : Nat) (h h' : Arena) : Prop where
  same : ∀ y, h.InBlock (p - blockSize) y → h'.mem y = h.mem y
  sound : ∃ blocks, h'.Sound True other blocks live

/-- realloc returns, has copied within the two blocks, and leaves what it says. -/
def ReallocKeeps (other : Nat → Bool) (s : HeapUse) (replies : List (Option Nat)) (p : Nat) (size : BitVec 64) : Prop :=
  ∃ n, ∀ fuel, n ≤ fuel → s.1.CopiesInside other fuel replies p size ∧
    ∃ r h', s.1.realloc other fuel replies p size = .ok r h' ∧
      (r = 0 → Refused other s.2 p s.1 h') ∧ (r ≠ 0 → Reallocated other s.2 p size.toNat s.1 r h')

/-- Sizes that the copy is right for, in a heap with the blocks `l` and the next answer of mmap: malloc refuses them, or
it has a block for them, and they fit in the block of `p` or malloc takes the block behind it. -/
structure CopyFits (h : Arena) (p size : Nat) (reply : Option Nat) (l : List Nat) : Prop where
  small : size + blockSize < 2 ^ 64
  ends : size + blockSize ≠ mallocBlockSize
  inside : mallocBlockSize < size + blockSize ∨ ∃ a, h.firstFit (size + blockSize).size reply l = some a ∧
    (size + blockSize ≤ 2 ^ h.order (p - blockSize) ∨ a = p - blockSize + 2 ^ h.order (p - blockSize))

-- The merge of `b` takes the buddies of the orders below `m`, where the block `a` is not free any more.
def JoinsBut (h : Arena) (a b m : Nat) : Prop :=
  ∀ i, h.order b ≤ i → i < m → h.available (buddyAt b i) = true ∧ buddyAt b i ≠ a

/-- Heaps where a free of the block `b` does right after malloc has taken `a` for the order `j`: the merge takes no buddy
of another order, and if it comes to the whole chunk, the other half of the next size is a chunk or would be at address 0,
and the chunk is the first, or the block before it in the list is the one that its prev names and has not been split. -/
structure FreesRight (h : Arena) (a j b : Nat) : Prop where
  matched : ∀ i, h.order b ≤ i → i < mallocMaxOrder → h.JoinsBut a b (i + 1) → h.order (buddyAt b i) = i
  chunk : h.JoinsBut a b mallocMaxOrder →
    page b ^^^ mallocBlockSize = 0 ∨ page b ^^^ mallocBlockSize = a ∨ page b ^^^ mallocBlockSize ∈ h.chunks
  before : h.JoinsBut a b mallocMaxOrder → page b = h.firstBlock ∨
    (∃ l₁ l₂, Path h.next 0 h.firstBlock (l₁ ++ h.prev (page b) :: page b :: l₂)) ∧ (h.prev (page b) = a → h.order a = j)

section Sound

variable {h h' : Arena} {blocks blocks' : Set Nat} {live : List (Nat × Nat)}

-- No header is in the memory of a block behind its own.
theorem Sound.beside_headers (sound : h.Sound linked other blocks live) {b y : Nat} (hb : b ∈ blocks)
    (low : b + blockSize ≤ y) (high : y < b + 2 ^ h.order b) (c : Nat) (hc : c ∈ blocks) : y < c ∨ c + blockSize ≤ y := by
  have size := Nat.pow_le_pow_right (by decide : 0 < 2) (sound.tiled.bounds c hc).1
  rw [blockSize] at low ⊢
  by_cases same : b = c
  · omega
  · rcases sound.tiled.disjoint hb hc same with before | after <;> omega

theorem Sound.mapped_inside (sound : h.Sound linked other blocks live) {b y : Nat} (hb : b ∈ blocks)
    (inside : h.InBlock b y) : h.mapped other y = true := by
  obtain ⟨low, high⟩ := inside
  have base := floor_le mallocMaxOrder b
  have extent := sound.tiled.extent hb
  have samePage : page y = page b := (floor_eq_iff (dvd_floor mallocMaxOrder b)).mpr (by omega)
  have chunk : page b ∈ h.chunks := sound.tiled.inside b hb
  rw [mapped, samePage, decide_eq_true chunk, Bool.true_or]

theorem Sound.seekBlock_path (sound : h.Sound linked other blocks live) {block : Nat} (l : List Nat) (current fuel : Nat)
    (path : Path h.next block current l) (inside : ∀ b, b ∈ l → b ∈ blocks) (away : block ∉ l) :
    Arena.seekBlock other block (l.length + (fuel + 1)) current h = .ok block h := by
  induction l generalizing current with
  | nil =>
    obtain rfl : current = block := path
    rw [List.length_nil, Nat.zero_add, Arena.seekBlock, if_pos (.inr rfl)]
  | cons b l ih =>
    obtain ⟨rfl, nonnull, rest⟩ := Path.cons.mp path
    obtain ⟨ne, away⟩ := List.ne_and_not_mem_of_not_mem_cons away
    have goes : ¬(current = 0 ∨ current = block) := not_or.mpr ⟨nonnull, ne.symm⟩
    rw [List.length_cons, Nat.add_right_comm, Arena.seekBlock, if_neg goes, sound.use (inside _ (List.mem_cons_self ..))]
    exact ih _ rest (fun b hb => inside b (List.mem_cons_of_mem _ hb)) away

theorem Sound.blockGetSize_live (sound : h.Sound True other blocks live) {b : Nat} (hb : b ∈ blocks) :
    ∃ n, ∀ fuel, n ≤ fuel → h.blockGetSize other fuel (b + blockSize) = .ok (2 ^ h.order b) h := by
  obtain ⟨l₁, l₂, before, -, all, away, -⟩ := (sound.listed trivial).1.around hb
  refine ⟨l₁.length + 1, fun fuel enough => ?_⟩
  obtain ⟨more, rfl⟩ := Nat.exists_eq_add_of_le enough
  have found := sound.seekBlock_path l₁ h.firstBlock more before
    (fun c hc => (all c).mp (List.mem_append_left _ hc)) away
  rw [Arena.blockGetSize, Nat.add_sub_cancel, Nat.add_assoc, Nat.add_comm 1, found]
  simp only [HeapResult.bind, if_neg (sound.ne_zero hb), sound.use hb]

theorem Takes.other_block {j a b : Nat} (takes : Takes linked other j a live h h' blocks blocks') {x : Nat × Nat}
    (member : x ∈ live) (is : x.1 = b + blockSize) : b ≠ a := by
  rintro rfl
  exact takes.away x member is

/-- The bytes behind the header of `b` that the copy reads are of the two blocks if the size fits in `b`, or if the
block of the result is behind it. -/
theorem Takes.copy_iff {j a b size : Nat} (takes : Takes linked other j a live h h' blocks blocks') (hb : b ∈ blocks)
    (used : h.available b = false) (ne : b ≠ a) (room : size + blockSize ≤ 2 ^ h'.order a) :
    (∀ i, i < min (2 ^ h.order b) size → h.InBlock b (b + blockSize + i) ∨ h'.InBlock a (b + blockSize + i)) ↔
      size + blockSize ≤ 2 ^ h.order b ∨ a = b + 2 ^ h.order b := by
  have order := (takes.kept hb used).1
  have large := Nat.pow_le_pow_right (by decide : 0 < 2) (takes.sound.tiled.bounds b (takes.grown hb)).1
  have apart := takes.sound.tiled.disjoint (takes.grown hb) takes.member ne
  rw [order] at large apart
  simp only [InBlock, Nat.lt_min]
  rw [blockSize] at *
  constructor
  · intro inside
    by_contra neither
    have first := inside (2 ^ h.order b - 24) (by omega)
    omega
  · rintro (fits | behind) i ⟨within, asked⟩
    · exact .inl (by omega)
    · rcases Nat.lt_or_ge (b + 24 + i) (b + 2 ^ h.order b) with own | next
      · exact .inl (by omega)
      · exact .inr (by omega)

theorem mem_write_bytes (m : Store) (dst src n i : Nat) (lt : i < n) : m.write dst (m.bytes src n) (dst + i) = m (src + i) := by
  have is := m.bytes_write dst (m.bytes src n)
  rw [Store.length_bytes] at is
  have read := Store.bytes_get (m.write dst (m.bytes src n)) dst n i lt
  rw [is, m.bytes_get src n i lt] at read
  exact (Option.some.inj read).symm

theorem reallocCopy_live {size : BitVec 64} {fuel p m : Nat} (replies : List (Option Nat)) (some : size ≠ 0) (given : p ≠ 0)
    (looked : h.blockGetSize other fuel p = .ok m h) (known : m ≠ 0) :
    h.reallocCopy other fuel replies p size = (h.malloc other fuel replies size).bind fun result h =>
      if result = 0 then .ok 0 h
      else (h.memcpy other result p (min m size.toNat)).bind fun _ h => .ok result h := by
  rw [Arena.reallocCopy, if_neg some, if_neg given, looked]
  simp only [HeapResult.bind, if_neg fun both : p ≠ 0 ∧ m = 0 => known both.2]

/-- A realloc that returns has had an answer of malloc. -/
theorem malloc_of_realloc {size : BitVec 64} {fuel p m r : Nat} {replies : List (Option Nat)} (some : size ≠ 0)
    (given : p ≠ 0) (looked : h.blockGetSize other fuel p = .ok m h) (known : m ≠ 0)
    (returned : h.realloc other fuel replies p size = .ok r h') : ∃ r₁ h₁, h.malloc other fuel replies size = .ok r₁ h₁ := by
  rw [Arena.realloc, reallocCopy_live replies some given looked known] at returned
  cases answer : h.malloc other fuel replies size with
  | ok r₁ h₁ => exact ⟨r₁, h₁, rfl⟩
  | fault => simp [answer, HeapResult.bind] at returned
  | overread => simp [answer, HeapResult.bind] at returned
  | unfinished => simp [answer, HeapResult.bind] at returned

/-- A copy that keeps to the two blocks is of a size that the copy is right for. -/
theorem Sound.copyFits {s : HeapUse} (sound : s.1.Sound True other blocks s.2) {x : Nat × Nat} (member : x ∈ s.2)
    {size : BitVec 64} (some : size ≠ 0) (top : other (2 ^ 64) = false) {reply : Option Nat} {replies : List (Option Nat)}
    (supplies : Supplies other s.1 (reply :: replies)) {l : List Nat} (path : Path s.1.next 0 s.1.firstBlock l)
    (keeps : ReallocKeeps other s (reply :: replies) x.1 size) : s.1.CopyFits x.1 size.toNat reply l := by
  obtain ⟨b, hb, at', used, -⟩ := sound.pointers x member
  obtain ⟨n, kept⟩ := keeps
  obtain ⟨m, looks⟩ := sound.blockGetSize_live hb
  have bounds := sound.tiled.bounds b hb
  have large := Nat.pow_le_pow_right (by decide : 0 < 2) bounds.1
  have most := Nat.pow_le_pow_right (by decide : 0 < 2) bounds.2
  have known : 2 ^ s.1.order b ≠ 0 := by omega
  have given : x.1 ≠ 0 := by
    rw [at', blockSize]
    omega
  rw [← at'] at looks
  have answers (fuel : Nat) (least : n ≤ fuel) (most : m ≤ fuel) :
      ∃ r h', s.1.malloc other fuel (reply :: replies) size = .ok r h' := by
    obtain ⟨-, r, h', returned, -⟩ := kept fuel least
    exact malloc_of_realloc some given (looks fuel most) known returned
  have copies (fuel : Nat) (least : n ≤ fuel) (most : m ≤ fuel) {r : Nat} {h' : Arena}
      (answer : s.1.malloc other fuel (reply :: replies) size = .ok r h') (nonnull : r ≠ 0) (i : Nat)
      (lt : i < min (2 ^ s.1.order b) size.toNat) (y : Nat) (is : y = x.1 + i ∨ y = r + i) :
      s.1.InBlock b y ∨ h'.InBlock (r - blockSize) y := by
    have inside := (kept fuel least).1 _ _ r h' (looks fuel most) answer nonnull i lt y is
    rwa [at', Nat.add_sub_cancel] at inside
  have ends : size.toNat + blockSize ≠ mallocBlockSize := by
    intro whole
    obtain ⟨m', unfinished⟩ := sound.malloc_unfinished top whole _ supplies
    obtain ⟨r, h', answer⟩ := answers (max n (max m m')) (by omega) (by omega)
    exact unfinished _ (by omega) r h' answer
  refine ⟨?_, ?_, ?_⟩
  · -- A size that overflows has the whole block copied to one of at most 32 bytes.
    by_contra wraps
    obtain ⟨r, h', answer⟩ := answers (max n m) (by omega) (by omega)
    obtain ⟨a, rfl, small⟩ := malloc_overflows (Nat.not_lt.mp wraps)
      (fun null => (supplies.2 0 null).1.2.1 rfl) answer
    have bound := size.isLt
    have inside := copies _ (by omega) (by omega) answer (by rw [blockSize]; omega)
    simp only [Nat.add_sub_cancel, InBlock, at'] at inside
    rw [blockSize] at wraps inside
    rw [mallocMaxOrder] at most
    have first := inside (2 ^ s.1.order b - 24) (by omega) _ (.inl rfl)
    have last := inside (2 ^ s.1.order b - 1) (by omega) _ (.inl rfl)
    have written := inside 8 (by omega) _ (.inr rfl)
    omega
  · exact ends
  · by_contra outside
    obtain ⟨accepted, unfit⟩ := not_or.mp outside
    have room : size.toNat + blockSize < mallocBlockSize := Nat.lt_of_le_of_ne (Nat.not_lt.mp accepted) ends
    cases fit : s.1.firstFit (size.toNat + blockSize).size reply l with
    | none =>
      obtain ⟨m', fails⟩ := sound.malloc_fails top some room path fit
      obtain ⟨r, h', answer⟩ := answers (max n (max m m')) (by omega) (by omega)
      rw [fails _ replies (by omega)] at answer
      cases answer
    | some a =>
      have fresh (c : Nat) (is : reply = .some c) := supplies.2 c (is ▸ List.mem_cons_self ..)
      obtain ⟨h', blocks', takes, m', found⟩ := sound.malloc_takes some room fresh path fit
      have enough : size.toNat + blockSize ≤ 2 ^ h'.order a := by
        rw [takes.order]
        exact Nat.le_of_lt (Nat.lt_size_self _)
      have inside := copies (max n (max m m')) (by omega) (by omega) (found _ replies (by omega)) (by rw [blockSize]; omega)
      refine unfit ⟨a, fit, ?_⟩
      rw [at', Nat.add_sub_cancel]
      refine (takes.copy_iff hb used (takes.other_block member at') enough).mp fun i lt => ?_
      have read := inside i lt _ (.inl rfl)
      rwa [at', Nat.add_sub_cancel] at read

/-- What a copy to the block that block_find has taken and a free of `p` leave. -/
theorem Takes.reallocated {x : Nat × Nat} {a b j size : Nat} {h₂ h₃ h₄ : Arena} {blocks₂ : Set Nat}
    (sound : h.Sound True other blocks live) (member : x ∈ live) (hb : b ∈ blocks) (at' : x.1 = b + blockSize)
    (used : h.available b = false) (takes : Takes True other j a live h h₂ blocks blocks₂)
    (room : size + blockSize ≤ 2 ^ h₂.order a)
    (copied : h₃.mem = h₂.mem.write (a + blockSize) (h₂.mem.bytes x.1 (min (2 ^ h.order b) size)))
    (freed : Freed True other ((a + blockSize, size) :: live) blocks₂ x.1 h₃ h₄) :
    Reallocated other live x.1 size h (a + blockSize) h₄ := by
  -- The memory of a block in use, behind its header, stays beside the copy.
  have stays {b' y : Nat} (hb' : b' ∈ blocks) (used' : h.available b' = false) (low : b' + blockSize ≤ y)
      (high : y < b' + 2 ^ h.order b') : h₂.mem y = h.mem y ∧ h₄.mem y = h₃.mem y := by
    rw [← (takes.kept hb' used').1] at high
    have beside := takes.sound.beside_headers (takes.grown hb') low high
    exact ⟨takes.headers y beside, freed.headers trivial y beside⟩
  have own : x.1 - blockSize = b := by rw [at', Nat.add_sub_cancel]
  refine ⟨fun i lt => ?_, fun y hy ne i lt => ?_, freed.released trivial, ?_⟩
  · rw [own] at lt
    have beside := takes.sound.beside_headers (y := a + blockSize + i) takes.member (by omega) (by omega)
    rw [freed.headers trivial _ beside, copied, mem_write_bytes _ _ _ _ _ (by omega)]
    exact (stays hb used (by omega) (by omega)).1
  · obtain ⟨b', hb', is, used', -⟩ := sound.pointers y hy
    have away := takes.sound.tiled.disjoint (takes.grown hb') takes.member (takes.other_block hy is)
    rw [(takes.kept hb' used').1] at away
    rw [is, Nat.add_sub_cancel] at lt
    rw [is]
    obtain ⟨before, after⟩ := stays (y := b' + blockSize + i) hb' used' (by omega) (by omega)
    rw [after, copied, Store.write_outside, before]
    rw [Store.length_bytes]
    omega
  · obtain ⟨blocks', sound'⟩ := freed.sound
    have new : a + blockSize ≠ x.1 := fun same => takes.away x member same.symm
    have kept : ((a + blockSize, size) :: live).filter (fun y => y.1 ≠ x.1) =
        (a + blockSize, size) :: live.filter fun y => y.1 ≠ x.1 := List.filter_cons_of_pos (decide_eq_true new)
    rw [kept] at sound'
    exact ⟨blocks', sound'⟩

-- The copy leaves the headers.
theorem Takes.copy_header {j a n size : Nat} (takes : Takes linked other j a live h h' blocks blocks')
    (room : size + blockSize ≤ 2 ^ h'.order a) (le : n ≤ size) (src : Nat) {b : Nat} (hb : b ∈ blocks') :
    ({ h' with mem := h'.mem.write (a + blockSize) (h'.mem.bytes src n) } : Arena).header b = h'.header b := by
  refine h'.header_congr fun y low high => Store.write_outside _ _ _ _ ?_
  rw [Store.length_bytes]
  by_contra within
  have beside := takes.sound.beside_headers (y := y) takes.member (by omega) (by omega) b hb
  omega

/-- A copy of bytes of two blocks of the heap goes through. -/
theorem Takes.memcpy {j a b n src : Nat} (takes : Takes linked other j a live h h' blocks blocks') (hb : b ∈ blocks)
    (used : h.available b = false) (dst : Nat)
    (read : ∀ i, i < n → h.InBlock b (src + i) ∨ h'.InBlock a (src + i)) :
    h'.memcpy other dst src n = .ok () { h' with mem := h'.mem.write dst (h'.mem.bytes src n) } := by
  refine if_pos fun i lt => ?_
  rcases read i lt with ⟨low, high⟩ | next
  · refine takes.sound.mapped_inside (takes.grown hb) ⟨low, ?_⟩
    rwa [(takes.kept hb used).1]
  · exact takes.sound.mapped_inside takes.member next

/-- Buddies that are free when `a` has been taken were free before, and `a` is none of them. -/
theorem Takes.joins {j a b m : Nat} (takes : Takes True other j a live h h' blocks blocks')
    (sound : h.Sound True other blocks live) (hb : b ∈ blocks) (used : h.available b = false) {h₃ : Arena}
    (header : ∀ c, c ∈ blocks → h₃.header c = h'.header c) (top : m ≤ mallocMaxOrder) (joins : h₃.Joins b m) :
    h.JoinsBut a b m := by
  intro i low high
  have hu := sound.buddyAt_mem hb low (Nat.lt_of_lt_of_le high top)
  have order : h₃.order b = h.order b := (header_order (header b hb)).trans (takes.kept hb used).1
  have free := joins i (order.symm ▸ low) high
  rw [header_available (header _ hu)] at free
  have ne : buddyAt b i ≠ a := by
    rintro is
    rw [is, takes.used] at free
    cases free
  rw [takes.others.available _ hu ne] at free
  exact ⟨free, ne⟩

/-- The free behind the copy does right. -/
theorem FreesRight.after {b j a n size : Nat} (right : h.FreesRight a j b) (sound : h.Sound True other blocks live)
    (hb : b ∈ blocks) (used : h.available b = false) (takes : Takes True other j a live h h' blocks blocks')
    (room : size + blockSize ≤ 2 ^ h'.order a) (le : n ≤ size) (src : Nat) {h₃ : Arena}
    (copied : h₃ = { h' with mem := h'.mem.write (a + blockSize) (h'.mem.bytes src n) })
    (sound₃ : ∃ live₃, h₃.Sound True other blocks' live₃) : h₃.Matched b ∧ h₃.Tidy b := by
  have header (c : Nat) (hc : c ∈ blocks) : h₃.header c = h'.header c := by
    rw [copied]
    exact takes.copy_header room le src (takes.grown hc)
  have order : h₃.order b = h.order b := (header_order (header b hb)).trans (takes.kept hb used).1
  have chunks : h₃.chunks = h'.chunks := by rw [copied]
  have first : h₃.firstBlock = h'.firstBlock := by rw [copied]
  have base := sound.tiled.inside b hb
  have hc := sound.base_mem base
  refine ⟨fun i low high joined => ?_, fun joined => ⟨?_, ?_⟩⟩
  · have met := takes.joins sound hb used header high joined
    rw [order] at low
    have hu := sound.buddyAt_mem hb low high
    rw [header_order (header _ hu), takes.others.order _ hu (met i low (Nat.lt_succ_self i)).2]
    exact right.matched i low high met
  · rw [chunks]
    rcases right.chunk (takes.joins sound hb used header (Nat.le_refl _) joined) with none | is | old
    · exact .inl none
    · refine .inr ?_
      have aligned : mallocBlockSize ∣ page b ^^^ mallocBlockSize := dvd_buddy (dvd_floor mallocMaxOrder b)
      have inside := takes.sound.tiled.inside a takes.member
      rw [← is, floor_self aligned] at inside
      exact inside
    · exact .inr (takes.others.chunks _ old)
  · have some : h.firstBlock ≠ 0 := fun none => absurd ((sound.no_blocks none).2 ▸ hb) (Set.notMem_empty b)
    rw [first, takes.others.first some]
    rcases right.before (takes.joins sound hb used header (Nat.le_refl _) joined) with is | ⟨behind, unsplit⟩
    · exact .inl is
    · refine .inr ?_
      obtain ⟨hp, link, nonnull⟩ := (sound.listed trivial).1.follows.mp behind
      have prev : h₃.prev (page b) = h.prev (page b) := (header_prev (header _ hc)).trans (takes.others.prev _ hc)
      have next : h'.next (h.prev (page b)) = h.next (h.prev (page b)) := by
        by_cases taken : h.prev (page b) = a
        · rw [taken] at hp ⊢
          exact takes.whole hp (unsplit taken)
        · exact takes.others.next _ hp taken (link.symm ▸ nonnull)
      obtain ⟨live₃, sound₃⟩ := sound₃
      have listing := (sound₃.listed trivial).1
      rw [first, takes.others.first some] at listing
      rw [prev]
      exact listing.follows.mpr ⟨takes.grown hp, ((header_next (header _ hp)).trans next).trans link, nonnull⟩

/-- A request that malloc refuses: `p` stays. -/
theorem Sound.keeps_refused {s : HeapUse} (sound : s.1.Sound True other blocks s.2) {p b : Nat} (hb : b ∈ blocks)
    (at' : p = b + blockSize) {size : BitVec 64} (small : size.toNat + blockSize < 2 ^ 64)
    (large : mallocBlockSize < size.toNat + blockSize) (replies : List (Option Nat)) :
    ReallocKeeps other s replies p size := by
  obtain ⟨m, looks⟩ := sound.blockGetSize_live hb
  rw [← at'] at looks
  have some : size ≠ 0 := by
    rintro rfl
    exact absurd large (by decide)
  have given : p ≠ 0 := by
    rw [at', blockSize]
    omega
  have refuses (fuel : Nat) : s.1.malloc other fuel replies size = .ok 0 s.1 := by
    rw [← mallocErrno_malloc, mallocErrno_refuses small large]
    rfl
  refine ⟨m, fun fuel enough => ⟨?_, 0, s.1, ?_, fun _ => ⟨fun _ _ => rfl, blocks, sound⟩, fun r => absurd rfl r⟩⟩
  · intro n h₁ r h₂ looked answer nonnull
    rw [looks fuel enough, HeapResult.ok.injEq] at looked
    obtain ⟨-, rfl⟩ := looked
    rw [refuses, HeapResult.ok.injEq] at answer
    exact absurd answer.1.symm nonnull
  · rw [Arena.realloc, reallocCopy_live _ some given (looks fuel enough) (Nat.two_pow_pos _).ne', refuses]
    simp [HeapResult.bind]

/-- A request that malloc serves. -/
theorem Sound.keeps_served {s : HeapUse} (sound : s.1.Sound True other blocks s.2) {x : Nat × Nat} (member : x ∈ s.2)
    {b : Nat} (hb : b ∈ blocks) (at' : x.1 = b + blockSize) (used : s.1.available b = false) {size : BitVec 64}
    (some : size ≠ 0) {h₂ : Arena} {blocks₂ : Set Nat} {a : Nat} {replies : List (Option Nat)}
    (takes : Takes True other (size.toNat + blockSize).size a s.2 s.1 h₂ blocks blocks₂)
    (found : ∃ n, ∀ fuel, n ≤ fuel → s.1.malloc other fuel replies size = .ok (a + blockSize) h₂)
    (inside : size.toNat + blockSize ≤ 2 ^ s.1.order b ∨ a = b + 2 ^ s.1.order b)
    (right : s.1.FreesRight a (size.toNat + blockSize).size b) : ReallocKeeps other s replies x.1 size := by
  obtain ⟨m, looks⟩ := sound.blockGetSize_live hb
  obtain ⟨m', found⟩ := found
  rw [← at'] at looks
  have given : x.1 ≠ 0 := by
    rw [at', blockSize]
    omega
  have own : x.1 - blockSize = b := by rw [at', Nat.add_sub_cancel]
  have enough : size.toNat + blockSize ≤ 2 ^ h₂.order a := by
    rw [takes.order]
    exact Nat.le_of_lt (Nat.lt_size_self _)
  have read := (takes.copy_iff hb used (takes.other_block member at') enough).mpr inside
  rw [← at'] at read
  let h₃ : Arena := { h₂ with mem := h₂.mem.write (a + blockSize) (h₂.mem.bytes x.1 (min (2 ^ s.1.order b) size.toNat)) }
  have copy : h₂.memcpy other (a + blockSize) x.1 (min (2 ^ s.1.order b) size.toNat) = .ok () h₃ :=
    takes.memcpy hb used (a + blockSize) read
  have sound₃ : h₃.Sound True other blocks₂ ((a + blockSize, size.toNat) :: s.2) := by
    have kept := takes.serves.sound.memcpy (a + blockSize) x.1 _ size.toNat (List.mem_cons_self ..)
      (Nat.min_le_right (2 ^ s.1.order b) size.toNat)
    rwa [copy] at kept
  have nonnull : a + blockSize ≠ 0 := by
    rw [blockSize]
    omega
  have copies (fuel : Nat) (least : m ≤ fuel) (most : m' ≤ fuel) :
      s.1.reallocCopy other fuel replies x.1 size = .ok (a + blockSize) h₃ := by
    rw [reallocCopy_live _ some given (looks fuel least) (Nat.two_pow_pos _).ne', found fuel most]
    simp only [HeapResult.bind, if_neg nonnull, copy]
  have after : h₃.Matched (x.1 - blockSize) ∧ h₃.Tidy (x.1 - blockSize) := by
    rw [own]
    exact right.after sound hb used takes enough (Nat.min_le_right ..) x.1 rfl ⟨_, sound₃⟩
  refine ⟨max (max m m') (mallocMaxOrder + 1), fun fuel large => ⟨?_, a + blockSize, ?_⟩⟩
  · intro n h₁ r h' looked answer _ i lt y is
    rw [looks fuel (by omega), HeapResult.ok.injEq] at looked
    obtain ⟨rfl, rfl⟩ := looked
    rw [found fuel (by omega), HeapResult.ok.injEq] at answer
    obtain ⟨rfl, rfl⟩ := answer
    rw [own, Nat.add_sub_cancel]
    rcases is with rfl | rfl
    · exact read i lt
    · exact .inr ⟨by omega, by omega⟩
  · obtain ⟨h₄, returned, freed⟩ := sound₃.free_returns (List.mem_cons_of_mem _ member) after.1 after.2
      (by omega : mallocMaxOrder < fuel)
    rw [Arena.realloc, copies fuel (by omega) (by omega)]
    simp only [HeapResult.bind, if_neg nonnull, returned]
    exact ⟨h₄, rfl, fun none => absurd none nonnull,
      fun _ => takes.reallocated sound member hb at' used enough rfl freed⟩

end Sound

end Arena

/-- realloc keeps to the blocks of its pointer and its result exactly for sizes that its copy is right for, and then it
does what it says where the free behind the copy does right. -/
theorem realloc_keeps {s : HeapUse} {blocks : Set Nat} (sound : s.1.Sound True other blocks s.2) {x : Nat × Nat}
    (member : x ∈ s.2) {size : BitVec 64} (some : size ≠ 0) (top : other (2 ^ 64) = false) {reply : Option Nat}
    {replies : List (Option Nat)} (supplies : s.1.Supplies other (reply :: replies)) {l : List Nat}
    (path : Path s.1.next 0 s.1.firstBlock l) :
    (Arena.ReallocKeeps other s (reply :: replies) x.1 size → s.1.CopyFits x.1 size.toNat reply l) ∧
    (s.1.CopyFits x.1 size.toNat reply l →
      (∀ a, s.1.firstFit (size.toNat + blockSize).size reply l = .some a → size.toNat + blockSize < mallocBlockSize →
        s.1.FreesRight a (size.toNat + blockSize).size (x.1 - blockSize)) →
      Arena.ReallocKeeps other s (reply :: replies) x.1 size) := by
  refine ⟨sound.copyFits member some top supplies path, fun fits frees => ?_⟩
  obtain ⟨b, hb, at', used, -⟩ := sound.pointers x member
  by_cases large : mallocBlockSize < size.toNat + blockSize
  · exact sound.keeps_refused hb at' fits.small large _
  · have room : size.toNat + blockSize < mallocBlockSize := Nat.lt_of_le_of_ne (Nat.not_lt.mp large) fits.ends
    obtain ⟨a, fit, inside⟩ := fits.inside.resolve_left large
    have fresh (c : Nat) (is : reply = .some c) := supplies.2 c (is ▸ List.mem_cons_self ..)
    obtain ⟨h₂, blocks₂, takes, n, found⟩ := sound.malloc_takes some room fresh path fit
    have right := frees a fit room
    rw [at', Nat.add_sub_cancel] at inside right
    exact sound.keeps_served member hb at' used some takes ⟨n, fun fuel enough => found fuel replies enough⟩ inside right

def HeapResult.overreads {α : Type} : HeapResult α → Bool
  | .overread _ => true
  | _ => false

def secondChunk : Nat := 131072

theorem HeapUse.take_sound {s s' : HeapUse} {blocks : Set Nat} (sound : s.1.Sound True noOther blocks s.2)
    {size : BitVec 64} (fits : size.toNat + blockSize < 2 ^ 64) {replies : List (Option Nat)}
    (fresh : s.1.Fresh noOther replies) (taken : s.take (.malloc size) replies = some s') :
    ∃ blocks', s'.1.Sound True noOther blocks' s'.2 := by
  have legal : (HeapCall.malloc size).Legal s := trivial
  have called : (HeapCall.malloc size).Fits noOther (fun _ _ => False) s := fits
  exact HeapCall.step_keeps noOther (fun _ _ no => False.elim no) sound called (HeapUse.take_step legal fresh taken)

/-- A heap of one chunk whose two halves are in use. -/
theorem two_halves : ∃ s blocks, Run (HeapCall.Step noOther) (fun _ _ => True) (noHeap fun _ => 0) s ∧
    s.1.Sound True noOther blocks s.2 ∧ s.2 = [(firstChunk + 2048 + blockSize, 2000), (firstChunk + blockSize, 2000)] ∧
    s.1.Supplies noOther [some secondChunk] ∧ Path s.1.next 0 s.1.firstBlock [firstChunk, firstChunk + 2048] ∧
    (∀ b, b ∈ [firstChunk, firstChunk + 2048] → s.1.order b = 11 ∧ s.1.available b = false) ∧
    (s.1.realloc noOther 64 [some secondChunk] (firstChunk + 2048 + blockSize) 3000).overreads = true := by
  have seen : (HeapUse.started 2000 [.inl 2000]).map (fun s => (s.2, s.1.chunks,
      [s.1.firstBlock, s.1.next firstChunk, s.1.next (firstChunk + 2048), s.1.order firstChunk,
        s.1.order (firstChunk + 2048)],
      [s.1.available firstChunk, s.1.available (firstChunk + 2048),
        (s.1.realloc noOther 64 [some secondChunk] (firstChunk + 2048 + blockSize) 3000).overreads])) =
      some ([(firstChunk + 2048 + blockSize, 2000), (firstChunk + blockSize, 2000)], [firstChunk],
        [firstChunk, firstChunk + 2048, 0, 11, 11], [false, false, true]) := by decide +kernel
  obtain ⟨s, started, is⟩ := Option.map_eq_some_iff.mp seen
  simp only [Prod.mk.injEq, List.cons.injEq, and_true] at is
  obtain ⟨live, chunks, ⟨first, next₁, next₂, order₁, order₂⟩, used₁, used₂, overreads⟩ := is
  have sound : ∃ blocks, s.1.Sound True noOther blocks s.2 := by
    obtain ⟨s₁, taken₁, rest⟩ := Option.bind_eq_some_iff.mp started
    obtain ⟨s₂, taken₂, rest⟩ := Option.bind_eq_some_iff.mp rest
    obtain rfl := Option.some.inj rest
    obtain ⟨blocks₁, sound₁⟩ := HeapUse.take_sound (noHeap_sound fun _ => 0) (by decide) (firstChunk_fresh _) taken₁
    exact HeapUse.take_sound sound₁ (by decide) (.nil noOther s₁.1) taken₂
  obtain ⟨blocks, sound⟩ := sound
  refine ⟨s, blocks, HeapUse.started_run started, sound, live, ?_, ?_, ?_, overreads⟩
  · refine ⟨List.pairwise_singleton _ _, fun c member => ?_⟩
    obtain rfl := Option.some.inj (List.mem_singleton.mp member)
    refine ⟨⟨by decide, by decide, by decide, rfl⟩, ?_⟩
    rw [chunks]
    decide
  · refine Path.cons.mpr ⟨first, by decide, Path.cons.mpr ⟨next₁, by decide, Path.nil.mpr next₂⟩⟩
  · intro b member
    rcases List.mem_cons.mp member with rfl | member
    · exact ⟨order₁, used₁⟩
    · obtain rfl := List.mem_singleton.mp member
      exact ⟨order₂, used₂⟩

theorem realloc_keeps_half : ∃ s, s.2 = [(firstChunk + 2048 + blockSize, 2000), (firstChunk + blockSize, 2000)] ∧
    Arena.ReallocKeeps noOther s [some secondChunk] (firstChunk + blockSize) 1000 := by
  obtain ⟨s, blocks, -, sound, live, supplies, path, halves, -⟩ := two_halves
  have own : firstChunk + blockSize - blockSize = firstChunk := Nat.add_sub_cancel ..
  have member : (firstChunk + blockSize, 2000) ∈ s.2 := by
    rw [live]
    exact List.mem_cons_of_mem _ (List.mem_cons_self ..)
  obtain ⟨order, used₁⟩ := halves firstChunk (List.mem_cons_self ..)
  obtain ⟨-, used₂⟩ := halves (firstChunk + 2048) (List.mem_cons_of_mem _ (List.mem_cons_self ..))
  -- The other half of the chunk is in use.
  have alone (a m : Nat) (lt : 11 < m) : ¬s.1.JoinsBut a firstChunk m := by
    intro joins
    have free := (joins 11 (Nat.le_of_eq order) lt).1
    rw [show Arena.buddyAt firstChunk 11 = firstChunk + 2048 by decide, used₂] at free
    cases free
  have fit : s.1.firstFit ((1000 : BitVec 64).toNat + blockSize).size (some secondChunk) [firstChunk, firstChunk + 2048] =
      some secondChunk := by
    simp [Arena.firstFit, Arena.suits, used₁, used₂]
  refine ⟨s, live, (realloc_keeps sound member (by decide) rfl supplies path).2
    ⟨by decide, by decide, .inr ⟨_, fit, .inl ?_⟩⟩ fun a _ _ => ?_⟩
  · dsimp only
    rw [own, order]
    decide
  · dsimp only
    rw [own]
    refine ⟨fun i low high joins => ?_, fun joins => absurd joins (alone _ _ (by decide)),
      fun joins => absurd joins (alone _ _ (by decide))⟩
    rw [order] at low
    exact absurd joins (alone _ _ (by omega))

/-- The copy of a block at the end of a chunk goes on behind the chunk. -/
theorem realloc_overreads : ∃ s ptr, Run (HeapCall.Step noOther) (fun _ _ => True) (noHeap fun _ => 0) s ∧
    ptr ∈ s.2.map Prod.fst ∧ (s.1.realloc noOther 64 [some secondChunk] ptr 3000).overreads = true ∧
    ¬Arena.ReallocKeeps noOther s [some secondChunk] ptr 3000 := by
  obtain ⟨s, blocks, run, sound, live, supplies, path, halves, overreads⟩ := two_halves
  have member : (firstChunk + 2048 + blockSize, 2000) ∈ s.2 := by
    rw [live]
    exact List.mem_cons_self ..
  refine ⟨s, _, run, List.mem_map_of_mem member, overreads, fun keeps => ?_⟩
  obtain ⟨order, used⟩ := halves (firstChunk + 2048) (List.mem_cons_of_mem _ (List.mem_cons_self ..))
  have fits := (sound.copyFits member (by decide) rfl supplies path keeps).inside
  have fit : s.1.firstFit ((3000 : BitVec 64).toNat + blockSize).size (some secondChunk) [firstChunk, firstChunk + 2048] =
      some secondChunk := by
    simp [Arena.firstFit, Arena.suits, (halves firstChunk (List.mem_cons_self ..)).2, used]
  obtain ⟨a, is, inside⟩ := fits.resolve_left (by decide)
  obtain rfl := Option.some.inj (fit.symm.trans is)
  rw [Nat.add_sub_cancel, order] at inside
  revert inside
  decide

end Anthill
