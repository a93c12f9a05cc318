import Anthill.HeapMalloc
import Mathlib.Data.List.ReduceOption

set_option autoImplicit false

namespace Anthill

open Buddy LinkedList

variable {linked : Prop} {other : Nat → Bool}

namespace Arena

/-- What mmap is taken to do: it fails, or its answer is a chunk that is not in use. -/
def Supplies (other : Nat → Bool) (h : Arena) (replies : List (Option Nat)) : Prop :=
  replies.reduceOption.Nodup ∧ ∀ c, some c ∈ replies → Chunk other c ∧ c ∉ h.chunks

-- A free block that is large enough.
def suits (h : Arena) (j b : Nat) : Bool := h.available b && decide (j ≤ h.order b)

/-- The block that block_find takes of a heap with these blocks: the first that suits, or else the chunk to come, if
mmap gives one. -/
def firstFit (h : Arena) (j : Nat) (reply : Option Nat) (l : List Nat) : Option Nat := (l.find? (h.suits j)).or reply

/-- What is left of the heap `h` when block_find has taken the block `a`. -/
structure Takes (linked : Prop) (other : Nat → Bool) (j a : Nat) (live : List (Nat × Nat)) (h h' : Arena)
    (blocks blocks' : Set Nat) : Prop where
  sound : h'.Sound linked other blocks' live
  grown : blocks ⊆ blocks'
  member : a ∈ blocks'
  order : h'.order a = j
  used : h'.available a = false
  away : ∀ x, x ∈ live → x.1 ≠ a + blockSize
  free : a ∈ blocks → h.available a = true
  whole : a ∈ blocks → h.order a = j → h'.next a = h.next a
  others : KeptBut blocks a h h'
  headers : OnlyHeaders blocks' h h'

section Sound

variable {h h' h₁ : Arena} {blocks blocks' blocks₁ : Set Nat} {live : List (Nat × Nat)} {j a : Nat}

theorem suits_iff {b : Nat} : h.suits j b = true ↔ h.available b = true ∧ j ≤ h.order b := by
  rw [suits, Bool.and_eq_true, decide_eq_true_iff]

theorem Takes.ne (takes : Takes linked other j a live h h' blocks blocks') {b : Nat} (hb : b ∈ blocks)
    (used : h.available b = false) : b ≠ a := by
  rintro rfl
  rw [takes.free hb] at used
  cases used

-- A block in use stays as it is.
theorem Takes.kept (takes : Takes linked other j a live h h' blocks blocks') {b : Nat} (hb : b ∈ blocks)
    (used : h.available b = false) : h'.order b = h.order b ∧ h'.available b = false := by
  have ne := takes.ne hb used
  exact ⟨takes.others.order b hb ne, (takes.others.available b hb ne).trans used⟩

theorem Takes.after (takes : Takes linked other j a live h₁ h' blocks₁ blocks') (grown : blocks ⊆ blocks₁)
    (free : a ∈ blocks → h.available a = true) (whole : a ∈ blocks → h.order a ≠ j) (others : KeptBut blocks a h h₁)
    (headers : OnlyHeaders blocks₁ h h₁) : Takes linked other j a live h h' blocks blocks' where
  sound := takes.sound
  grown := grown.trans takes.grown
  member := takes.member
  order := takes.order
  used := takes.used
  away := takes.away
  free := free
  whole ha is := absurd is (whole ha)
  others := others.trans takes.others grown
  headers := (headers.mono takes.grown).trans takes.headers

theorem Sound.takes (sound : h.Sound linked other blocks live) (ha : a ∈ blocks) (free : h.available a = true)
    (order : h.order a = j) :
    Takes linked other j a live h (h.put a { h.header a with available := 0 }) blocks blocks := by
  have away := sound.pointer_away free
  have same (b : Nat) (hb : b ∈ blocks) (ne : b ≠ a) :
      (h.put a { h.header a with available := 0 }).header b = h.header b :=
    header_put_of_ne _ _ (sound.dvd hb) (sound.dvd ha) ne
  refine ⟨sound.mark ha 0 sound.once fun x hx => .inl ⟨hx, away x hx⟩, subset_rfl, ha, ?_, ?_, away, fun _ => free,
    fun _ _ => ?_, ⟨fun b hb => ?_, fun b hb ne => header_order (same b hb ne),
      fun b hb ne => header_available (same b hb ne), fun b hb ne _ => header_next (same b hb ne), fun _ => rfl,
      fun _ hc => hc⟩, .put h ha _⟩
  · rw [← order, Arena.order, header_put, Arena.order]
  · rw [available, header_put]
    rfl
  · rw [next, header_put, next]
  · exact field_put _ (fun x => x.prev.toNat) _ (sound.dvd hb) (sound.dvd ha) rfl

theorem blockFind_at {current : Nat} (nonnull : current ≠ 0) (used : h.use other current = .ok () h) (fuel last : Nat)
    (replies : List (Option Nat)) : Arena.blockFind other j (fuel + 1) replies current last h =
      if !h.available current ∨ h.order current < j then
        Arena.blockFind other j fuel replies (h.next current) current h
      else if j < h.order current then
        (h.split other current).bind fun _ h => Arena.blockFind other j fuel replies current last h
      else .ok current (h.put current { h.header current with available := 0 }) := by
  conv_lhs => unfold Arena.blockFind
  rw [if_pos nonnull, used]
  rfl

/-- block_find splits a block that suits until it has the order. -/
theorem Sound.blockFind_here (sound : h.Sound linked other blocks live) (large : 5 ≤ j) (ha : a ∈ blocks)
    (free : h.available a = true) (d : Nat) (order : h.order a = j + d) :
    ∃ h' blocks', Takes linked other j a live h h' blocks blocks' ∧ ∀ fuel replies last, d < fuel →
      Arena.blockFind other j fuel replies a last h = .ok a h' := by
  induction d generalizing h blocks with
  | zero =>
    refine ⟨_, blocks, sound.takes ha free order, fun fuel replies last enough => ?_⟩
    obtain ⟨fuel, rfl⟩ : ∃ n, fuel = n + 1 := ⟨fuel - 1, by omega⟩
    rw [blockFind_at (sound.ne_zero ha) (sound.use ha), free, order]
    simp
  | succ d ih =>
    have was : h.order a = j + d + 1 := order
    have room : 5 ≤ j + d := by omega
    obtain ⟨h₁, is, sound₁, chunks, first, -⟩ := sound.split ha free was room
    obtain ⟨h₁', is', left, right, same, -, -, -, headers⟩ := sound.split_headers ha was room
    rw [is] at is'
    obtain rfl : h₁ = h₁' := by cases is'; rfl
    have order₁ : h₁.order a = j + d := by
      rw [Arena.order, left]
      exact sound.pred_order ha was
    have free₁ : h₁.available a = true := by
      rw [available, left]
      exact free
    obtain ⟨h', blocks', takes, found⟩ := ih sound₁ (.inr ha) free₁ order₁
    have kept (b : Nat) (hb : b ∈ blocks) (ne : b ≠ a) : h₁.header b = h.header b :=
      same b (sound.dvd hb) ne fun new => sound.tiled.half_notMem ha was (new ▸ hb)
    refine ⟨h', blocks', takes.after (Set.subset_insert ..) (fun _ => free) (fun _ => by omega)
      ⟨fun b hb => ?_, fun b hb ne => header_order (kept b hb ne), fun b hb ne => header_available (kept b hb ne),
        fun b hb ne _ => header_next (kept b hb ne), fun _ => first, fun d hd => chunks.symm ▸ hd⟩ (headers.mono ?_),
      fun fuel replies last enough => ?_⟩
    · by_cases here : b = a
      · rw [here, prev, left, prev]
      · exact header_prev (kept b hb here)
    · rintro b (rfl | rfl)
      · exact .inr ha
      · exact .inl rfl
    · obtain ⟨fuel, rfl⟩ : ∃ n, fuel = n + 1 := ⟨fuel - 1, by omega⟩
      have larger : j < h.order a := by omega
      have kept : ¬((!h.available a) = true ∨ h.order a < j) := by
        rw [free]
        simp only [Bool.not_true, Bool.false_eq_true, false_or]
        omega
      rw [blockFind_at (sound.ne_zero ha) (sound.use ha), if_neg kept, if_pos larger, is]
      exact found fuel replies last (by omega)

/-- block_find passes the blocks that do not suit. -/
theorem Sound.blockFind_walk (sound : h.Sound linked other blocks live) {q : Nat} (l : List Nat) (current last fuel : Nat)
    (replies : List (Option Nat)) (path : Path h.next q current l) (inside : ∀ b, b ∈ l → b ∈ blocks)
    (unfit : ∀ b, b ∈ l → h.suits j b = false) :
    Arena.blockFind other j (l.length + fuel) replies current last h = Arena.blockFind other j fuel replies q (l.getLastD last) h := by
  induction l generalizing current last with
  | nil =>
    obtain rfl : current = q := path
    rw [List.length_nil, Nat.zero_add]
    rfl
  | cons b l ih =>
    obtain ⟨rfl, nonnull, rest⟩ := Path.cons.mp path
    have passed : (!h.available current) = true ∨ h.order current < j := by
      have unfit := unfit current (List.mem_cons_self ..)
      rw [suits, Bool.and_eq_false_iff, decide_eq_false_iff_not, Nat.not_le] at unfit
      rwa [Bool.not_eq_true']
    have next := ih (h.next current) current rest (fun b hb => inside b (List.mem_cons_of_mem _ hb))
      fun b hb => unfit b (List.mem_cons_of_mem _ hb)
    rw [List.length_cons, Nat.add_right_comm, blockFind_at nonnull (sound.use (inside _ (List.mem_cons_self ..))),
      if_pos passed, List.getLastD_cons]
    exact next

/-- block_find takes the first block of a list that suits. -/
theorem Sound.blockFind_reaches (sound : h.Sound linked other blocks live) (large : 5 ≤ j) (l₁ l₂ : List Nat) {current : Nat}
    (path : Path h.next 0 current (l₁ ++ a :: l₂)) (inside : ∀ b, b ∈ l₁ ++ a :: l₂ → b ∈ blocks)
    (unfit : ∀ b, b ∈ l₁ → h.suits j b = false) (fit : h.suits j a = true) :
    ∃ h' blocks', Takes linked other j a live h h' blocks blocks' ∧ ∃ n, ∀ fuel replies last, n ≤ fuel →
      Arena.blockFind other j fuel replies current last h = .ok a h' := by
  obtain ⟨free, least⟩ := suits_iff.mp fit
  obtain ⟨r, before, after⟩ := Path.append.mp path
  obtain ⟨rfl, -, -⟩ := Path.cons.mp after
  obtain ⟨h', blocks', takes, found⟩ := sound.blockFind_here large (inside r (by simp)) free (h.order r - j) (by omega)
  refine ⟨h', blocks', takes, l₁.length + (h.order r - j + 1), fun fuel replies last enough => ?_⟩
  obtain ⟨more, rfl⟩ := Nat.exists_eq_add_of_le enough
  rw [Nat.add_assoc, sound.blockFind_walk l₁ current last _ replies before
    (fun b hb => inside b (List.mem_append_left _ hb)) unfit]
  exact found _ replies _ (by omega)

theorem Sound.blocks_of_path (sound : h.Sound True other blocks live) {l : List Nat} (path : Path h.next 0 h.firstBlock l)
    (b : Nat) : b ∈ l ↔ b ∈ blocks := by
  obtain ⟨⟨l', path', all⟩, -, -⟩ := sound.listed trivial
  rw [path.unique path']
  exact all b

-- The end of the list, as block_find comes to it.
theorem Sound.last_of_path (sound : h.Sound True other blocks live) {l : List Nat} (path : Path h.next 0 h.firstBlock l) :
    l.getLastD 0 = 0 ∧ h.firstBlock = 0 ∨ l.getLastD 0 ∈ blocks ∧ (True → h.next (l.getLastD 0) = 0) := by
  rcases List.eq_nil_or_concat l with rfl | ⟨l, b, rfl⟩
  · exact .inl ⟨rfl, path⟩
  · rw [List.concat_eq_append] at path ⊢
    obtain ⟨r, -, ends⟩ := Path.append.mp path
    obtain ⟨rfl, -, none⟩ := Path.cons.mp ends
    rw [List.getLastD_concat]
    exact .inr ⟨(sound.blocks_of_path path r).mp (by simp), fun _ => none⟩

/-- At the end of the list block_find asks mmap for a chunk. -/
theorem Sound.blockFind_end (sound : h.Sound True other blocks live) {l : List Nat}
    (path : Path h.next 0 h.firstBlock l) (unfit : ∀ b, b ∈ l → h.suits j b = false) (fuel : Nat) (reply : Option Nat)
    (replies : List (Option Nat)) : Arena.blockFind other j (l.length + (fuel + 1)) (reply :: replies) h.firstBlock 0 h =
      (h.expand other (l.getLastD 0) reply).bind fun failed h =>
        if failed = 0 then Arena.blockFind other j fuel replies h.firstBlock 0 h else .ok 0 h := by
  rw [sound.blockFind_walk l _ 0 _ _ path (fun b hb => (sound.blocks_of_path path b).mp hb) unfit, Arena.blockFind,
    if_neg (not_not.mpr rfl)]

/-- The chunk that comes is taken if no block suits. -/
theorem Sound.blockFind_expands (sound : h.Sound True other blocks live) (large : 5 ≤ j) (top : j ≤ mallocMaxOrder) {c : Nat}
    (chunk : Chunk other c) (new : c ∉ h.chunks) {l : List Nat} (path : Path h.next 0 h.firstBlock l)
    (unfit : ∀ b, b ∈ l → h.suits j b = false) :
    ∃ h' blocks', Takes True other j c live h h' blocks blocks' ∧ ∃ n, ∀ fuel replies, n ≤ fuel →
      Arena.blockFind other j fuel (some c :: replies) h.firstBlock 0 h = .ok c h' := by
  obtain ⟨h₁, expanded, sound₁, -, whole, free, same, headers⟩ := sound.expand chunk new (sound.last_of_path path)
  obtain ⟨⟨l', path', all⟩, -, -⟩ := sound₁.listed trivial
  obtain ⟨l₁, l₂, rfl⟩ := List.append_of_mem ((all c).mpr (.inl rfl))
  -- None of the blocks before the chunk suits, as none did.
  have before (b : Nat) (hb : b ∈ l₁) : h₁.suits j b = false := by
    have apart : c ∉ l₁ := fun again => (List.nodup_append.mp path'.nodup).2.2 c again c (List.mem_cons_self ..) rfl
    rcases (all b).mp (List.mem_append_left _ hb) with rfl | old
    · exact absurd hb apart
    · have ne : b ≠ c := fun is => apart (is ▸ hb)
      rw [suits, (same trivial).order b old ne, (same trivial).available b old ne]
      exact unfit b ((sound.blocks_of_path path b).mpr old)
  obtain ⟨h', blocks', takes, n, reached⟩ := sound₁.blockFind_reaches large l₁ l₂ path' (fun b hb => (all b).mp hb)
    before (suits_iff.mpr ⟨free, whole.symm ▸ top⟩)
  have away := sound.chunk_notMem chunk.1 new
  refine ⟨h', blocks', takes.after (Set.subset_insert ..) (fun hc => absurd hc away) (fun hc => absurd hc away)
    (same trivial) headers, l.length + (n + 1), fun fuel replies enough => ?_⟩
  obtain ⟨more, rfl⟩ := Nat.exists_eq_add_of_le enough
  rw [Nat.add_assoc, Nat.add_right_comm n, sound.blockFind_end path unfit, expanded]
  exact reached _ replies 0 (Nat.le_add_right ..)

/-- block_find takes the first block that suits, for which it makes at most one call of mmap. -/
theorem Sound.blockFind_first (sound : h.Sound True other blocks live) (large : 5 ≤ j) (top : j ≤ mallocMaxOrder)
    {reply : Option Nat} (chunk : ∀ c, reply = some c → Chunk other c ∧ c ∉ h.chunks) {l : List Nat}
    (path : Path h.next 0 h.firstBlock l) (fit : h.firstFit j reply l = some a) :
    ∃ h' blocks', Takes True other j a live h h' blocks blocks' ∧ ∃ n, ∀ fuel replies, n ≤ fuel →
      Arena.blockFind other j fuel (reply :: replies) h.firstBlock 0 h = .ok a h' := by
  have inside (b : Nat) (hb : b ∈ l) : b ∈ blocks := (sound.blocks_of_path path b).mp hb
  rw [firstFit] at fit
  cases found : l.find? (h.suits j) with
  | some b =>
    rw [found, Option.some_or] at fit
    obtain rfl := Option.some.inj fit
    obtain ⟨fits, l₁, l₂, rfl, before⟩ := List.find?_eq_some_iff_append.mp found
    obtain ⟨h', blocks', takes, n, reached⟩ := sound.blockFind_reaches large l₁ l₂ path inside
      (fun b hb => (Bool.not_eq_true' _).mp (before b hb)) fits
    exact ⟨h', blocks', takes, n, fun fuel replies enough => reached fuel _ 0 enough⟩
  | none =>
    rw [found, Option.none_or] at fit
    subst fit
    obtain ⟨chunk, new⟩ := chunk a rfl
    exact sound.blockFind_expands large top chunk new path fun b hb =>
      Bool.not_eq_true _ ▸ List.find?_eq_none.mp found b hb

-- What MAP_FAILED points to ends behind the addresses.
theorem Sound.expand_fails (sound : h.Sound linked other blocks live) (top : other (2 ^ 64) = false) (last : Nat) :
    h.expand other last none = .fault := by
  have behind : page (2 ^ 64 - 1 + blockSize - 1) = 2 ^ 64 := by decide
  have before : page (2 ^ 64 - 1) = 2 ^ 64 - mallocBlockSize := by decide
  have none : 2 ^ 64 ∉ h.chunks := by
    intro member
    have bound := (sound.chunk _ member).2.2.1
    revert bound
    decide
  have used : h.use other (2 ^ 64 - 1) = .fault := by
    rw [Arena.use, if_neg, mapped, mapped, behind, top, decide_eq_false none, Bool.or_self, Bool.and_false,
      if_neg Bool.false_ne_true]
    rintro ⟨-, same⟩
    rw [behind, before] at same
    revert same
    decide
  unfold Arena.expand mmap
  dsimp only
  rw [if_neg (by decide), used]
  rfl

/-- With no block that suits and no chunk the header of the new block faults. -/
theorem Sound.blockFind_fails (sound : h.Sound True other blocks live) (top : other (2 ^ 64) = false) {l : List Nat}
    (path : Path h.next 0 h.firstBlock l) (unfit : ∀ b, b ∈ l → h.suits j b = false) :
    ∃ n, ∀ fuel replies, n ≤ fuel → Arena.blockFind other j fuel (none :: replies) h.firstBlock 0 h = .fault := by
  refine ⟨l.length + 1, fun fuel replies enough => ?_⟩
  obtain ⟨more, rfl⟩ := Nat.exists_eq_add_of_le enough
  rw [Nat.add_assoc, Nat.add_comm 1, sound.blockFind_end path unfit, sound.expand_fails top]
  rfl

/-- block_find does not come back from a search for an order that no block has. -/
theorem Sound.blockFind_high (sound : h.Sound True other blocks live) (top : other (2 ^ 64) = false)
    (high : mallocMaxOrder < j) (replies : List (Option Nat)) (supplies : Supplies other h replies) :
    ∃ n, ∀ fuel, n ≤ fuel → ∀ b h', Arena.blockFind other j fuel replies h.firstBlock 0 h ≠ .ok b h' := by
  obtain ⟨⟨l, path, all⟩, -, -⟩ := sound.listed trivial
  have unfit (b : Nat) (hb : b ∈ l) : h.suits j b = false := by
    have low := (sound.tiled.bounds b ((all b).mp hb)).2
    rw [suits, decide_eq_false (by omega), Bool.and_false]
  induction replies generalizing h blocks l with
  | nil =>
    refine ⟨l.length + 1, fun fuel enough b h' => ?_⟩
    obtain ⟨more, rfl⟩ := Nat.exists_eq_add_of_le enough
    rw [Nat.add_assoc, Nat.add_comm 1, sound.blockFind_walk l _ 0 _ _ path (fun b hb => (all b).mp hb) unfit,
      Arena.blockFind, if_neg (not_not.mpr rfl)]
    rintro ⟨⟩
  | cons reply replies ih =>
    cases reply with
    | none =>
      obtain ⟨n, fails⟩ := sound.blockFind_fails top path unfit
      refine ⟨n, fun fuel enough b h' => ?_⟩
      rw [fails fuel replies enough]
      rintro ⟨⟩
    | some c =>
      obtain ⟨chunk, new⟩ := supplies.2 c (List.mem_cons_self ..)
      obtain ⟨h₁, expanded, sound₁, chunks, -⟩ := sound.expand chunk new (sound.last_of_path path)
      obtain ⟨⟨l', path', all'⟩, -, -⟩ := sound₁.listed trivial
      have distinct := supplies.1
      rw [List.reduceOption_cons_of_some, List.nodup_cons, List.reduceOption_mem_iff] at distinct
      have rest : Supplies other h₁ replies := by
        refine ⟨distinct.2, fun d hd => ?_⟩
        obtain ⟨chunk', new'⟩ := supplies.2 d (List.mem_cons_of_mem _ hd)
        refine ⟨chunk', fun again => ?_⟩
        rw [chunks] at again
        rcases List.mem_cons.mp again with rfl | again
        · exact distinct.1 hd
        · exact new' again
      obtain ⟨n, stuck⟩ := ih sound₁ rest l' path' all' fun b hb => by
        have low := (sound₁.tiled.bounds b ((all' b).mp hb)).2
        rw [suits, decide_eq_false (by omega), Bool.and_false]
      refine ⟨l.length + (n + 1), fun fuel enough b h' => ?_⟩
      obtain ⟨more, rfl⟩ := Nat.exists_eq_add_of_le enough
      rw [Nat.add_assoc, Nat.add_right_comm n, sound.blockFind_end path unfit, expanded]
      exact stuck _ (Nat.le_add_right ..) b h'

end Sound

end Arena

end Anthill
