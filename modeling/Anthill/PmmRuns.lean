import Anthill.Pmm
import Anthill.Run

set_option autoImplicit false

namespace Anthill

inductive PmmCall where
  | mark (addr : Word)
  | free (addr : Word)
  | get

-- What a call returns and leaves, unless it accesses memory outside of memory_map.
def PmmCall.run (map : MemoryMap) : PmmCall → Option (Option Word × MemoryMap)
  | .mark addr => if pmmPage addr / bitsOf < memMapSize then some (none, pmmMark map addr) else none
  | .free addr => if pmmPage addr / bitsOf < memMapSize then some (none, pmmFree map addr) else none
  | .get =>
    match pmmGet map with
    | none => some (none, map)
    | some (addr, map) => some (some addr, map)

/-- A page of the range from MEM_LOW to MEM_HIGH. -/
def RangePage (addr : Word) : Prop :=
  memLow.toNat ≤ addr.toNat ∧ addr.toNat < memHigh.toNat ∧ pageSize.toNat ∣ addr.toNat

instance (addr : Word) : Decidable (RangePage addr) := inferInstanceAs (Decidable (_ ∧ _))

/-- The last 64 pages of the range have no bit in memory_map. -/
def HasBit (addr : Word) : Prop := addr.toNat + bitsOf * pageSize.toNat < memHigh.toNat

instance (addr : Word) : Decidable (HasBit addr) := inferInstanceAs (Decidable (_ < _))

def PmmCall.OnRange : PmmCall → Prop
  | .mark addr | .free addr => RangePage addr
  | .get => True

-- The pages that are marked after a call that has returned `r`.
def PmmCall.note (pages : Word → Bool) (r : Option Word) : PmmCall → Word → Bool
  | .mark addr => Function.update pages addr true
  | .free addr => Function.update pages addr false
  | .get => r.elim pages fun addr => Function.update pages addr true

/-- pmm_get returns the lowest page that is not marked, and NULL if there is none. -/
def PmmCall.Gives (pages : Word → Bool) (r : Option Word) : PmmCall → Prop
  | .mark _ | .free _ => True
  | .get =>
    match r with
    | some addr => RangePage addr ∧ pages addr = false ∧ ∀ a, RangePage a → a.toNat < addr.toNat → pages a = true
    | none => ∀ a, RangePage a → pages a = true

def MemoryMap.Shows (map : MemoryMap) (pages : Word → Bool) : Prop :=
  ∀ a, RangePage a → HasBit a → marked map (pmmPage a) = pages a

/-- memory_map, and the pages that the calls have marked. -/
structure PmmSys where
  map : MemoryMap
  pages : Word → Bool

def PmmSys.boot : PmmSys := ⟨fun _ => 0, fun _ => false⟩

def PmmCall.Step (s : PmmSys) (call : PmmCall) (s' : PmmSys) : Prop :=
  ∃ r, call.run s.map = some (r, s'.map) ∧ s'.pages = call.note s.pages r

/-- The call stays in memory_map, returns what it should, and changes the bit of its own page only. -/
def PmmCall.Works (s : PmmSys) (call : PmmCall) : Prop :=
  ∃ r map', call.run s.map = some (r, map') ∧ call.Gives s.pages r ∧ MemoryMap.Shows map' (call.note s.pages r)

def PmmCall.Fits (s : PmmSys) : PmmCall → Prop
  | .mark addr | .free addr => HasBit addr
  | .get => ∃ a, RangePage a ∧ HasBit a ∧ s.pages a = false

theorem RangePage.toNat_eq {a : Word} (frame : RangePage a) : a.toNat = 0x80000 + pmmPage a * 4096 := by
  obtain ⟨low, -, aligned⟩ := frame
  have base : memLow.toNat = 0x80000 := by decide
  have size : pageSize.toNat = 4096 := by decide
  rw [base] at low
  rw [size] at aligned
  have page : pmmPage a = (a.toNat - 0x80000) / 4096 := by
    rw [pmmPage, BitVec.toNat_udiv, BitVec.toNat_sub, base, size]
    omega
  omega

theorem RangePage.inj {a b : Word} (frameA : RangePage a) (frameB : RangePage b) (same : pmmPage a = pmmPage b) : a = b := by
  apply BitVec.eq_of_toNat_eq
  rw [frameA.toNat_eq, frameB.toNat_eq, same]

theorem RangePage.low_iff {a : Word} (frame : RangePage a) : HasBit a ↔ pmmPage a < managed := by
  have value := frame.toNat_eq
  have size : bitsOf * pageSize.toNat = 262144 := by decide
  have high : memHigh.toNat = 1040187392 := by decide
  rw [HasBit, managed_eq, size, high]
  omega

theorem inMap_iff (n : Nat) : n / bitsOf < memMapSize ↔ n < managed := by
  unfold managed
  exact Nat.div_lt_iff_lt_mul (by decide)

-- memory_map has a word for a page where it has a bit for it.
theorem RangePage.inMap {a : Word} (frame : RangePage a) : pmmPage a / bitsOf < memMapSize ↔ HasBit a :=
  (inMap_iff _).trans frame.low_iff.symm

theorem poolPage_frame (n : Nat) (inside : n < managed) : RangePage (poolPage n) := by
  have value := poolPage_toNat n inside
  have base : memLow.toNat = 0x80000 := by decide
  have size : pageSize.toNat = 4096 := by decide
  have high : memHigh.toNat = 1040187392 := by decide
  rw [managed_eq] at inside
  rw [RangePage, base, size, high, value]
  omega

theorem bit_before {i off k : Nat} (small : off < bitsOf) (before : k < i * bitsOf + off) :
    k / bitsOf < i ∨ (k / bitsOf = i ∧ k % bitsOf < off) := by
  unfold bitsOf at *
  omega

-- pmm_get skips a word only when all its bits are set.
theorem marked_before (map : MemoryMap) (i off k : Nat) (position : pmmFind map = some (i, off))
    (lower : k / bitsOf < i) : marked map k = true := by
  have word := (pmmFind_some map i off position).1
  rw [pmmFind] at position
  obtain ⟨l, j, l', split, hit, misses⟩ := List.findSome?_eq_some_iff.mp position
  have sorted : (l ++ j :: l').Pairwise (· < ·) := split ▸ List.pairwise_lt_range
  have found : j = i := by
    split_ifs at hit
    obtain ⟨_, _, same⟩ := Option.map_eq_some_iff.mp hit
    exact (Prod.mk.inj same).1
  subst found
  have member : k / bitsOf ∈ l ++ j :: l' := split ▸ List.mem_range.mpr (lower.trans word)
  rcases List.mem_append.mp member with first | later
  · have miss := misses _ first
    unfold marked
    split_ifs at miss with ones
    · rw [ones, BitVec.getLsbD_allOnes]
      exact decide_eq_true (mod_bitsOf_lt k)
    · exact freeBit_none _ (Option.map_eq_none_iff.mp miss) _ (mod_bitsOf_lt k)
  · rcases List.mem_cons.mp later with same | behind
    · omega
    · have := (List.pairwise_cons.mp (List.pairwise_append.mp sorted).2.1).1 _ behind
      omega

/-- The pages before the one that pmm_get returns are marked. -/
theorem pmmGet_least (map map' : MemoryMap) (n : Nat) (inside : n < managed)
    (found : pmmGet map = some (poolPage n, map')) (k : Nat) (before : k < n) : marked map k = true := by
  unfold pmmGet at found
  rw [Option.map_eq_some_iff] at found
  obtain ⟨⟨i, off⟩, position, result⟩ := found
  obtain ⟨word, bit⟩ := pmmFind_some map i off position
  obtain ⟨small, -, earlier⟩ := freeBit_some _ _ bit
  have range : i * bitsOf + off < managed := by
    have step : (i + 1) * bitsOf ≤ memMapSize * bitsOf := Nat.mul_le_mul_right _ word
    rw [Nat.add_mul] at step
    unfold managed
    omega
  obtain rfl := poolPage_inj _ _ range inside (Prod.mk.inj result).1
  rcases bit_before small before with lower | ⟨same, lower⟩
  · exact marked_before map i off k position lower
  · rw [marked, same]
    exact earlier _ lower

section Runs

variable {s : PmmSys}

/-- What lies between calls: the bits of memory_map, and that no page is marked that has no bit. -/
structure PmmSys.Keeps (s : PmmSys) : Prop where
  shows : s.map.Shows s.pages
  high : ∀ a, RangePage a → ¬ HasBit a → s.pages a = false

theorem PmmSys.boot_keeps : PmmSys.boot.Keeps where
  shows a _ _ := by
    rw [marked]
    exact BitVec.getLsbD_zero
  high _ _ _ := rfl

theorem MemoryMap.Shows.mark {map : MemoryMap} {pages : Word → Bool} (shows : map.Shows pages) {addr : Word}
    (frame : RangePage addr) : MemoryMap.Shows (pmmMark map addr) (Function.update pages addr true) := by
  intro a frameA low
  rw [marked_pmmMark]
  by_cases same : a = addr
  · subst same
    simp
  · have apart : pmmPage a ≠ pmmPage addr := fun page => same (frameA.inj frame page)
    rw [Function.update_of_ne same, shows a frameA low, decide_eq_false apart, Bool.false_or]

theorem MemoryMap.Shows.free {map : MemoryMap} {pages : Word → Bool} (shows : map.Shows pages) {addr : Word}
    (frame : RangePage addr) : MemoryMap.Shows (pmmFree map addr) (Function.update pages addr false) := by
  intro a frameA low
  rw [marked_pmmFree]
  by_cases same : a = addr
  · subst same
    simp
  · have apart : pmmPage a ≠ pmmPage addr := fun page => same (frameA.inj frame page)
    rw [Function.update_of_ne same, shows a frameA low, decide_eq_false apart, Bool.not_false, Bool.and_true]

/-- pmm_get takes the lowest page that is not marked, or finds all pages that have a bit marked. -/
theorem PmmSys.Keeps.get_cases (keeps : s.Keeps) :
    (∃ addr, PmmCall.get.run s.map = some (some addr, pmmMark s.map addr) ∧ RangePage addr ∧ HasBit addr ∧
      s.pages addr = false ∧ ∀ a, RangePage a → a.toNat < addr.toNat → s.pages a = true) ∨
    (PmmCall.get.run s.map = some (none, s.map) ∧ ∀ a, RangePage a → HasBit a → s.pages a = true) := by
  cases got : pmmGet s.map with
  | none =>
    refine .inr ⟨by rw [PmmCall.run, got], fun a frame low => ?_⟩
    rw [← keeps.shows a frame low]
    exact pmmGet_none s.map got _ (frame.low_iff.mp low)
  | some found =>
    obtain ⟨addr, map'⟩ := found
    obtain ⟨n, inside, rfl, clear, rfl⟩ := pmmGet_some s.map map' addr got
    have frame := poolPage_frame n inside
    have page := pmmPage_poolPage n inside
    have low : HasBit (poolPage n) := frame.low_iff.mpr (by rwa [page])
    refine .inl ⟨poolPage n, by rw [PmmCall.run, got], frame, low, ?_, fun a frameA before => ?_⟩
    · rw [← keeps.shows _ frame low, page]
      exact clear
    · have lower : pmmPage a < n := by
        rw [frameA.toNat_eq, frame.toNat_eq, page] at before
        omega
      rw [← keeps.shows a frameA (frameA.low_iff.mpr (lower.trans inside))]
      exact pmmGet_least s.map _ n inside got _ lower

theorem PmmSys.Keeps.step (keeps : s.Keeps) (call : PmmCall) (frames : call.OnRange) (fits : call.Fits s) (s' : PmmSys)
    (step : call.Step s s') : s'.Keeps := by
  have still (addr : Word) (bit : Bool) (low : HasBit addr) (a : Word) (frame : RangePage a) (high : ¬ HasBit a) :
      Function.update s.pages addr bit a = false := by
    have other : a ≠ addr := fun same => high (same ▸ low)
    rw [Function.update_of_ne other]
    exact keeps.high a frame high
  obtain ⟨map', pages'⟩ := s'
  obtain ⟨r, ran, noted⟩ := step
  dsimp only at ran noted
  cases call with
  | mark addr =>
    rw [PmmCall.run, if_pos (RangePage.inMap frames |>.mpr fits)] at ran
    obtain ⟨rfl, rfl⟩ := Prod.mk.inj (Option.some.inj ran)
    subst noted
    exact ⟨keeps.shows.mark frames, still addr true fits⟩
  | free addr =>
    rw [PmmCall.run, if_pos (RangePage.inMap frames |>.mpr fits)] at ran
    obtain ⟨rfl, rfl⟩ := Prod.mk.inj (Option.some.inj ran)
    subst noted
    exact ⟨keeps.shows.free frames, still addr false fits⟩
  | get =>
    rcases keeps.get_cases with ⟨addr, got, frame, low, -, -⟩ | ⟨got, -⟩
    · rw [got] at ran
      obtain ⟨rfl, rfl⟩ := Prod.mk.inj (Option.some.inj ran)
      subst noted
      exact ⟨keeps.shows.mark frame, still addr true low⟩
    · rw [got] at ran
      obtain ⟨rfl, rfl⟩ := Prod.mk.inj (Option.some.inj ran)
      subst noted
      exact keeps

theorem PmmSys.Keeps.works_iff (keeps : s.Keeps) (call : PmmCall) (frames : call.OnRange) :
    call.Works s ↔ call.Fits s := by
  cases call with
  | mark addr =>
    have bit : pmmPage addr / bitsOf < memMapSize ↔ HasBit addr := RangePage.inMap frames
    constructor
    · rintro ⟨r, map', ran, -⟩
      by_contra high
      rw [PmmCall.run, if_neg (mt bit.mp high)] at ran
      cases ran
    · intro low
      exact ⟨none, _, if_pos (bit.mpr low), trivial, keeps.shows.mark frames⟩
  | free addr =>
    have bit : pmmPage addr / bitsOf < memMapSize ↔ HasBit addr := RangePage.inMap frames
    constructor
    · rintro ⟨r, map', ran, -⟩
      by_contra high
      rw [PmmCall.run, if_neg (mt bit.mp high)] at ran
      cases ran
    · intro low
      exact ⟨none, _, if_pos (bit.mpr low), trivial, keeps.shows.free frames⟩
  | get =>
    rcases keeps.get_cases with ⟨addr, got, frame, low, clear, least⟩ | ⟨got, full⟩
    · exact ⟨fun _ => ⟨addr, frame, low, clear⟩, fun _ =>
        ⟨some addr, _, got, ⟨frame, clear, least⟩, keeps.shows.mark frame⟩⟩
    · constructor
      · rintro ⟨r, map', ran, gives, -⟩
        rw [got] at ran
        obtain ⟨rfl, rfl⟩ := Prod.mk.inj (Option.some.inj ran)
        have last : RangePage 0x3dfff000 ∧ ¬ HasBit 0x3dfff000 := by decide
        have set := gives _ last.1
        rw [keeps.high _ last.1 last.2] at set
        cases set
      · rintro ⟨a, frame, low, clear⟩
        rw [full a frame low] at clear
        cases clear

end Runs

/-- From an empty memory_map a call works, and the bits show which pages are marked, for as long as no call meets one of
the last 64 pages: it is not made on them, and pmm_get does not come to them. -/
theorem pmm_works_iff (s : PmmSys) (run : Run PmmCall.Step (fun s call => call.OnRange ∧ call.Fits s) PmmSys.boot s) :
    s.map.Shows s.pages ∧ ∀ call : PmmCall, call.OnRange → (call.Works s ↔ call.Fits s) := by
  have keeps : s.Keeps := run.invariant PmmSys.Keeps PmmSys.boot_keeps
    fun s call s' keeps fine step => keeps.step call fine.1 fine.2 s' step
  exact ⟨keeps.shows, keeps.works_iff⟩

theorem PmmSys.mark_step (s : PmmSys) {addr : Word} (frame : RangePage addr) (low : HasBit addr) :
    PmmCall.Step s (.mark addr) ⟨pmmMark s.map addr, Function.update s.pages addr true⟩ :=
  ⟨none, if_pos (frame.inMap.mpr low), rfl⟩

theorem PmmSys.free_step (s : PmmSys) {addr : Word} (frame : RangePage addr) (low : HasBit addr) :
    PmmCall.Step s (.free addr) ⟨pmmFree s.map addr, Function.update s.pages addr false⟩ :=
  ⟨none, if_pos (frame.inMap.mpr low), rfl⟩

-- A page that is marked and freed.
theorem pmm_works_iff_freed : ∃ s : PmmSys, s.map.Shows s.pages ∧
    ∀ call : PmmCall, call.OnRange → (call.Works s ↔ call.Fits s) := by
  have low : RangePage 0x81000 ∧ HasBit 0x81000 := by decide
  exact ⟨_, pmm_works_iff _ (.next _ _ (.free 0x81000)
    (.next _ _ (.mark 0x81000) .start low (PmmSys.mark_step _ low.1 low.2)) low (PmmSys.free_step _ low.1 low.2))⟩

/-- The bit of the last page of the range is behind memory_map. -/
theorem pmm_mark_last : ¬ ∀ call : PmmCall, call.OnRange → call.Works PmmSys.boot := by
  intro all
  have last : RangePage 0x3dfff000 ∧ ¬ HasBit 0x3dfff000 := by decide
  exact last.2 ((PmmSys.boot_keeps.works_iff (.mark 0x3dfff000) last.1).mp (all _ last.1))

end Anthill
