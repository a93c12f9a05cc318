import Anthill.UserPages
import Mathlib.Data.List.FinRange

set_option autoImplicit false

namespace Anthill

open Radix

-- The loop of mem_table_soft_copy over the entries of a level-3 table.
def softCopy3 (m : Mem) (level3 : Word) : Mem :=
  (List.finRange 512).foldl (fun m i3 =>
    if !mmuIsValid (m level3 i3) then m
    else put m level3 i3 (mmuMarkCopied (m level3 i3))) m

def softCopy2 (m : Mem) (level2 : Word) : Mem :=
  (List.finRange 512).foldl (fun m i2 =>
    if !mmuIsValid (m level2 i2) then m
    else
      let m := put m level2 i2 (mmuMarkCopied (m level2 i2))
      if mmuIsBlock (m level2 i2) then m else softCopy3 m (mmuGetVaddr (m level2 i2))) m

-- The validity test of this loop is made on the level-0 entry once more.
def softCopy1 (m : Mem) (level0 : Word) (i0 : Idx) (level1 : Word) : Mem :=
  (List.finRange 512).foldl (fun m i1 =>
    if !mmuIsValid (m level0 i0) then m
    else
      let m := put m level1 i1 (mmuMarkCopied (m level1 i1))
      if mmuIsBlock (m level1 i1) then m else softCopy2 m (mmuGetVaddr (m level1 i1))) m

def memTableSoftCopy (m : Mem) (table : Word) : Mem :=
  (List.finRange 512).foldl (fun m i0 =>
    if !mmuIsValid (m table i0) then m
    else softCopy1 m table i0 (mmuGetVaddr (m table i0))) m

-- Two memories whose entries lead to the same places.
def Shape (m m' : Mem) : Prop := ∀ p i, m' p i &&& navMask = m p i &&& navMask

theorem Shape.trans {m m' m'' : Mem} (first : Shape m m') (second : Shape m' m'') : Shape m m'' :=
  fun p i => (second p i).trans (first p i)

section Shape

variable {m m' : Mem} (shape : Shape m m')

include shape

theorem Shape.valid (p : Word) (i : Idx) : mmuIsValid (m' p i) = mmuIsValid (m p i) :=
  isValid_congr _ _ (shape p i)

theorem Shape.block (p : Word) (i : Idx) : mmuIsBlock (m' p i) = mmuIsBlock (m p i) :=
  isBlock_congr _ _ (shape p i)

theorem Shape.vaddr (p : Word) (i : Idx) : mmuGetVaddr (m' p i) = mmuGetVaddr (m p i) :=
  getVaddr_congr _ _ (shape p i)

theorem Shape.goes (p : Word) (i : Idx) : nav (m' p i) = nav (m p i) := nav_congr _ _ (shape p i)

theorem Shape.walk (t : Word) (s : List Idx) : node nav m' t s = node nav m t s :=
  node_congr nav m m' (fun p i => shape.goes p i) t s

end Shape

theorem shape_of_touched {m m' : Mem} {f : Word → Word} {S : Word → Idx → Prop}
    (touched : Touched f S m m') (keeps : ∀ e, f e &&& navMask = e &&& navMask) : Shape m m' := by
  intro p i
  by_cases inside : S p i
  · rw [touched.inside p i inside, keeps]
  · rw [touched.outside p i inside]

/-- The shape of user tables. There are no blocks in them, and an entry of a level-1 table that is
not valid does not look like a table either. -/
structure Shaped (m : Mem) (pos : Pos) : Prop where
  typed : Typed nav 3 m pos
  table : ∀ p q i, pos p = some q → q.length = 1 ∨ q.length = 2 → mmuIsValid (m p i) = true →
    mmuIsBlock (m p i) = false
  blank : ∀ p q i, pos p = some q → q.length = 1 → mmuIsValid (m p i) = false →
    mmuIsBlock (m p i) = true

theorem Shaped.shape {m m' : Mem} {pos : Pos} (shaped : Shaped m pos) (shape : Shape m m') :
    Shaped m' pos where
  typed := shaped.typed.congr fun p _ i _ => shape.goes p i
  table p q i position upper valid := by
    rw [shape.valid] at valid
    rw [shape.block]
    exact shaped.table p q i position upper valid
  blank p q i position first invalid := by
    rw [shape.valid] at invalid
    rw [shape.block]
    exact shaped.blank p q i position first invalid

-- The valid entries of `c` and of the tables at most `d` levels below it.
def Below (m : Mem) (c : Word) (d : Nat) (p : Word) (i : Idx) : Prop :=
  ∃ r, r.length ≤ d ∧ node nav m c r = some p ∧ mmuIsValid (m p i) = true

-- The part of `Below` that one entry of `c` accounts for.
def Under (m : Mem) (c : Word) (d : Nat) (j : Idx) (p : Word) (i : Idx) : Prop :=
  mmuIsValid (m p i) = true ∧
    ((p = c ∧ i = j) ∨ ∃ r, r.length < d ∧ node nav m c (j :: r) = some p)

theorem below_under (m : Mem) (c : Word) (d : Nat) (p : Word) (i : Idx) :
    Below m c d p i ↔ ∃ j, j ∈ List.finRange 512 ∧ Under m c d j p i := by
  constructor
  · rintro ⟨r, short, found, valid⟩
    cases r with
    | nil =>
      have here : c = p := by simpa using found
      exact ⟨i, List.mem_finRange i, valid, .inl ⟨here.symm, rfl⟩⟩
    | cons j r => exact ⟨j, List.mem_finRange j, valid, .inr ⟨r, short, found⟩⟩
  · rintro ⟨j, _, valid, ⟨rfl, rfl⟩ | ⟨r, short, found⟩⟩
    · exact ⟨[], Nat.zero_le d, rfl, valid⟩
    · exact ⟨j :: r, short, found, valid⟩

theorem Shape.below {m m' : Mem} (shape : Shape m m') (c : Word) (d : Nat) (p : Word) (i : Idx) :
    Below m' c d p i ↔ Below m c d p i := by
  simp only [Below, shape.walk, shape.valid]

section Rounds

variable {m : Mem} {pos : Pos} (shaped : Shaped m pos) {c : Word} {q : List Idx}
  (here : pos c = some q)

include shaped here

theorem Shaped.node_pos (r : List Idx) (p : Word) (short : q.length + r.length ≤ 3)
    (found : node nav m c r = some p) : pos p = some (q ++ r) := by
  induction r generalizing c q with
  | nil =>
    obtain rfl : c = p := by simpa using found
    simpa using here
  | cons i r ih =>
    rw [List.length_cons] at short
    rw [node_cons] at found
    cases step : nav (m c i) with
    | none => simp [step] at found
    | some b =>
      rw [step, Option.bind_some] at found
      have next := ih (shaped.typed.child c q i b here (by omega) step)
        (by rw [List.length_append, List.length_singleton]; omega) found
      simpa using next

theorem under_apart (d : Nat) (short : q.length + d ≤ 3) (j j' : Idx) (p : Word) (i : Idx)
    (different : j ≠ j') (first : Under m c d j p i) : ¬ Under m c d j' p i := by
  have deeper (j : Idx) (r : List Idx) (small : r.length < d) (found : node nav m c (j :: r) = some p) :
      pos p = some (q ++ j :: r) :=
    shaped.node_pos here (j :: r) p (by rw [List.length_cons]; omega) found
  have clash (r : List Idx) (position : pos p = some r) (longer : q ++ r = q) : r = [] := by
    simpa using longer
  rintro ⟨_, second⟩
  rcases first.2 with ⟨rfl, rfl⟩ | ⟨r, small, found⟩ <;>
    rcases second with ⟨same, again⟩ | ⟨r', small', found'⟩
  · exact different again
  · have path := here.symm.trans (deeper j' r' small' found')
    simp at path
  · subst same
    have path := here.symm.trans (deeper j r small found)
    simp at path
  · have path := (deeper j r small found).symm.trans (deeper j' r' small' found')
    simp only [Option.some.injEq, List.append_cancel_left_eq, List.cons.injEq] at path
    exact different path.1

-- A valid entry that leads to a table accounts for itself and for what lies below that table.
omit shaped here in
theorem under_entry (d : Nat) (j : Idx) (valid : mmuIsValid (m c j) = true) (p : Word) (i : Idx) :
    Under m c (d + 1) j p i ↔ (p = c ∧ i = j) ∨ Below m (mmuGetVaddr (m c j)) d p i := by
  have step (r : List Idx) : node nav m c (j :: r) = node nav m (mmuGetVaddr (m c j)) r := by
    rw [node_cons, nav_of_valid _ valid, Option.bind_some]
  constructor
  · rintro ⟨there, self | ⟨r, short, found⟩⟩
    · exact .inl self
    · exact .inr ⟨r, Nat.le_of_lt_succ short, by rw [← step]; exact found, there⟩
  · rintro (⟨rfl, rfl⟩ | ⟨r, short, found, there⟩)
    · exact ⟨valid, .inl ⟨rfl, rfl⟩⟩
    · exact ⟨there, .inr ⟨r, Nat.lt_succ_of_le short, by rw [step]; exact found⟩⟩

omit shaped here in
theorem under_invalid (d : Nat) (j : Idx) (invalid : mmuIsValid (m c j) = false) (p : Word)
    (i : Idx) : ¬ Under m c d j p i := by
  rintro ⟨there, ⟨rfl, rfl⟩ | ⟨r, _, found⟩⟩
  · rw [invalid] at there
    cases there
  · rw [node_cons, nav_of_invalid _ invalid] at found
    cases found

theorem below_away (d : Nat) (short : q.length + d < 3) (j : Idx)
    (valid : mmuIsValid (m c j) = true) (i : Idx) : ¬ Below m (mmuGetVaddr (m c j)) d c i := by
  rintro ⟨r, small, found, _⟩
  have child := shaped.typed.child c q j _ here (by omega) (nav_of_valid _ valid)
  have path := here.symm.trans (shaped.node_pos child r c (by
    rw [List.length_append, List.length_singleton]
    omega) found)
  simp at path

end Rounds

theorem mmuMarkCopied_shape {m m' : Mem} {S : Word → Idx → Prop}
    (touched : Touched mmuMarkCopied S m m') : Shape m m' :=
  shape_of_touched touched mmuMarkCopied_nav

theorem softCopy3_touched (m : Mem) (pos : Pos) (shaped : Shaped m pos) (level3 : Word)
    (q : List Idx) (here : pos level3 = some q) (deep : q.length = 3) :
    Touched mmuMarkCopied (Below m level3 0) m (softCopy3 m level3) := by
  refine (Touched.foldl mmuMarkCopied (Under m level3 0) _ m _ (List.nodup_finRange 512)
    (fun j j' p i different => under_apart shaped here 0 (by omega) j j' p i different) ?_).congr
    (below_under m level3 0)
  intro j T m' touched _
  have shape := mmuMarkCopied_shape touched
  cases valid : mmuIsValid (m' level3 j) with
  | false =>
    rw [shape.valid] at valid
    exact (Touched.nothing _ m').congr fun p i => iff_false_intro (under_invalid 0 j valid p i)
  | true =>
    refine (Touched.one mmuMarkCopied m' level3 j).congr fun p i => ?_
    rw [shape.valid] at valid
    constructor
    · rintro ⟨_, self | ⟨r, short, _⟩⟩
      · exact self
      · omega
    · rintro ⟨rfl, rfl⟩
      exact ⟨valid, .inl ⟨rfl, rfl⟩⟩

theorem softCopy2_touched (m : Mem) (pos : Pos) (shaped : Shaped m pos) (level2 : Word)
    (q : List Idx) (here : pos level2 = some q) (deep : q.length = 2) :
    Touched mmuMarkCopied (Below m level2 1) m (softCopy2 m level2) := by
  refine (Touched.foldl mmuMarkCopied (Under m level2 1) _ m _ (List.nodup_finRange 512)
    (fun j j' p i different => under_apart shaped here 1 (by omega) j j' p i different) ?_).congr
    (below_under m level2 1)
  intro j T m' touched _
  have shape := mmuMarkCopied_shape touched
  cases valid : mmuIsValid (m' level2 j) with
  | false =>
    rw [shape.valid] at valid
    exact (Touched.nothing _ m').congr fun p i => iff_false_intro (under_invalid 1 j valid p i)
  | true =>
    have first := Touched.one mmuMarkCopied m' level2 j
    have shape' := shape.trans (mmuMarkCopied_shape first)
    rw [shape.valid] at valid
    have table := shaped.table level2 q j here (.inr deep) valid
    have child := shaped.typed.child level2 q j _ here (by omega) (nav_of_valid _ valid)
    have below := softCopy3_touched _ pos (shaped.shape shape') _ _ child (by simp [deep])
    have next := first.trans below (by
      rintro p i ⟨rfl, rfl⟩
      rw [shape'.below]
      exact below_away shaped here 0 (by omega) _ valid _)
    simp only [Bool.not_true, Bool.false_eq_true, if_false, shape'.block, table, shape'.vaddr]
    refine next.congr fun p i => ?_
    rw [under_entry 0 j valid, shape'.below]

-- What the round for one entry of a level-1 table writes: that entry in any case.
def Round1 (m : Mem) (level1 : Word) (j : Idx) (p : Word) (i : Idx) : Prop :=
  (p = level1 ∧ i = j) ∨ Under m level1 2 j p i

theorem softCopy1_touched (m : Mem) (pos : Pos) (shaped : Shaped m pos) (level0 level1 : Word)
    (i0 : Idx) (q : List Idx) (here : pos level1 = some q) (deep : q.length = 1)
    (valid0 : mmuIsValid (m level0 i0) = true) :
    Touched mmuMarkCopied (fun p i => p = level1 ∨ Below m level1 2 p i) m
      (softCopy1 m level0 i0 level1) := by
  have apart (j j' : Idx) (p : Word) (i : Idx) (different : j ≠ j') (first : Round1 m level1 j p i) :
      ¬ Round1 m level1 j' p i := by
    have self (a b : Idx) (x : Word) (y : Idx) (at' : x = level1 ∧ y = a)
        (under : Under m level1 2 b x y) : a = b := by
      obtain ⟨rfl, rfl⟩ := at'
      obtain ⟨_, ⟨_, same⟩ | ⟨r, short, found⟩⟩ := under
      · exact same
      · have path := here.symm.trans (shaped.node_pos here (b :: r) x (by
          rw [List.length_cons]
          omega) found)
        simp at path
    rintro second
    rcases first with ⟨rfl, rfl⟩ | first <;> rcases second with ⟨same, again⟩ | second
    · exact different again
    · exact different (self _ _ _ _ ⟨rfl, rfl⟩ second)
    · exact different (self _ _ _ _ ⟨same, again⟩ first).symm
    · exact under_apart shaped here 2 (by omega) j j' p i different first second
  refine (Touched.foldl mmuMarkCopied (Round1 m level1) _ m _ (List.nodup_finRange 512)
    apart ?_).congr ?_
  · intro j T m' touched _
    have shape := mmuMarkCopied_shape touched
    have first := Touched.one mmuMarkCopied m' level1 j
    have shape' := shape.trans (mmuMarkCopied_shape first)
    simp only [shape.valid, valid0, Bool.not_true, Bool.false_eq_true, if_false, shape'.block]
    cases valid : mmuIsValid (m level1 j) with
    | false =>
      rw [if_pos (shaped.blank level1 q j here deep valid)]
      exact first.congr fun p i => or_iff_left (under_invalid 2 j valid p i)
    | true =>
      have table := shaped.table level1 q j here (.inl deep) valid
      have child := shaped.typed.child level1 q j _ here (by omega) (nav_of_valid _ valid)
      have below := softCopy2_touched _ pos (shaped.shape shape') _ _ child (by simp [deep])
      have next := first.trans below (by
        rintro p i ⟨rfl, rfl⟩
        rw [shape'.below]
        exact below_away shaped here 1 (by omega) _ valid _)
      simp only [table, Bool.false_eq_true, if_false, shape'.vaddr]
      refine next.congr fun p i => ?_
      rw [Round1, under_entry 1 j valid, shape'.below, ← or_assoc, or_self]
  · intro p i
    rw [below_under]
    constructor
    · rintro (rfl | ⟨j, member, under⟩)
      · exact ⟨i, List.mem_finRange i, .inl ⟨rfl, rfl⟩⟩
      · exact ⟨j, member, .inr under⟩
    · rintro ⟨j, member, ⟨rfl, _⟩ | under⟩
      · exact .inl rfl
      · exact .inr ⟨j, member, under⟩

/-- The entries that mem_table_soft_copy marks: those of every table below the root that are valid,
and in the level-1 tables the others too. -/
def Lower (m : Mem) (t p : Word) (i : Idx) : Prop :=
  ∃ r, 1 ≤ r.length ∧ r.length ≤ 3 ∧ node nav m t r = some p ∧
    (r.length = 1 ∨ mmuIsValid (m p i) = true)

-- The part of `Lower` that one entry of the root accounts for.
def Round0 (m : Mem) (t : Word) (j : Idx) (p : Word) (i : Idx) : Prop :=
  mmuIsValid (m t j) = true ∧ (p = mmuGetVaddr (m t j) ∨ Below m (mmuGetVaddr (m t j)) 2 p i)

theorem round0_iff (m : Mem) (t : Word) (j : Idx) (p : Word) (i : Idx) :
    Round0 m t j p i ↔ ∃ r, r.length ≤ 2 ∧ node nav m t (j :: r) = some p ∧
      (r.length = 0 ∨ mmuIsValid (m p i) = true) := by
  cases valid : mmuIsValid (m t j) with
  | false => simp [Round0, valid, node_cons, nav_of_invalid _ valid]
  | true =>
    have step (r : List Idx) : node nav m t (j :: r) = node nav m (mmuGetVaddr (m t j)) r := by
      rw [node_cons, nav_of_valid _ valid, Option.bind_some]
    simp only [Round0, valid, true_and, step, Below]
    constructor
    · rintro (rfl | ⟨r, short, found, there⟩)
      · exact ⟨[], by simp, rfl, .inl rfl⟩
      · exact ⟨r, short, found, .inr there⟩
    · rintro ⟨r, short, found, empty | there⟩
      · obtain rfl := List.length_eq_zero_iff.mp empty
        exact .inl (Option.some.inj found).symm
      · exact .inr ⟨r, short, found, there⟩

theorem lower_iff (m : Mem) (t p : Word) (i : Idx) :
    Lower m t p i ↔ ∃ j, j ∈ List.finRange 512 ∧ Round0 m t j p i := by
  simp only [round0_iff]
  constructor
  · rintro ⟨r, nonempty, short, found, which⟩
    cases r with
    | nil => simp at nonempty
    | cons j r =>
      rw [List.length_cons] at short which
      exact ⟨j, List.mem_finRange j, r, by omega, found, which.imp_left (by omega)⟩
  · rintro ⟨j, _, r, short, found, which⟩
    refine ⟨j :: r, by simp, ?_, found, which.imp_left ?_⟩
    · rw [List.length_cons]
      omega
    · rw [List.length_cons]
      omega

/-- mem_table_soft_copy marks each entry of the tables below the root exactly once. -/
theorem memTableSoftCopy_touched (m : Mem) (pos : Pos) (shaped : Shaped m pos) (t : Word)
    (root : pos t = some []) : Touched mmuMarkCopied (Lower m t) m (memTableSoftCopy m t) := by
  have path (j : Idx) (p : Word) (i : Idx) (round : Round0 m t j p i) :
      ∃ r, pos p = some (j :: r) := by
    obtain ⟨r, short, found, _⟩ := (round0_iff m t j p i).mp round
    exact ⟨r, shaped.node_pos root (j :: r) p (by simp; omega) found⟩
  refine (Touched.foldl mmuMarkCopied (Round0 m t) _ m _ (List.nodup_finRange 512) ?_ ?_).congr
    (lower_iff m t)
  · intro j j' p i different first second
    obtain ⟨r, position⟩ := path j p i first
    obtain ⟨r', position'⟩ := path j' p i second
    rw [position] at position'
    simp only [Option.some.injEq, List.cons.injEq] at position'
    exact different position'.1
  · intro j T m' touched _
    have shape := mmuMarkCopied_shape touched
    simp only [shape.valid, shape.vaddr]
    cases valid : mmuIsValid (m t j) with
    | false =>
      exact (Touched.nothing _ m').congr fun p i => iff_false_intro fun round => by
        rw [Round0, valid] at round
        cases round.1
    | true =>
      have child := shaped.typed.child t [] j _ root (by simp) (nav_of_valid _ valid)
      have below := softCopy1_touched m' pos (shaped.shape shape) t _ j _ child rfl
        (by rw [shape.valid]; exact valid)
      refine below.congr fun p i => ?_
      rw [Round0, valid, shape.below]
      simp

attribute [irreducible] memTableSoftCopy

end Anthill
